import Predictive.Journal
import Predictive.Proofs.Classification
import Predictive.Proofs.IndexRange
import Predictive.Proofs.StackBottom

/-!
What is looked up by index is found.  Entries of the journal name nonterminals that were marked
or whose sets grew, and the rows, columns and productions of conflicts; the machine applies
productions that cells name, and tells of the symbols on its stack.  All of these are in range,
whatever terminals are parsed.  Only the terminals themselves may be foreign to the grammar, and
then they have no name to be told by.
-/

namespace Predictive

section

variable {Item Value Result : Type}

/-- What is looked up after something else is found if both are. -/
theorem exists_bind {value? : Option Value} {next? : Value → Option Result}
    (hvalue : ∃ value, value? = some value)
    (hnext : ∀ value, value? = some value → ∃ result, next? value = some result) :
    ∃ result, value? >>= next? = some result := by
  obtain ⟨value, rfl⟩ := hvalue
  exact hnext value rfl

theorem exists_mapM {value? : Item → Option Value} {items : List Item}
    (hvalue : ∀ item ∈ items, ∃ value, value? item = some value) :
    ∃ values, items.mapM value? = some values := by
  induction items with
  | nil => exact ⟨[], rfl⟩
  | cons first rest ih =>
      obtain ⟨hfirst, hrest⟩ := List.forall_mem_cons.mp hvalue
      rw [List.mapM_cons]
      exact exists_bind hfirst fun _ _ => exists_bind (ih hrest) fun _ _ => ⟨_, rfl⟩

end

namespace Grammar

variable {grammar : Grammar}

theorem exists_nameOf? {symbol : Symbol} (hsymbol : symbol.InRange grammar) :
    ∃ name, grammar.nameOf? symbol = some name := by
  cases symbol with
  | terminal t => exact ⟨_, List.getElem?_eq_getElem hsymbol⟩
  | nonterminal n => exact ⟨_, List.getElem?_eq_getElem hsymbol⟩
  | epsilon => exact ⟨_, rfl⟩
  | endMarker => exact ⟨_, rfl⟩

theorem exists_name_nonterminal {n : NonTerminal} (hn : n.index < grammar.numNonterminals) :
    ∃ name, grammar.nameOf? (.nonterminal n) = some name :=
  exists_nameOf? hn

theorem exists_describe? (hwell : grammar.WellFormed) {id : ProductionId}
    (hid : id.index < grammar.productions.length) : ∃ line, grammar.describe? id = some line := by
  refine exists_bind ⟨_, List.getElem?_eq_getElem hid⟩ fun production hproduction => ?_
  have hrange := hwell.inRange_production (List.mem_of_getElem? hproduction)
  refine exists_bind (exists_name_nonterminal hrange.lhs) fun lhs _ => ?_
  refine exists_bind ?_ fun rhs _ => ⟨_, rfl⟩
  obtain ⟨names, hnames⟩ := exists_mapM fun symbol hmem => exists_nameOf? (hrange.rhs symbol hmem)
  exact ⟨_, congrArg (Option.map _) hnames⟩

theorem exists_nullableEntries? (hwell : grammar.WellFormed) :
    ∃ entries, grammar.nullableEntries? = some entries := by
  obtain ⟨saturation, hsaturation, _⟩ := Nullable.saturation?_exact hwell
  obtain ⟨_, hchanges⟩ := Nullable.saturation?_inRange hwell hsaturation
  refine exists_bind ⟨saturation, hsaturation⟩ fun found hfound => ?_
  obtain rfl := Option.some.inj (hsaturation.symm.trans hfound)
  refine exists_bind (exists_mapM fun n hn => ?_) fun _ _ => ⟨_, rfl⟩
  exact exists_bind (exists_name_nonterminal (hchanges n hn)) fun _ _ => ⟨_, rfl⟩

theorem exists_growthEntries? {State : Type} {saturation : Saturation State Growth}
    (hchanges : ∀ growth ∈ saturation.changes,
      growth.nonterminal.index < grammar.numNonterminals) (kind members : String) :
    ∃ entries, grammar.growthEntries? kind members saturation = some entries := by
  refine exists_bind (exists_mapM fun growth hgrowth => ?_) fun _ _ => ⟨_, rfl⟩
  exact exists_bind (exists_name_nonterminal (hchanges growth hgrowth)) fun _ _ => ⟨_, rfl⟩

theorem exists_tableEntries? (hwell : grammar.WellFormed) {table : Table}
    (hwithin : table.Within grammar.Fills) :
    ∃ entries, grammar.tableEntries? table = some entries := by
  refine exists_bind (exists_mapM fun conflict hconflict => ?_) fun _ _ => ⟨_, rfl⟩
  obtain ⟨⟨hrow, hcolumn, hlosing, _⟩, _, _, hwinning, _⟩ :=
    hwithin.conflicts conflict hconflict
  refine exists_bind (exists_name_nonterminal hrow) fun _ _ => ?_
  refine exists_bind (exists_nameOf? hcolumn) fun _ _ => ?_
  refine exists_bind (exists_describe? hwell hlosing) fun _ _ => ?_
  exact exists_bind (exists_describe? hwell hwinning) fun _ _ => ⟨_, rfl⟩

/-- The symbol on top and the lookahead are named where there are any. -/
theorem exists_stepEntry? {trace : Trace} {step : Step}
    (hstack : ∃ top, step.stack.head? = some top)
    (hlookahead : ∃ lookahead, trace.input[step.position]? = some lookahead)
    (hsymbols : ∀ symbol ∈ step.stack, symbol.InRange grammar)
    (hinput : ∀ lookahead ∈ trace.input, lookahead.symbol.InRange grammar) :
    ∃ entry, grammar.stepEntry? trace step = some entry := by
  have hlooked : ∃ entry, (do
      let top ← grammar.nameOf? (← step.stack.head?)
      let lookahead ← grammar.nameOf? (← trace.input[step.position]?).symbol
      return some (⟨.trace, s!"stack top {top}, lookahead {lookahead}"⟩ : Entry)) =
        some entry := by
    refine exists_bind hstack fun top htop => ?_
    refine exists_bind (exists_nameOf? (hsymbols top (List.mem_of_head? htop))) fun _ _ => ?_
    refine exists_bind hlookahead fun lookahead hfound => ?_
    exact exists_bind (exists_nameOf? (hinput lookahead (List.mem_of_getElem? hfound)))
      fun _ _ => ⟨_, rfl⟩
  unfold stepEntry?
  cases step.action with
  | accept => exact ⟨none, rfl⟩
  | reject => exact ⟨none, rfl⟩
  | stepBoundExceeded => exact ⟨none, rfl⟩
  | consume => exact hlooked
  | expand => exact hlooked
  | mismatch => exact hlooked
  | noRule => exact hlooked

end Grammar

namespace Parser

variable {parser : Parser} {trace : Trace} {first second last : Configuration}

theorem Goes.exists_stepEntry? {action : Action}
    (hgoes : parser.Goes trace.input first action second)
    (hsymbols : ∀ symbol ∈ first.stack, symbol.InRange parser.grammar)
    (hinput : ∀ lookahead ∈ trace.input, lookahead.symbol.InRange parser.grammar) :
    ∃ entry, parser.grammar.stepEntry? trace (first.step action) = some entry := by
  cases hgoes with
  | expand hlookahead =>
      exact Grammar.exists_stepEntry? ⟨_, rfl⟩ ⟨_, hlookahead⟩ hsymbols hinput
  | consume hlookahead =>
      exact Grammar.exists_stepEntry? ⟨_, rfl⟩ ⟨_, hlookahead⟩ hsymbols hinput

theorem Stops.exists_stepEntry? {ending : Ending} (hstops : parser.Stops trace.input last ending)
    (hsymbols : ∀ symbol ∈ last.stack, symbol.InRange parser.grammar)
    (hinput : ∀ lookahead ∈ trace.input, lookahead.symbol.InRange parser.grammar) :
    ∃ entry, parser.grammar.stepEntry? trace (last.step ending.action) = some entry := by
  cases hstops with
  | endOfStack position =>
      unfold Predictive.endOfStack
      split
      · exact ⟨none, rfl⟩
      · exact ⟨none, rfl⟩
  | inputExhausted => exact ⟨none, rfl⟩
  | noRule hlookahead =>
      exact Grammar.exists_stepEntry? ⟨_, rfl⟩ ⟨_, hlookahead⟩ hsymbols hinput
  | mismatch hlookahead =>
      exact Grammar.exists_stepEntry? ⟨_, rfl⟩ ⟨_, hlookahead⟩ hsymbols hinput

theorem Moves.exists_stepEntry? {steps : List Step}
    (hmoves : parser.Moves trace.input first steps last)
    (hsymbols : ∀ step ∈ steps, ∀ symbol ∈ step.stack, symbol.InRange parser.grammar)
    (hinput : ∀ lookahead ∈ trace.input, lookahead.symbol.InRange parser.grammar) :
    ∀ step ∈ steps, ∃ entry, parser.grammar.stepEntry? trace step = some entry := by
  induction hmoves with
  | refl => exact List.forall_mem_nil _
  | head hgoes _ ih =>
      obtain ⟨hfirst, hrest⟩ := List.forall_mem_cons.mp hsymbols
      exact List.forall_mem_cons.mpr ⟨hgoes.exists_stepEntry? hfirst hinput, ih hrest⟩

/-- The end of input lies at the bottom, and above it symbols of the grammar. -/
theorem inRange_of_grounded {grammar : Grammar} {terminals : List Terminal}
    {configuration : Configuration} (hgrounded : configuration.Grounded grammar terminals) :
    ∀ symbol ∈ configuration.stack, symbol.InRange grammar := by
  rcases hgrounded with ⟨above, hstack, _, hdeclared⟩ | ⟨hstack, _⟩
  · rw [hstack]
    exact List.forall_mem_append.mpr
      ⟨fun symbol hsymbol => (hdeclared symbol hsymbol).inRange, by simp [Symbol.InRange]⟩
  · rw [hstack]
    exact List.forall_mem_nil _

/-- A parse comes to an outcome whatever the terminals are.  Its steps are told of if the
terminals are those of the grammar. -/
theorem exists_parse?_inRange (hwell : parser.grammar.WellFormed)
    (hrange : parser.table.InRange parser.grammar) (terminals : List Terminal) :
    ∃ outcome, parser.parse? terminals = some outcome ∧
      (∀ step ∈ outcome.trace.steps, ∀ symbol ∈ step.stack, symbol.InRange parser.grammar) ∧
      ((∀ t ∈ terminals, t.index < parser.grammar.numTerminals) →
        ∃ entries, parser.grammar.parseEntries? outcome = some entries) := by
  obtain ⟨steps, last, ending, hmoves, hparse, hend⟩ := exists_parse? hrange terminals
  have hsymbols : ∀ step ∈ steps ++ [last.step ending.action],
      ∀ symbol ∈ step.stack, symbol.InRange parser.grammar :=
    fun step hstep => inRange_of_grounded
      (hmoves.grounded_of_mem hwell (grounded_initial hwell terminals) hstep)
  refine ⟨_, hparse, hsymbols, fun hterminals => ?_⟩
  have hinput : ∀ lookahead ∈ inputOf terminals, lookahead.symbol.InRange parser.grammar := by
    refine List.forall_mem_append.mpr ⟨?_, by simp [Symbol.InRange, Lookahead.symbol]⟩
    exact List.forall_mem_map.mpr hterminals
  obtain ⟨hbefore, hlast⟩ := List.forall_mem_append.mp hsymbols
  refine exists_bind (exists_mapM (List.forall_mem_append.mpr ⟨?_, ?_⟩)) fun _ _ => ⟨_, rfl⟩
  · exact hmoves.exists_stepEntry? hbefore hinput
  · refine List.forall_mem_singleton.mpr ?_
    rcases hend with ⟨hstops, _⟩ | ⟨rfl, _⟩
    · exact hstops.exists_stepEntry? (List.forall_mem_singleton.mp hlast) hinput
    · exact ⟨none, rfl⟩

end Parser

namespace Analysis

/-- All indices in the analysis are those of something in its grammar. -/
structure InRange (analysis : Analysis) : Prop where
  start : analysis.grammar.start.index < analysis.grammar.numNonterminals
  productions : ∀ production ∈ analysis.grammar.productions, production.InRange analysis.grammar
  nullable : analysis.nullable.InRange analysis.grammar
  firstNullable : analysis.first.nullable.InRange analysis.grammar
  first : Family.InRange analysis.first.sets Symbol.terminal analysis.grammar
  follow : Family.InRange analysis.follow.sets Lookahead.symbol analysis.grammar
  table : analysis.table.Within analysis.grammar.Fills

/-- The journal tells of all that the phases find. -/
theorem exists_entries? {analysis : Analysis} (hwell : analysis.grammar.WellFormed)
    (hnullable : analysis.nullable.Exact analysis.grammar)
    (hfirst : analysis.first.Exact analysis.grammar)
    (hwithin : analysis.table.Within analysis.grammar.Fills) :
    ∃ entries, analysis.entries? = some entries := by
  obtain ⟨firsts, hfirsts, _⟩ := FirstSets.saturation?_exact hwell hnullable
  obtain ⟨follows, hfollows, _⟩ := FollowSets.saturation?_exact hwell hfirst
  refine exists_bind (Grammar.exists_nullableEntries? hwell) fun _ _ => ?_
  refine exists_bind ⟨firsts, hfirsts⟩ fun _ hfound => ?_
  have hgrown := (FirstSets.saturation?_inRange hwell hfound).2
  refine exists_bind (Grammar.exists_growthEntries? hgrown _ _) fun _ _ => ?_
  refine exists_bind ⟨follows, hfollows⟩ fun _ hfound => ?_
  have hgrown := (FollowSets.saturation?_inRange hwell hfound).2
  refine exists_bind (Grammar.exists_growthEntries? hgrown _ _) fun _ _ => ?_
  exact exists_bind (Grammar.exists_tableEntries? hwell hwithin) fun _ _ => ⟨_, rfl⟩

variable {grammar : Grammar}

/-- A finished grammar has an analysis, and all indices in it are in range.  So its journal and
its classes are complete, and every parse comes to an outcome, with symbols of the grammar on
the stack.  The journal of a parse is complete if the terminals are those of the grammar. -/
theorem indices_inRange (hfinished : grammar.Finished) (policy : ConflictPolicy) :
    ∃ analysis, ofGrammar? grammar policy = some analysis ∧ analysis.grammar = grammar ∧
      analysis.InRange ∧
      (∃ entries, analysis.entries? = some entries) ∧
      (∃ classification, analysis.classification? = some classification) ∧
      ∀ limit terminals, ∃ outcome, (analysis.parser limit).parse? terminals = some outcome ∧
        (∀ step ∈ outcome.trace.steps, ∀ symbol ∈ step.stack, symbol.InRange grammar) ∧
        ((∀ t ∈ terminals, t.index < grammar.numTerminals) →
          ∃ entries, grammar.parseEntries? outcome = some entries) := by
  have hwell := hfinished.wellFormed
  obtain ⟨nullable, first, follow, hnullable, hfirst, hfollow, hnullableExact, hfirstExact,
    hfollowExact⟩ := exists_exact_sets hwell
  obtain ⟨claims, hclaims, hclaimed⟩ := Table.claims?_eq hwell hfirstExact hfollowExact
  have hwithin := hclaimed.within_fills hwell policy
  have hsound := @Table.Claimed.sound grammar claims policy hclaimed hwell
  refine ⟨⟨grammar, nullable, first, follow, claims.foldl Table.claim (.empty policy)⟩, ?_, rfl,
    ?_, ?_, ?_, ?_⟩
  · simp [ofGrammar?, hnullable, hfirst, hfollow, Table.ofGrammar?, hclaims]
  · have hshared : first.nullable = nullable := by
      obtain ⟨_, _, rfl⟩ := Option.map_eq_some_iff.mp hfirst
      rfl
    have hnullableRange := Nullable.ofGrammar?_inRange hwell hnullable
    exact {
      start := hwell.declares_start
      productions := fun production hmem => hwell.inRange_production hmem
      nullable := hnullableRange
      firstNullable := hshared ▸ hnullableRange
      first := FirstSets.ofGrammar?_inRange hwell hfirst hfirstExact
      follow := FollowSets.ofGrammar?_inRange hwell hfollow hfollowExact
      table := hwithin }
  · exact exists_entries? hwell hnullableExact hfirstExact hwithin
  · obtain ⟨classification, hclassification, _⟩ := Classification.ofTable?_exact hwell
      fun conflict hconflict => (hwithin.conflicts conflict hconflict).1.1
    exact ⟨classification, hclassification⟩
  · exact fun limit terminals => Parser.exists_parse?_inRange hwell hsound.inRange terminals

/-- The conflict of C is told of.  A terminal that the grammar does not have is rejected, but
the step has no entry. -/
theorem indices_inRange_chainToConflict :
    Grammar.chainToConflict.Finished ∧
    ∀ policy, ∃ analysis, ofGrammar? .chainToConflict policy = some analysis ∧
      analysis.InRange ∧ analysis.table.conflicts.length = 1 ∧
      (∃ entries, analysis.entries? = some entries) ∧
      ∃ outcome, (analysis.parser .auto).parse? [⟨99⟩] = some outcome ∧
        outcome.verdict = .rejected (.noRule ⟨0⟩ (.terminal ⟨99⟩)) 0 ∧
        Grammar.chainToConflict.parseEntries? outcome = none := by
  refine ⟨Grammar.finished_chainToConflict, fun policy => ?_⟩
  obtain ⟨analysis, hanalysis, _, hrange, hentries, _, hparses⟩ :=
    indices_inRange Grammar.finished_chainToConflict policy
  obtain ⟨outcome, hparse, _⟩ := hparses .auto [⟨99⟩]
  have hknown : ((ofGrammar? .chainToConflict policy).bind fun known =>
      ((known.parser .auto).parse? [⟨99⟩]).map fun outcome =>
        (known.table.conflicts.length, outcome.verdict,
          Grammar.chainToConflict.parseEntries? outcome)) =
      some (1, .rejected (.noRule ⟨0⟩ (.terminal ⟨99⟩)) 0, none) := by
    cases policy with
    | lastWins => decide +kernel
    | firstWins => decide +kernel
  rw [hanalysis, Option.bind_some, hparse, Option.map_some, Option.some.injEq, Prod.mk.injEq,
    Prod.mk.injEq] at hknown
  obtain ⟨hconflicts, hverdict, hnone⟩ := hknown
  exact ⟨analysis, hanalysis, hrange, hconflicts, hentries, outcome, hparse, hverdict, hnone⟩

end Analysis

end Predictive
