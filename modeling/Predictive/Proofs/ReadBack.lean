import Predictive.Interchange.Outcome
import Predictive.Interchange.Prediction
import Predictive.Parse.Parser
import Predictive.Proofs.LastEntry
import Predictive.Proofs.WellFormed

/-!
Results read back from their interchange forms.  Every grammar and every prediction table is
read as it was written, and so is every outcome of a parse, because no position or step
number in it goes beyond the limit.
-/

namespace Predictive

namespace Interchange

/-- The item's interchange form is read as the item. -/
def ReadsBack {α : Type} [Encode α] [Decode α] (item : α) : Prop :=
  decode? (encode item) = some item

section Containers

variable {α : Type} [Encode α] [Decode α]

theorem get?_record {name : String} {fields : List (String × Value)} {item : α}
    (hfield : fields.lookup name = some (encode item)) (hitem : ReadsBack item) :
    (Value.record fields).get? name = some item := by
  rw [Value.get?, Value.field?, hfield, Option.bind_some, hitem]

/-- What is built from a record of two fields is built from their contents. -/
theorem bind_get?_pair {β γ : Type} [Encode β] [Decode β] {first second : String}
    (hnames : first ≠ second) {left : α} {right : β} (hleft : ReadsBack left)
    (hright : ReadsBack right) (build : α → β → γ) :
    ((Value.record [(first, encode left), (second, encode right)]).get? first).bind
      (fun content => ((Value.record [(first, encode left), (second, encode right)]).get?
        second).bind fun other => some (build content other)) =
          some (build left right) := by
  have hfirst : List.lookup first [(first, encode left), (second, encode right)] =
      some (encode left) := List.lookup_cons_self
  have hsecond : List.lookup second [(first, encode left), (second, encode right)] =
      some (encode right) := by
    rw [List.lookup_cons, beq_false_of_ne hnames.symm]
    exact List.lookup_cons_self
  rw [get?_record hfirst hleft, Option.bind_some, get?_record hsecond hright, Option.bind_some]

theorem readsBack_list {items : List α} (hitems : ∀ item ∈ items, ReadsBack item) :
    ReadsBack items :=
  mapM_map_eq_some hitems

theorem readsBack_map {map : Std.ExtTreeMap String α} (hitems : ∀ item : α, ReadsBack item) :
    ReadsBack map := by
  have hentries : (map.toList.map fun entry => (entry.1, encode entry.2)).mapM
      (fun field => (decode? field.2).map fun item => (field.1, item)) = some map.toList := by
    apply mapM_map_eq_some
    intro entry _
    change (decode? (encode entry.2)).map _ = _
    rw [hitems entry.2, Option.map_some]
  have hread := congrArg (Option.bind · fun entries => some (Std.ExtTreeMap.ofList entries))
    hentries
  rw [Option.bind_some, ofList_toList] at hread
  exact hread

end Containers

theorem natural?_encode {n bound : Nat} (hn : n < bound) :
    (encode n).natural? bound = some n :=
  if_pos hn

theorem readsBack_nat {n : Nat} (hn : n < UInt64.size) : ReadsBack n := natural?_encode hn

theorem readsBack_string (text : String) : ReadsBack text := rfl

/-- What is known by a 32-bit number is read back by its number. -/
theorem map_natural?_encode {Key : Type} {index : Key → Nat} {number : Nat → Key} {key : Key}
    (hlt : index key < UInt32.size) (hnumber : number (index key) = key) :
    ((encode (index key)).natural? UInt32.size).map number = some key := by
  rw [natural?_encode hlt, Option.map_some, hnumber]

theorem readsBack_nonTerminal (n : NonTerminal) : ReadsBack n :=
  map_natural?_encode n.index_lt n.ofIndex_index

theorem readsBack_terminal (t : Terminal) : ReadsBack t :=
  map_natural?_encode t.index_lt t.ofIndex_index

theorem readsBack_productionId (id : ProductionId) : ReadsBack id :=
  map_natural?_encode id.index_lt id.ofIndex_index

theorem readsBack_symbol (symbol : Symbol) : ReadsBack symbol := by
  cases symbol with
  | terminal t => exact congrArg (Option.map Symbol.terminal) (readsBack_terminal t)
  | nonterminal n => exact congrArg (Option.map Symbol.nonterminal) (readsBack_nonTerminal n)
  | epsilon => rfl
  | endMarker => rfl

theorem readsBack_lookahead (lookahead : Lookahead) : ReadsBack lookahead := by
  cases lookahead with
  | terminal t => exact congrArg (Option.map Lookahead.terminal) (readsBack_terminal t)
  | endMarker => rfl

theorem readsBack_production (production : Production) : ReadsBack production := by
  have hid : (encode production).get? "id" = some production.id :=
    get?_record rfl (readsBack_productionId _)
  have hlhs : (encode production).get? "lhs" = some production.lhs :=
    get?_record rfl (readsBack_nonTerminal _)
  have hrhs : (encode production).get? "rhs" = some production.rhs :=
    get?_record rfl (readsBack_list fun symbol _ => readsBack_symbol symbol)
  simp only [ReadsBack, decode?, hid, hlhs, hrhs, Option.bind_eq_bind, Option.bind_some,
    Option.pure_def]

theorem readsBack_nameTable (table : NameTable) : ReadsBack table := by
  have hnonterminals : (encode table).get? "nonterminals" = some table.nonterminals :=
    get?_record rfl (readsBack_list fun name _ => readsBack_string name)
  have hterminals : (encode table).get? "terminals" = some table.terminals :=
    get?_record rfl (readsBack_list fun name _ => readsBack_string name)
  have hnonterminalIds : (encode table).get? "nonterminal_ids" = some table.nonterminalIds :=
    get?_record rfl (readsBack_map readsBack_nonTerminal)
  have hterminalIds : (encode table).get? "terminal_ids" = some table.terminalIds :=
    get?_record rfl (readsBack_map readsBack_terminal)
  simp only [ReadsBack, decode?, hnonterminals, hterminals, hnonterminalIds, hterminalIds,
    Option.bind_eq_bind, Option.bind_some, Option.pure_def]

theorem readsBack_grammar (grammar : Grammar) : ReadsBack grammar := by
  have hproductions : (encode grammar).get? "productions" = some grammar.productions :=
    get?_record rfl (readsBack_list fun production _ => readsBack_production production)
  have hnames : (encode grammar).get? "names" = some grammar.names :=
    get?_record rfl (readsBack_nameTable _)
  have hstart : (encode grammar).get? "start" = some grammar.start :=
    get?_record rfl (readsBack_nonTerminal _)
  simp only [ReadsBack, decode?, hproductions, hnames, hstart, Option.bind_eq_bind,
    Option.bind_some, Option.pure_def]

theorem readsBack_conflictPolicy (policy : ConflictPolicy) : ReadsBack policy := by
  cases policy <;> rfl

theorem readsBack_conflict (conflict : Conflict) : ReadsBack conflict := by
  have hnonterminal : (encode conflict).get? "nonterminal" = some conflict.nonterminal :=
    get?_record rfl (readsBack_nonTerminal _)
  have hlookahead : (encode conflict).get? "lookahead" = some conflict.lookahead :=
    get?_record rfl (readsBack_lookahead _)
  have hlosing : (encode conflict).get? "losing" = some conflict.losing :=
    get?_record rfl (readsBack_productionId _)
  have hwinning : (encode conflict).get? "winning" = some conflict.winning :=
    get?_record rfl (readsBack_productionId _)
  simp only [ReadsBack, decode?, hnonterminal, hlookahead, hlosing, hwinning,
    Option.bind_eq_bind, Option.bind_some, Option.pure_def]

theorem readsBack_entry (entry : Cell × ProductionId) : ReadsBack entry := by
  obtain ⟨⟨nonterminal, lookahead⟩, production⟩ := entry
  have hnonterminal := readsBack_nonTerminal nonterminal
  have hlookahead := readsBack_lookahead lookahead
  have hproduction := readsBack_productionId production
  change (decode? (encode nonterminal)).bind _ = _
  rw [hnonterminal, Option.bind_some]
  change (decode? (encode lookahead)).bind _ = _
  rw [hlookahead, Option.bind_some]
  change (decode? (encode production)).bind _ = _
  rw [hproduction, Option.bind_some]
  rfl

/-- The form of a table whose cells are listed as the given entries. -/
def listedTable (entries : List (Cell × ProductionId)) (conflicts : List Conflict)
    (policy : ConflictPolicy) : Value :=
  .record [("map", encode entries), ("conflicts", encode conflicts), ("policy", encode policy)]

/-- Entries in any order are read as the map that is made from them. -/
theorem decode?_listedTable (entries : List (Cell × ProductionId)) (conflicts : List Conflict)
    (policy : ConflictPolicy) :
    decode? (listedTable entries conflicts policy) =
      some (⟨.ofList entries, conflicts, policy⟩ : Table) := by
  have hentries : (listedTable entries conflicts policy).get? "map" = some entries :=
    get?_record rfl (readsBack_list fun entry _ => readsBack_entry entry)
  have hconflicts : (listedTable entries conflicts policy).get? "conflicts" = some conflicts :=
    get?_record rfl (readsBack_list fun conflict _ => readsBack_conflict conflict)
  have hpolicy : (listedTable entries conflicts policy).get? "policy" = some policy :=
    get?_record rfl (readsBack_conflictPolicy policy)
  simp only [decode?, hentries, hconflicts, hpolicy, Option.bind_eq_bind, Option.bind_some,
    Option.pure_def]

theorem readsBack_table (table : Table) : ReadsBack table := by
  have hcells := ofList_toList table.cells
  have hdecoded := decode?_listedTable table.toList table.conflicts table.policy
  change decode? (listedTable table.toList table.conflicts table.policy) = some table
  rw [hdecoded, Table.toList, hcells]

theorem readsBack_action (action : Action) : ReadsBack action := by
  cases action with
  | expand production => exact congrArg (Option.map Action.expand) (readsBack_productionId _)
  | consume => rfl
  | mismatch => rfl
  | noRule => rfl
  | accept => rfl
  | reject => rfl
  | stepBoundExceeded => rfl

theorem readsBack_step {step : Step} (hposition : step.position < UInt64.size) :
    ReadsBack step := by
  have hstack : (encode step).get? "stack" = some step.stack.reverse :=
    get?_record rfl (readsBack_list fun symbol _ => readsBack_symbol symbol)
  have hposition : (encode step).get? "position" = some step.position :=
    get?_record rfl (readsBack_nat hposition)
  have haction : (encode step).get? "action" = some step.action :=
    get?_record rfl (readsBack_action _)
  simp only [ReadsBack, decode?, hstack, hposition, haction, Option.bind_eq_bind,
    Option.bind_some, Option.pure_def, List.reverse_reverse]

theorem readsBack_trace {trace : Trace}
    (hsteps : ∀ step ∈ trace.steps, step.position < UInt64.size) : ReadsBack trace :=
  bind_get?_pair (by decide)
    (readsBack_list fun lookahead _ => readsBack_lookahead lookahead)
    (readsBack_list fun step hstep => readsBack_step (hsteps step hstep)) Trace.mk

theorem readsBack_rejectReason (reason : RejectReason) : ReadsBack reason := by
  cases reason with
  | mismatch expected found =>
      exact bind_get?_pair (by decide) (readsBack_symbol expected) (readsBack_lookahead found)
        RejectReason.mismatch
  | noRule nonterminal lookahead =>
      exact bind_get?_pair (by decide) (readsBack_nonTerminal nonterminal)
        (readsBack_lookahead lookahead) RejectReason.noRule
  | unconsumedInput => rfl
  | inputExhausted => rfl

theorem readsBack_verdict {limit step : Nat} (hlimit : limit < UInt64.size)
    (hstep : step < UInt64.size) (ending : Ending) : ReadsBack (ending.verdict limit step) := by
  cases ending with
  | accepted => rfl
  | rejected reason =>
      exact bind_get?_pair (by decide) (readsBack_rejectReason reason) (readsBack_nat hstep)
        Verdict.rejected
  | stepBoundExceeded =>
      exact bind_get?_pair (by decide) (readsBack_nat hlimit) (readsBack_nat hstep)
        Verdict.stepBoundExceeded

theorem readsBack_outcome {outcome : Outcome} (htrace : ReadsBack outcome.trace)
    (hverdict : ReadsBack outcome.verdict) : ReadsBack outcome :=
  bind_get?_pair (by decide) htrace hverdict Outcome.mk

end Interchange

namespace StepLimit

/-- The limit is a number of 64 bits, as the automatic one always is. -/
def Fits : StepLimit → Prop
  | auto => True
  | fixed transitions => transitions < UInt64.size

theorem Fits.maxSteps_lt {limit : StepLimit} (hfits : limit.Fits)
    (productions inputLength : Nat) : limit.maxSteps productions inputLength < UInt64.size := by
  cases limit with
  | auto => exact Nat.lt_of_le_of_lt (Nat.min_le_right _ _) (Nat.sub_lt (by decide) (by decide))
  | fixed transitions => exact hfits

end StepLimit

namespace Parser

variable {parser : Parser} {input : List Lookahead}

/-- No move consumes more than one lookahead. -/
theorem position_le_of_move? {configuration next : Configuration} {action : Action}
    (hmove : parser.move? input configuration = some (.go action next)) :
    next.position ≤ configuration.position + 1 := by
  unfold move? at hmove
  split at hmove
  · cases hmove
  · split at hmove
    · cases hmove
    · split at hmove
      · split at hmove
        · cases hmove
        · obtain ⟨production, _, hgo⟩ := Option.map_eq_some_iff.mp hmove
          cases hgo
          exact Nat.le_succ _
      · split at hmove
        · cases hmove
          exact Nat.le_refl _
        · cases hmove

/-- A run records at most one step more than it may make moves, and no position beyond what
it can come to. -/
theorem run?_le {bound most : Nat} {configuration : Configuration} {past steps : List Step}
    {ending : Ending} (hrun : parser.run? input bound configuration past = some (steps, ending))
    (hmost : configuration.position + bound ≤ most)
    (hpast : ∀ step ∈ past, step.position ≤ most) :
    (∀ step ∈ steps, step.position ≤ most) ∧ steps.length ≤ past.length + bound + 1 := by
  -- `most` is the same all the way: a move adds at most one to the position and takes one
  -- from the bound.
  induction bound generalizing configuration past with
  | zero =>
      simp only [run?, Option.some.injEq, Prod.mk.injEq] at hrun
      obtain ⟨rfl, _⟩ := hrun
      exact ⟨List.forall_mem_cons.mpr ⟨hmost, hpast⟩, Nat.le_refl _⟩
  | succ bound ih =>
      have hhere : configuration.position ≤ most := by omega
      rw [run?] at hrun
      split at hrun
      · cases hrun
      · simp only [Option.some.injEq, Prod.mk.injEq] at hrun
        obtain ⟨rfl, _⟩ := hrun
        exact ⟨List.forall_mem_cons.mpr ⟨hhere, hpast⟩, by simp⟩
      · rename_i action next hmove
        have hnext := position_le_of_move? hmove
        obtain ⟨hpositions, hlength⟩ := ih hrun (by omega)
          (List.forall_mem_cons.mpr ⟨hhere, hpast⟩)
        refine ⟨hpositions, ?_⟩
        rw [List.length_cons] at hlength
        omega

/-- The outcome of every parse reads back. -/
theorem readsBack_of_parse? (hfits : parser.limit.Fits) {terminals : List Terminal}
    {outcome : Outcome} (hparse : parser.parse? terminals = some outcome) :
    Interchange.ReadsBack outcome := by
  have hlimit := hfits.maxSteps_lt parser.grammar.productions.length terminals.length
  obtain ⟨⟨past, ending⟩, hrun, houtcome⟩ := Option.bind_eq_some_iff.mp hparse
  cases houtcome
  obtain ⟨hpositions, hlength⟩ := run?_le hrun (Nat.le_of_eq (Nat.zero_add _))
    (List.forall_mem_nil _)
  apply Interchange.readsBack_outcome
  · apply Interchange.readsBack_trace
    intro step hstep
    exact Nat.lt_of_le_of_lt (hpositions step (List.mem_reverse.mp hstep)) hlimit
  · have hlast : past.length - 1 < UInt64.size := by
      rw [List.length_nil, Nat.zero_add] at hlength
      exact Nat.lt_of_le_of_lt (Nat.sub_le_of_le_add hlength) hlimit
    exact Interchange.readsBack_verdict hlimit hlast ending

end Parser

namespace Interchange

/-- Grammars, tables and outcomes are read as they were written.  A table may be written with
its cells in any order: of equal cells the last one counts, and written again the table lists
every cell once, in order. -/
theorem decode?_encode :
    (∀ grammar : Grammar, decode? (encode grammar) = some grammar) ∧
    (∀ table : Table, decode? (encode table) = some table) ∧
    (∀ (parser : Parser) (terminals : List Terminal) (outcome : Outcome), parser.limit.Fits →
      parser.parse? terminals = some outcome → decode? (encode outcome) = some outcome) ∧
    ∀ (entries : List (Cell × ProductionId)) (conflicts : List Conflict)
      (policy : ConflictPolicy), ∃ table : Table,
        decode? (listedTable entries conflicts policy) = some table ∧
        (∀ n lookahead production, table.get? n lookahead = some production ↔
          LastEntry entries ⟨n, lookahead⟩ production) ∧
        ∃ listed, encode table = listedTable listed conflicts policy ∧
          (listed.Pairwise fun left right => left.1.Precedes right.1) ∧
          ∀ cell production, (cell, production) ∈ listed ↔ LastEntry entries cell production := by
  refine ⟨readsBack_grammar, readsBack_table, ?_, ?_⟩
  · exact fun parser terminals outcome hfits hparse => Parser.readsBack_of_parse? hfits hparse
  · intro entries conflicts policy
    refine ⟨_, decode?_listedTable entries conflicts policy, ?_, _, rfl, ?_, ?_⟩
    · exact fun n lookahead production => getElem?_ofList_eq_some_iff
    · exact Std.ExtTreeMap.ordered_keys_toList.imp Cell.compare_eq_lt_iff.mp
    · intro cell production
      rw [← getElem?_ofList_eq_some_iff]
      exact Std.ExtTreeMap.mem_toList_iff_getElem?_eq_some

/-- A run on i i that finds no rule, and a table with a cell that is listed twice. -/
theorem decode?_encode_expressions :
    (∃ analysis outcome, Analysis.ofGrammar? .expressions .firstWins = some analysis ∧
      (analysis.parser (.fixed 9)).parse? ([4, 4].map .ofIndex) = some outcome ∧
      outcome.verdict = .rejected (.noRule ⟨3⟩ (.terminal ⟨4⟩)) 4 ∧
      decode? (encode outcome) = some outcome) ∧
    ∃ table : Table, decode? (listedTable [(⟨⟨1⟩, .endMarker⟩, ⟨2⟩), (⟨⟨1⟩, .terminal ⟨0⟩⟩, ⟨1⟩),
        (⟨⟨1⟩, .endMarker⟩, ⟨5⟩)] [] .lastWins) = some table ∧
      table.get? ⟨1⟩ .endMarker = some ⟨5⟩ := by
  obtain ⟨_, _, houtcomes, htables⟩ := decode?_encode
  constructor
  · have hrun : ((Analysis.ofGrammar? .expressions .firstWins).bind fun known =>
        (known.parser (.fixed 9)).parse? ([4, 4].map .ofIndex)).map (·.verdict) =
        some (.rejected (.noRule ⟨3⟩ (.terminal ⟨4⟩)) 4) := by decide +kernel
    obtain ⟨outcome, hbind, hverdict⟩ := Option.map_eq_some_iff.mp hrun
    obtain ⟨analysis, hanalysis, hparse⟩ := Option.bind_eq_some_iff.mp hbind
    have hfits : (analysis.parser (.fixed 9)).limit.Fits := by
      change 9 < UInt64.size
      decide
    exact ⟨analysis, outcome, hanalysis, hparse, hverdict, houtcomes _ _ _ hfits hparse⟩
  · obtain ⟨table, hdecoded, hget, _⟩ := htables [(⟨⟨1⟩, .endMarker⟩, ⟨2⟩),
      (⟨⟨1⟩, .terminal ⟨0⟩⟩, ⟨1⟩), (⟨⟨1⟩, .endMarker⟩, ⟨5⟩)] [] .lastWins
    refine ⟨table, hdecoded, (hget _ _ _).mpr ?_⟩
    exact ⟨[(⟨⟨1⟩, .endMarker⟩, ⟨2⟩), (⟨⟨1⟩, .terminal ⟨0⟩⟩, ⟨1⟩)], [], rfl, List.forall_mem_nil _⟩

end Interchange

end Predictive
