import Predictive.Proofs.Language

/-!
Where a parse without conflicts is rejected.  A string admits a row of lookaheads if
it derives one that starts with them, whether or not the rest of that string derives
terminals.  The machine consumes every row that its stack admits, so it stops at the
first lookahead that nothing derived can have there; what it has consumed before is
the beginning of a derived string.
-/

namespace Predictive

namespace Grammar

/-- The string derives one that starts with the lookaheads, the first nonterminal being
expanded every time. -/
inductive Admits (grammar : Grammar) : List Lookahead → List Symbol → Prop where
  | nil (symbols : List Symbol) : grammar.Admits [] symbols
  | symbol {lookaheads : List Lookahead} {rest : List Symbol} (lookahead : Lookahead)
      (hrest : grammar.Admits lookaheads rest) :
      grammar.Admits (lookahead :: lookaheads) (lookahead.symbol :: rest)
  | expand {production : Production} {lookaheads : List Lookahead} {rest : List Symbol}
      (hmem : production ∈ grammar.productions)
      (hrest : grammar.Admits lookaheads (production.symbols ++ rest)) :
      grammar.Admits lookaheads (.nonterminal production.lhs :: rest)

variable {grammar : Grammar} {lookaheads : List Lookahead}

theorem admits_append (lookaheads : List Lookahead) (rest : List Symbol) :
    grammar.Admits lookaheads (lookaheads.map Lookahead.symbol ++ rest) := by
  induction lookaheads with
  | nil => exact Admits.nil rest
  | cons lookahead lookaheads ih => exact Admits.symbol lookahead ih

theorem Admits.begins {lookahead : Lookahead} {symbols : List Symbol}
    (hadmits : grammar.Admits (lookahead :: lookaheads) symbols) :
    grammar.Begins lookahead symbols := by
  generalize hrow : lookahead :: lookaheads = row at hadmits
  induction hadmits with
  | nil => cases hrow
  | @symbol _ rest first _ _ =>
      have hfirst : lookahead = first := (List.cons.inj hrow).1
      exact hfirst ▸ Begins.symbol rest
  | expand hmem _ ih => exact Begins.of_expansion hmem (ih hrow)

/-- A string keeps what it admits when its end is replaced by one that admits more. -/
theorem Admits.replace {left right right' : List Symbol}
    (hadmits : grammar.Admits lookaheads (left ++ right))
    (hreplace : ∀ row, grammar.Admits row right → grammar.Admits row right') :
    grammar.Admits lookaheads (left ++ right') := by
  generalize hwhole : left ++ right = whole at hadmits
  induction hadmits generalizing left with
  | nil => exact Admits.nil _
  | symbol lookahead hrest ih =>
      cases left with
      | nil =>
          have hright : right = lookahead.symbol :: _ := hwhole
          exact hreplace _ (hright ▸ Admits.symbol lookahead hrest)
      | cons symbol left =>
          have hparts := List.cons.inj hwhole
          exact hparts.1 ▸ Admits.symbol lookahead (ih hparts.2)
  | @expand production row rest hmem hrest ih =>
      cases left with
      | nil =>
          have hright : right = .nonterminal production.lhs :: rest := hwhole
          exact hreplace _ (hright ▸ Admits.expand hmem hrest)
      | cons symbol left =>
          have hparts := List.cons.inj hwhole
          have hinner : (production.symbols ++ left) ++ right = production.symbols ++ rest := by
            rw [List.append_assoc]
            exact congrArg (production.symbols ++ ·) hparts.2
          have hreplaced := ih hinner
          rw [List.append_assoc] at hreplaced
          exact hparts.1 ▸ Admits.expand hmem hreplaced

theorem Yields.admits {first second : List Symbol} (hstep : grammar.Yields first second)
    (hadmits : grammar.Admits lookaheads second) : grammar.Admits lookaheads first := by
  obtain ⟨hmem, before, after⟩ := hstep
  rw [List.append_assoc] at hadmits
  exact hadmits.replace fun _ hrow => Admits.expand hmem hrow

/-- Whatever starts a derived string is admitted. -/
theorem Derives.admits {symbols rest : List Symbol}
    (hderives : grammar.Derives symbols (lookaheads.map Lookahead.symbol ++ rest)) :
    grammar.Admits lookaheads symbols := by
  induction hderives using Relation.ReflTransGen.head_induction_on with
  | refl => exact admits_append lookaheads rest
  | head hstep _ ih => exact hstep.admits ih

end Grammar

namespace Parser

variable {parser : Parser} {terminals : List Terminal}

/-- The machine consumes every row of lookaheads that its stack admits. -/
theorem Ll1.admits_moves (hll1 : parser.Ll1) {lookaheads : List Lookahead}
    {symbols : List Symbol} (hadmits : parser.grammar.Admits lookaheads symbols)
    (hfollowed : parser.grammar.Followed symbols) (before after : List Lookahead) :
    ∃ steps last, parser.Moves (before ++ (lookaheads ++ after)) ⟨symbols, before.length⟩
        steps last ∧ last.position = before.length + lookaheads.length := by
  induction hadmits generalizing before with
  | nil symbols => exact ⟨[], _, Moves.refl _, rfl⟩
  | @symbol lookaheads rest lookahead _ ih =>
      have hlookahead : (before ++ (lookahead :: lookaheads ++ after))[before.length]? =
          some lookahead := by simp
      obtain ⟨steps, last, hmoves, hposition⟩ := ih hfollowed.tail (before ++ [lookahead])
      rw [List.append_assoc, List.length_append] at hmoves
      rw [List.length_append] at hposition
      refine ⟨_, last, Moves.head (Goes.consume hlookahead rest) hmoves, ?_⟩
      simp only [List.length_cons, List.length_nil] at hposition ⊢
      omega
  | @expand production lookaheads rest hmem hrest ih =>
      -- Nothing need be expanded once the whole row has been consumed.
      cases lookaheads with
      | nil => exact ⟨[], _, Moves.refl _, rfl⟩
      | cons lookahead lookaheads =>
          have hlookahead : (before ++ (lookahead :: lookaheads ++ after))[before.length]? =
              some lookahead := by simp
          have hpredicts := hfollowed.predicts hrest.begins
          have hgoes := hll1.goes_expand hmem hpredicts hlookahead rest
          obtain ⟨steps, last, hmoves, hposition⟩ := ih (hfollowed.expand hmem) before
          exact ⟨_, last, Moves.head hgoes hmoves, hposition⟩

/-- A run that has come to an end has consumed every row of lookaheads that the start
symbol admits in front of the end of input. -/
theorem Ll1.length_le_position (hll1 : parser.Ll1) {row after : List Lookahead}
    (hinput : inputOf terminals = row ++ after)
    (hadmits : parser.grammar.Admits row [.nonterminal parser.grammar.start, .endMarker])
    {steps : List Step} {last : Configuration} {ending : Ending}
    (hmoves : parser.Moves (inputOf terminals) parser.initial steps last)
    (hstops : parser.Stops (inputOf terminals) last ending) :
    row.length ≤ last.position := by
  obtain ⟨steps', middle, hmoves', hposition⟩ :=
    hll1.admits_moves hadmits Grammar.followed_start [] after
  rw [List.nil_append, ← hinput] at hmoves'
  obtain ⟨rest, _, hrest⟩ := hmoves.exists_rest hstops hmoves'
  have hlater := hrest.position_eq
  rw [List.length_nil, Nat.zero_add] at hposition
  omega

/-- A run is rejected with a stack, in front of the consumed input. -/
theorem Moves.simulates_of_rejected (hwell : parser.grammar.WellFormed)
    (hsound : parser.table.Sound parser.grammar) {steps : List Step} {last : Configuration}
    {reason : RejectReason}
    (hmoves : parser.Moves (inputOf terminals) parser.initial steps last)
    (hstops : parser.Stops (inputOf terminals) last (.rejected reason)) :
    last.position ≤ terminals.length ∧ ∃ rest,
      parser.grammar.Derives [.nonterminal parser.grammar.start]
        (sentence (terminals.take last.position) ++ rest) := by
  rcases hmoves.simulates hwell hsound (simulates_initial hwell) with
    ⟨above, _, hposition, _, hderives⟩ | ⟨hstack, hposition, _⟩
  · exact ⟨hposition, above, hderives.derives⟩
  · have haccepted : parser.Stops (inputOf terminals) last .accepted :=
      stops_accepted_iff.mpr ⟨hstack, by simp [hposition, inputOf]⟩
    have hsame := hstops.move?_eq.symm.trans haccepted.move?_eq
    simp at hsame

/-- The lookaheads up to a position, as symbols. -/
theorem map_symbol_take_inputOf {position : Nat} {lookahead : Lookahead}
    (hposition : position ≤ terminals.length)
    (hlookahead : (inputOf terminals)[position]? = some lookahead) :
    ((inputOf terminals).take (position + 1)).map Lookahead.symbol =
      sentence (terminals.take position) ++ [lookahead.symbol] := by
  have hlength : position ≤ (terminals.map Lookahead.terminal).length := by
    rwa [List.length_map]
  rw [List.take_add_one, hlookahead, inputOf, List.take_append_of_le_length hlength,
    List.map_append, ← List.map_take, List.map_map]
  rfl

end Parser

namespace Analysis

variable {grammar : Grammar}

/-- Without conflicts a parse is rejected at the first lookahead that cannot be continued:
what comes before it begins a string that the start symbol derives, and with the
lookahead it begins no such string, the end of input put behind each. -/
theorem parse?_rejected_at_first_error (hfinished : grammar.Finished) (policy : ConflictPolicy) :
    ∃ analysis, ofGrammar? grammar policy = some analysis ∧
      (analysis.table.isLl1 = true → ∀ limit terminals,
        ∃ outcome, (analysis.parser limit).parse? terminals = some outcome ∧
          ∀ reason count, outcome.verdict = .rejected reason count →
            ∃ step lookahead, outcome.trace.steps[count]? = some step ∧
              (Parser.inputOf terminals)[step.position]? = some lookahead ∧
              (∃ rest, grammar.Derives [.nonterminal grammar.start]
                (sentence (terminals.take step.position) ++ rest)) ∧
              ∀ form, grammar.Derives [.nonterminal grammar.start] form →
                ∀ rest, form ++ [.endMarker] ≠
                  sentence (terminals.take step.position) ++ lookahead.symbol :: rest) := by
  have hwell := hfinished.wellFormed
  obtain ⟨analysis, hanalysis, rfl, hparser⟩ := exists_ll1 hfinished policy
  refine ⟨analysis, hanalysis, ?_⟩
  intro hfree limit terminals
  have hll1 := hparser hfree limit
  obtain ⟨steps, last, ending, hmoves, hparse, hend⟩ := Parser.parse?_eq hll1.sound terminals
  refine ⟨_, hparse, ?_⟩
  intro reason count hverdict
  obtain ⟨rfl, rfl⟩ := Ending.verdict_eq_rejected_iff.mp hverdict
  have hstops := hend.resolve_left (by simp)
  obtain ⟨hposition, hconsumed⟩ := hmoves.simulates_of_rejected hwell hll1.sound hstops
  have hlt : last.position < (Parser.inputOf terminals).length := by
    simpa [Parser.inputOf] using Nat.lt_succ_of_le hposition
  have hlookahead := List.getElem?_eq_getElem hlt
  refine ⟨last.step (Ending.rejected reason).action, _, by simp, hlookahead, hconsumed, ?_⟩
  intro form hderives rest hstart
  -- The machine would have consumed the lookahead.
  have hbottom : analysis.grammar.Derives [.nonterminal analysis.grammar.start, .endMarker]
      (((Parser.inputOf terminals).take (last.position + 1)).map Lookahead.symbol ++ rest) := by
    rw [Parser.map_symbol_take_inputOf hposition hlookahead, List.append_assoc]
    exact hstart ▸ hderives.append_right [.endMarker]
  have hinput := (List.take_append_drop (last.position + 1) (Parser.inputOf terminals)).symm
  have hle := hll1.length_le_position hinput hbottom.admits hmoves hstops
  rw [List.length_take_of_le hlt] at hle
  exact Nat.not_succ_le_self _ hle

/-- In the grammar of expressions, i + * is rejected at the star. -/
theorem parse?_rejected_at_first_error_expressions :
    Grammar.expressions.Finished ∧
    ∃ analysis outcome, ofGrammar? .expressions .lastWins = some analysis ∧
      analysis.table.isLl1 = true ∧
      (analysis.parser .auto).parse? ([4, 0, 1].map .ofIndex) = some outcome ∧
      (∃ reason count, outcome.verdict = .rejected reason count) ∧
      (∃ rest, Grammar.expressions.Derives [.nonterminal Grammar.expressions.start]
        (sentence ([4, 0].map .ofIndex) ++ rest)) ∧
      ∀ form, Grammar.expressions.Derives [.nonterminal Grammar.expressions.start] form →
        ∀ rest, form ++ [.endMarker] ≠
          sentence ([4, 0].map .ofIndex) ++ .terminal (.ofIndex 1) :: rest := by
  obtain ⟨analysis, hanalysis, hrejected⟩ :=
    parse?_rejected_at_first_error Grammar.finished_expressions .lastWins
  have hll1 := isLl1_expressions hanalysis
  obtain ⟨outcome, hparse, herror⟩ := hrejected hll1 .auto ([4, 0, 1].map .ofIndex)
  have hrun : ((ofGrammar? .expressions .lastWins).bind fun known =>
      ((known.parser .auto).parse? ([4, 0, 1].map .ofIndex)).map fun outcome =>
        (outcome.verdict, outcome.trace.steps[7]?.map (·.position))) =
      some (.rejected (.noRule (.ofIndex 2) (.terminal (.ofIndex 1))) 7, some 2) := by
    decide +kernel
  rw [hanalysis, Option.bind_some, hparse, Option.map_some] at hrun
  obtain ⟨hverdict, hplace⟩ := Prod.mk.inj (Option.some.inj hrun)
  obtain ⟨step, lookahead, hstep, hlookahead, hconsumed, hunviable⟩ := herror _ _ hverdict
  rw [hstep, Option.map_some] at hplace
  have hposition := Option.some.inj hplace
  rw [hposition] at hlookahead hconsumed hunviable
  obtain rfl : Lookahead.terminal (.ofIndex 1) = lookahead := Option.some.inj hlookahead
  exact ⟨Grammar.finished_expressions, analysis, outcome, hanalysis, hll1, hparse,
    ⟨_, _, hverdict⟩, hconsumed, hunviable⟩

end Analysis

end Predictive
