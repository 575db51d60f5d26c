import Predictive.Proofs.LeftmostTrace
import Predictive.Proofs.LinearRun

/-!
The language of a parser without conflicts.  The machine follows every leftmost
derivation of its input, since the production that the derivation applies next is
predicted under the lookahead, and accepts.  An input that it accepts is derived by
its trace.  Every other input is rejected, since no run goes on for ever.
-/

namespace Predictive

variable {grammar : Grammar} {ids : List ProductionId} {symbols : List Symbol}
  {terminals : List Terminal}

/-- What is still to be spelled is begun by the lookahead. -/
theorem Grammar.Spells.begins_bottom {before : List Terminal} {lookahead : Lookahead}
    (hspells : grammar.Spells ids symbols terminals)
    (hlookahead : (Parser.inputOf (before ++ terminals))[before.length]? = some lookahead) :
    grammar.Begins lookahead (symbols ++ [.endMarker]) := by
  rcases Parser.inputOf_eq_some_iff.mp hlookahead with ⟨t, ht, rfl⟩ | ⟨hlength, rfl⟩
  · cases terminals with
    | nil => simp at ht
    | cons t' rest =>
        obtain rfl : t' = t := by simpa using ht
        exact hspells.begins.append_right _
  · obtain rfl : terminals = [] := by simpa using hlength
    exact hspells.erasable.begins_append (Begins.symbol [])

namespace Parser

variable {parser : Parser}

/-- The machine follows a leftmost derivation of what is left of the input. -/
theorem Ll1.spells_moves (hll1 : parser.Ll1)
    (hspells : parser.grammar.Spells ids symbols terminals)
    (hfollowed : parser.grammar.Followed (symbols ++ [.endMarker])) (before : List Terminal) :
    ∃ steps, parser.Moves (inputOf (before ++ terminals))
        ⟨symbols ++ [.endMarker], before.length⟩ steps
        ⟨[.endMarker], (before ++ terminals).length⟩ ∧
      (⟨inputOf (before ++ terminals), steps⟩ : Trace).applied = ids := by
  induction hspells generalizing before with
  | nil =>
      rw [List.append_nil]
      exact ⟨[], Moves.refl _, rfl⟩
  | @terminal ids rest terminals t hrest ih =>
      have hlookahead : (inputOf (before ++ t :: terminals))[before.length]? =
          some (.terminal t) :=
        inputOf_eq_some_iff.mpr (Or.inl ⟨t, by simp, rfl⟩)
      obtain ⟨steps, hmoves, happlied⟩ := ih hfollowed.tail (before ++ [t])
      rw [← List.append_cons, List.length_append] at hmoves
      exact ⟨_, Moves.head (Goes.consume hlookahead _) hmoves, happlied⟩
  | @expand id ids production rest terminals hproduction hrest ih =>
      obtain rfl := hll1.wellFormed.id_production? id production hproduction
      have hmem := List.mem_of_getElem? hproduction
      have hlt : before.length < (inputOf (before ++ terminals)).length := by
        simp [inputOf]
      have hlookahead := List.getElem?_eq_getElem hlt
      have hbegins := hrest.begins_bottom hlookahead
      rw [List.append_assoc] at hbegins
      have hgoes := hll1.goes_expand hmem (hfollowed.predicts hbegins) hlookahead
        (rest ++ [.endMarker])
      have hnext : parser.grammar.Followed (production.symbols ++ (rest ++ [.endMarker])) :=
        hfollowed.expand hmem
      rw [← List.append_assoc] at hnext
      obtain ⟨steps, hmoves, happlied⟩ := ih hnext before
      rw [List.append_assoc] at hmoves
      exact ⟨_, Moves.head hgoes hmoves, congrArg (production.id :: ·) happlied⟩

/-- A derived input leads to acceptance, by as many steps as there are productions in
the derivation and lookaheads in the input. -/
theorem Ll1.accepting_moves (hll1 : parser.Ll1)
    (hspells : parser.grammar.Spells ids [.nonterminal parser.grammar.start] terminals) :
    ∃ steps, parser.Moves (inputOf terminals) parser.initial steps
        ⟨[], terminals.length + 1⟩ ∧
      (⟨inputOf terminals, steps⟩ : Trace).applied = ids ∧
      steps.length = ids.length + terminals.length + 1 ∧
      parser.Stops (inputOf terminals) ⟨[], terminals.length + 1⟩ .accepted := by
  obtain ⟨steps, hmoves, happlied⟩ := hll1.spells_moves hspells Grammar.followed_start []
  simp only [List.nil_append, List.length_nil] at hmoves happlied
  have hend : (inputOf terminals)[terminals.length]? = some .endMarker :=
    inputOf_eq_some_iff.mpr (Or.inr ⟨rfl, rfl⟩)
  have hwhole := hmoves.trans (Moves.single (Goes.consume hend []))
  have hids : (⟨inputOf terminals, steps ++
      [Configuration.step ⟨[.endMarker], terminals.length⟩ .consume]⟩ : Trace).applied = ids := by
    rw [Trace.applied_append, happlied]
    exact List.append_nil ids
  refine ⟨_, hwhole, hids, ?_, stops_accepted_iff.mpr ⟨rfl, by simp [inputOf]⟩⟩
  have hlength := hwhole.length_eq
  have hposition := hwhole.position_eq
  rw [hids] at hlength
  simp only at hposition
  omega

/-- The productions of an accepted run are a leftmost derivation of the input, conflicts or
no conflicts. -/
theorem Moves.derivesLeftmost (hwell : parser.grammar.WellFormed)
    (hsound : parser.table.Sound parser.grammar) {steps : List Step} {last : Configuration}
    (hmoves : parser.Moves (inputOf terminals) parser.initial steps last)
    (hstops : parser.Stops (inputOf terminals) last .accepted) :
    parser.grammar.DerivesLeftmost (⟨inputOf terminals, steps⟩ : Trace).applied
      [.nonterminal parser.grammar.start] (sentence terminals) := by
  obtain ⟨hstack, _⟩ := stops_accepted_iff.mp hstops
  rcases hmoves.simulates hwell hsound (simulates_initial hwell) with
    ⟨above, habove, _⟩ | ⟨_, _, hderives⟩
  · simp [hstack] at habove
  · exact hderives

theorem Moves.generates (hwell : parser.grammar.WellFormed)
    (hsound : parser.table.Sound parser.grammar) {steps : List Step} {last : Configuration}
    (hmoves : parser.Moves (inputOf terminals) parser.initial steps last)
    (hstops : parser.Stops (inputOf terminals) last .accepted) :
    parser.grammar.Generates terminals :=
  (hmoves.derivesLeftmost hwell hsound hstops).derives

theorem generates_of_accepted (hwell : parser.grammar.WellFormed)
    (hsound : parser.table.Sound parser.grammar) {outcome : Outcome}
    (hparse : parser.parse? terminals = some outcome) (hverdict : outcome.verdict = .accepted) :
    parser.grammar.Generates terminals := by
  obtain ⟨steps, last, ending, hmoves, hresult, hend⟩ := parse?_eq hsound terminals
  obtain rfl := Option.some.inj (hparse.symm.trans hresult)
  obtain rfl := Ending.verdict_eq_accepted_iff.mp hverdict
  exact hmoves.generates hwell hsound (hend.resolve_left (by simp))

/-- A derived input is accepted, unless the limit is less than the number of productions
and lookaheads. -/
theorem Ll1.exists_parse?_of_spells (hll1 : parser.Ll1)
    (hspells : parser.grammar.Spells ids [.nonterminal parser.grammar.start] terminals) :
    ∃ outcome, parser.parse? terminals = some outcome ∧
      outcome.verdict =
        if ids.length + terminals.length + 1 ≤ parser.maxSteps terminals.length then .accepted
        else .stepBoundExceeded (parser.maxSteps terminals.length)
          (parser.maxSteps terminals.length) := by
  obtain ⟨steps, hmoves, _, hlength, hstops⟩ := hll1.accepting_moves hspells
  rw [← hlength]
  by_cases hbound : steps.length ≤ parser.maxSteps terminals.length
  · rw [if_pos hbound]
    refine ⟨_, parse?_of_stops hmoves hstops ?_, rfl⟩
    rcases Nat.lt_or_eq_of_le hbound with hlt | heq
    · exact Or.inl hlt
    · exact Or.inr ⟨heq, rfl⟩
  · rw [if_neg hbound]
    obtain ⟨middle, hparse⟩ := parse?_of_lt hmoves (Nat.lt_of_not_le hbound)
    exact ⟨_, hparse, rfl⟩

/-- An input that is not derived is rejected, unless the limit cuts the run off. -/
theorem exists_parse?_of_not_generates (hwell : parser.grammar.WellFormed)
    (hsound : parser.table.Sound parser.grammar)
    (hnot : ¬ parser.grammar.Generates terminals) :
    ∃ outcome, parser.parse? terminals = some outcome ∧
      ((∃ reason step, outcome.verdict = .rejected reason step) ∨
        outcome.verdict = .stepBoundExceeded (parser.maxSteps terminals.length)
          (parser.maxSteps terminals.length)) := by
  obtain ⟨steps, last, ending, hmoves, hparse, hend⟩ := parse?_eq hsound terminals
  refine ⟨_, hparse, ?_⟩
  rcases hend with ⟨rfl, hlength⟩ | hstops
  · exact Or.inr (congrArg _ hlength)
  · cases ending with
    | accepted => exact absurd (hmoves.generates hwell hsound hstops) hnot
    | rejected reason => exact Or.inl ⟨reason, steps.length, rfl⟩
    | stepBoundExceeded => exact absurd rfl hstops.ne_stepBoundExceeded

/-- Under a limit that no run reaches, exactly what is derived is accepted, and all else
is rejected. -/
theorem Ll1.decides_of_lt (hll1 : parser.Ll1) {cost : Nat}
    (hcost : parser.grammar.ErasesWithin cost)
    (hlimit : (terminals.length + 1) * phase parser.grammar cost + 2 * cost <
      parser.maxSteps terminals.length) :
    ∃ outcome, parser.parse? terminals = some outcome ∧
      (parser.grammar.Generates terminals → outcome.verdict = .accepted) ∧
      (¬ parser.grammar.Generates terminals →
        ∃ reason step, outcome.verdict = .rejected reason step) := by
  obtain ⟨outcome, hparse, _, hverdict⟩ := (hll1.haltsWithin_initial hcost terminals).exists_parse?
  have hwithin := hverdict hlimit
  refine ⟨outcome, hparse, ?_, ?_⟩
  · intro hgenerates
    obtain ⟨ids, hspells⟩ := Grammar.Derives.exists_spells hll1.wellFormed hgenerates
    obtain ⟨outcome', hparse', heq⟩ := hll1.exists_parse?_of_spells hspells
    obtain rfl := Option.some.inj (hparse.symm.trans hparse')
    split at heq
    · exact heq
    · exact absurd heq (hwithin _ _)
  · intro hnot
    obtain ⟨outcome', hparse', hcases⟩ :=
      exists_parse?_of_not_generates hll1.wellFormed hll1.sound hnot
    obtain rfl := Option.some.inj (hparse.symm.trans hparse')
    exact hcases.resolve_right (hwithin _ _)

end Parser

namespace Analysis

/-- Without conflicts, and under any limit that is great enough, the parser accepts the
input if the grammar generates it, and rejects it otherwise. -/
theorem parse?_accepts_iff_generates (hfinished : grammar.Finished) (policy : ConflictPolicy)
    (terminals : List Terminal) :
    ∃ analysis, ofGrammar? grammar policy = some analysis ∧
      (analysis.table.isLl1 = true → ∃ least, ∀ limit ≥ least,
        ∃ outcome, (analysis.parser (.fixed limit)).parse? terminals = some outcome ∧
          (grammar.Generates terminals → outcome.verdict = .accepted) ∧
          (¬ grammar.Generates terminals →
            ∃ reason step, outcome.verdict = .rejected reason step)) := by
  obtain ⟨cost, hcost⟩ := Grammar.exists_erasesWithin hfinished.wellFormed
  obtain ⟨analysis, hanalysis, rfl, hparser⟩ := exists_ll1 hfinished policy
  refine ⟨analysis, hanalysis, ?_⟩
  intro hll1
  refine ⟨(terminals.length + 1) * Parser.phase analysis.grammar cost + 2 * cost + 1, ?_⟩
  intro limit hlimit
  exact (hparser hll1 (.fixed limit)).decides_of_lt hcost hlimit

/-- The grammar of expressions generates i + i. -/
theorem generates_expressions : Grammar.expressions.Generates ([4, 0, 4].map .ofIndex) := by
  have hwell := Grammar.finished_expressions.wellFormed
  obtain ⟨analysis, hanalysis, hgrammar, hsound, _⟩ := ofGrammar?_exact hwell .lastWins
  have hrun : ((ofGrammar? .expressions .lastWins).bind fun known =>
      ((known.parser .auto).parse? ([4, 0, 4].map .ofIndex)).map (·.verdict)) =
        some .accepted := by decide +kernel
  rw [hanalysis, Option.bind_some, Option.map_eq_some_iff] at hrun
  obtain ⟨outcome, hparse, hverdict⟩ := hrun
  rw [← hgrammar] at hwell hsound ⊢
  exact @Parser.generates_of_accepted _ (analysis.parser .auto) hwell hsound _ hparse hverdict

/-- In the grammar of expressions, i + i. -/
theorem parse?_accepts_iff_generates_expressions :
    Grammar.expressions.Finished ∧
    ∃ analysis, ofGrammar? .expressions .firstWins = some analysis ∧
      analysis.table.isLl1 = true ∧
      Grammar.expressions.Generates ([4, 0, 4].map .ofIndex) ∧
      ∃ least, ∀ limit ≥ least, ∃ outcome,
        (analysis.parser (.fixed limit)).parse? ([4, 0, 4].map .ofIndex) = some outcome ∧
        outcome.verdict = .accepted := by
  obtain ⟨analysis, hanalysis, hlanguage⟩ :=
    parse?_accepts_iff_generates Grammar.finished_expressions .firstWins
      ([4, 0, 4].map .ofIndex)
  have hll1 := isLl1_expressions hanalysis
  obtain ⟨least, hleast⟩ := hlanguage hll1
  refine ⟨Grammar.finished_expressions, analysis, hanalysis, hll1, generates_expressions,
    least, ?_⟩
  intro limit hlimit
  obtain ⟨outcome, hparse, haccepts, _⟩ := hleast limit hlimit
  exact ⟨outcome, hparse, haccepts generates_expressions⟩

end Analysis

end Predictive
