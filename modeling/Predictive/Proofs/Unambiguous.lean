import Predictive.Proofs.Language

/-!
Grammars without conflicts are unambiguous.  The machine follows every leftmost
derivation of its input to the same end, and it has no choice on the way, so there is
at most one such derivation; the trace of an accepted parse shows it.
-/

namespace Predictive

namespace Parser

variable {parser : Parser} {terminals : List Terminal}

/-- A string of terminals is derived from the start symbol in one way. -/
theorem Ll1.spells_unique (hll1 : parser.Ll1) {ids ids' : List ProductionId}
    (hspells : parser.grammar.Spells ids [.nonterminal parser.grammar.start] terminals)
    (hspells' : parser.grammar.Spells ids' [.nonterminal parser.grammar.start] terminals) :
    ids = ids' := by
  obtain ⟨steps, hmoves, happlied, _, hstops⟩ := hll1.accepting_moves hspells
  obtain ⟨steps', hmoves', happlied', _, hstops'⟩ := hll1.accepting_moves hspells'
  have hsame : steps = steps' := hmoves.eq_of_stops hstops hmoves' hstops'
  rw [← happlied, ← happlied', hsame]

end Parser

namespace Analysis

variable {grammar : Grammar}

/-- Without conflicts an input has at most one leftmost derivation, and an accepted one
has exactly that of its trace. -/
theorem derivesLeftmost_unique (hfinished : grammar.Finished) (policy : ConflictPolicy) :
    ∃ analysis, ofGrammar? grammar policy = some analysis ∧
      (analysis.table.isLl1 = true → ∀ terminals,
        (∀ ids ids', grammar.DerivesLeftmost ids [.nonterminal grammar.start]
            (sentence terminals) →
          grammar.DerivesLeftmost ids' [.nonterminal grammar.start] (sentence terminals) →
            ids = ids') ∧
        ∀ limit, ∃ outcome, (analysis.parser limit).parse? terminals = some outcome ∧
          (outcome.verdict = .accepted → ∀ ids,
            grammar.DerivesLeftmost ids [.nonterminal grammar.start] (sentence terminals) ↔
              ids = outcome.trace.applied)) := by
  obtain ⟨analysis, hanalysis, rfl, hparser⟩ := exists_ll1 hfinished policy
  refine ⟨analysis, hanalysis, ?_⟩
  intro hfree terminals
  have hunique : ∀ ids ids',
      analysis.grammar.DerivesLeftmost ids [.nonterminal analysis.grammar.start]
        (sentence terminals) →
      analysis.grammar.DerivesLeftmost ids' [.nonterminal analysis.grammar.start]
        (sentence terminals) → ids = ids' :=
    fun _ _ hleft hright => (hparser hfree .auto).spells_unique hleft.spells hright.spells
  refine ⟨hunique, ?_⟩
  intro limit
  have hll1 := hparser hfree limit
  obtain ⟨steps, last, ending, hmoves, hparse, hend⟩ := Parser.parse?_eq hll1.sound terminals
  refine ⟨_, hparse, ?_⟩
  intro hverdict ids
  obtain rfl := Ending.verdict_eq_accepted_iff.mp hverdict
  have hstops := hend.resolve_left (by simp)
  have htrace := hmoves.derivesLeftmost hll1.wellFormed hll1.sound hstops
  rw [Trace.applied_concat_ending]
  constructor
  · intro hderives
    exact hunique ids _ hderives htrace
  · intro hids
    rw [hids]
    exact htrace

/-- In the grammar of expressions, i * i has the derivation of its trace and no other. -/
theorem derivesLeftmost_unique_expressions :
    Grammar.expressions.Finished ∧
    ∃ analysis outcome, ofGrammar? .expressions .firstWins = some analysis ∧
      analysis.table.isLl1 = true ∧
      (analysis.parser .auto).parse? ([4, 1, 4].map .ofIndex) = some outcome ∧
      outcome.verdict = .accepted ∧
      ∀ ids, Grammar.expressions.DerivesLeftmost ids
          [.nonterminal Grammar.expressions.start] (sentence ([4, 1, 4].map .ofIndex)) ↔
        ids = [0, 3, 7, 4, 7, 5, 2].map .ofIndex := by
  obtain ⟨analysis, hanalysis, hderivations⟩ :=
    derivesLeftmost_unique Grammar.finished_expressions .firstWins
  have hll1 := isLl1_expressions hanalysis
  obtain ⟨outcome, hparse, htrace⟩ :=
    (hderivations hll1 ([4, 1, 4].map .ofIndex)).2 .auto
  have hrun : ((ofGrammar? .expressions .firstWins).bind fun known =>
      ((known.parser .auto).parse? ([4, 1, 4].map .ofIndex)).map fun outcome =>
        (outcome.verdict, outcome.trace.applied)) =
      some (.accepted, [0, 3, 7, 4, 7, 5, 2].map .ofIndex) := by decide +kernel
  rw [hanalysis, Option.bind_some, hparse, Option.map_some] at hrun
  obtain ⟨hverdict, happlied⟩ := Prod.mk.inj (Option.some.inj hrun)
  refine ⟨Grammar.finished_expressions, analysis, outcome, hanalysis, hll1, hparse, hverdict, ?_⟩
  rw [← happlied]
  exact htrace hverdict

end Analysis

end Predictive
