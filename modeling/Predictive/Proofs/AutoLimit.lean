import Predictive.Proofs.Language

/-!
The automatic limit.  It knows the number of productions and the length of the
input, but not how many symbols a right-hand side has nor how deep the erased ones
are nested, so it can cut off a parse without conflicts.  It cuts off a derived input
exactly if the derivation and the input are together too long for it, and it cuts off
nothing where erasing is cheap enough.
-/

namespace Predictive

namespace Grammar

variable {grammar : Grammar}

theorem erasable_replicate {symbol : Symbol} (herasable : grammar.Erasable [symbol])
    (count : Nat) : grammar.Erasable (List.replicate count symbol) := by
  induction count with
  | zero => exact Erasable.nil
  | succ count ih =>
      rw [List.replicate_succ]
      exact erasable_cons_iff.mpr ⟨herasable, ih⟩

/-- What derives the empty string can be erased. -/
theorem erasesWithin_of_derivesLeftmost {cost : Nat} (hwell : grammar.WellFormed)
    (hcost : ∀ n, grammar.Derives [.nonterminal n] [] →
      ∃ ids, grammar.DerivesLeftmost ids [.nonterminal n] [] ∧ ids.length ≤ cost) :
    grammar.ErasesWithin cost := by
  intro n herasable
  obtain ⟨ids, hderives, hle⟩ := hcost n ((erasable_iff_derives hwell).mp herasable)
  exact ⟨ids, DerivesLeftmost.spells hderives, hle⟩

/-- In the grammar of expressions, what can be erased has an empty right-hand side. -/
theorem exists_derivesLeftmost_expressions (n : NonTerminal)
    (hderives : expressions.Derives [.nonterminal n] []) :
    ∃ ids, expressions.DerivesLeftmost ids [.nonterminal n] [] ∧ ids.length ≤ 1 := by
  have hwell := finished_expressions.wellFormed
  obtain ⟨nullable, hnullable, hexact⟩ := Nullable.ofGrammar?_exact hwell
  have herasable := (erasable_iff_derives hwell).mpr hderives
  obtain ⟨erased, herased, rfl, _⟩ := erasable_nonterminal_iff.mp herasable
  have hdeclared := hwell.declares_lhs erased herased
  obtain ⟨answer, hanswer, hiff⟩ := hexact erased.lhs hdeclared
  have hempty : ∀ n ∈ expressions.nonterminals,
      (Nullable.ofGrammar? expressions).bind (·.has? n) = some true →
        ∃ production ∈ expressions.productions,
          production.lhs = n ∧ production.symbols = [] := by decide +kernel
  simp only [hnullable, Option.bind_some] at hempty
  obtain ⟨production, hmem, hsame, hsymbols⟩ :=
    hempty erased.lhs (mem_nonterminals hdeclared) (by rw [hanswer, hiff.mpr herasable])
  have hstep := YieldsLeftmost.step (hwell.production?_id production hmem) [] []
  rw [hsame, hsymbols] at hstep
  exact ⟨[production.id], DerivesLeftmost.head hstep (DerivesLeftmost.refl _), Nat.le_refl 1⟩

/-- Eleven symbols for every symbol, three times over, and then nothing. -/
def nestedErasureRules : Draft := .ofRules
  [("S", [List.replicate 11 "A"]), ("A", [List.replicate 11 "B"]),
    ("B", [List.replicate 11 "C"]), ("C", [[]])]

def nestedErasure : Grammar := nestedErasureRules.resolve "S"

theorem finished_nestedErasure : nestedErasure.Finished where
  finish_eq := ⟨nestedErasureRules, "S", by decide +kernel⟩
  productions_lt := by decide +kernel
  nonterminals_lt := by decide +kernel
  terminals_lt := by decide +kernel

theorem productions_nestedErasure : nestedErasure.productions =
    [⟨⟨0⟩, ⟨0⟩, List.replicate 11 (.nonterminal ⟨1⟩)⟩,
      ⟨⟨1⟩, ⟨1⟩, List.replicate 11 (.nonterminal ⟨2⟩)⟩,
      ⟨⟨2⟩, ⟨2⟩, List.replicate 11 (.nonterminal ⟨3⟩)⟩, ⟨⟨3⟩, ⟨3⟩, [.epsilon]⟩] := by
  decide +kernel

theorem generates_nestedErasure : nestedErasure.Generates [] := by
  have herase : ∀ production ∈ nestedErasure.productions,
      nestedErasure.Erasable production.symbols →
        nestedErasure.Erasable [.nonterminal production.lhs] :=
    fun _ hmem hsymbols => Erasable.cons hmem hsymbols Erasable.nil
  rw [productions_nestedErasure] at herase
  simp only [List.forall_mem_cons] at herase
  obtain ⟨hS, hA, hB, hC, _⟩ := herase
  have hstart := hS (erasable_replicate (hA (erasable_replicate (hB (erasable_replicate
    (hC Erasable.nil) 11)) 11)) 11)
  exact (erasable_iff_derives finished_nestedErasure.wellFormed).mp hstart

end Grammar

namespace Analysis

variable {grammar : Grammar}

/-- Without conflicts and under the automatic limit, a derived input is accepted if its
derivation and its length fit the limit, and cut off otherwise; any other input is
rejected or cut off.  Nothing is cut off where every nonterminal that derives the empty
string does so by few enough productions. -/
theorem parse?_auto (hfinished : grammar.Finished) (policy : ConflictPolicy) :
    ∃ analysis, ofGrammar? grammar policy = some analysis ∧
      (analysis.table.isLl1 = true → ∀ terminals, ∃ outcome most,
        most = StepLimit.auto.maxSteps grammar.productions.length terminals.length ∧
        (analysis.parser .auto).parse? terminals = some outcome ∧
        (∀ ids, grammar.DerivesLeftmost ids [.nonterminal grammar.start] (sentence terminals) →
          outcome.verdict =
            if ids.length + terminals.length + 1 ≤ most then .accepted
            else .stepBoundExceeded most most) ∧
        (¬ grammar.Generates terminals →
          (∃ reason step, outcome.verdict = .rejected reason step) ∨
            outcome.verdict = .stepBoundExceeded most most) ∧
        ∀ cost, (∀ n, grammar.Derives [.nonterminal n] [] →
            ∃ ids, grammar.DerivesLeftmost ids [.nonterminal n] [] ∧ ids.length ≤ cost) →
          (terminals.length + 1) *
              (1 + grammar.numNonterminals * (1 + cost * grammar.maxRhsLength)) +
            2 * cost < most →
          (grammar.Generates terminals → outcome.verdict = .accepted) ∧
          (¬ grammar.Generates terminals →
            ∃ reason step, outcome.verdict = .rejected reason step)) := by
  have hwell := hfinished.wellFormed
  obtain ⟨analysis, hanalysis, rfl, hparser⟩ := exists_ll1 hfinished policy
  refine ⟨analysis, hanalysis, ?_⟩
  intro hll1 terminals
  have hexact := hparser hll1 .auto
  obtain ⟨_, _, _, _, hparse, _⟩ := Parser.parse?_eq hexact.sound terminals
  refine ⟨_, _, rfl, hparse, ?_, ?_, ?_⟩
  · intro ids hderives
    obtain ⟨outcome, houtcome, hverdict⟩ := hexact.exists_parse?_of_spells hderives.spells
    obtain rfl := Option.some.inj (hparse.symm.trans houtcome)
    exact hverdict
  · intro hnot
    obtain ⟨outcome, houtcome, hverdict⟩ :=
      Parser.exists_parse?_of_not_generates hwell hexact.sound hnot
    obtain rfl := Option.some.inj (hparse.symm.trans houtcome)
    exact hverdict
  · intro cost hcost hmost
    obtain ⟨outcome, houtcome, hverdicts⟩ :=
      hexact.decides_of_lt (Grammar.erasesWithin_of_derivesLeftmost hwell hcost) hmost
    obtain rfl := Option.some.inj (hparse.symm.trans houtcome)
    exact hverdicts

/-- What a lookahead costs in the grammar of expressions is far below what the automatic
limit allows for it. -/
theorem parse?_auto_expressions :
    Grammar.expressions.Finished ∧
    ∃ analysis, ofGrammar? .expressions .lastWins = some analysis ∧
      analysis.table.isLl1 = true ∧
      ∀ terminals, 288 * (terminals.length + 1) + 1000 < 2 ^ 64 →
        ∃ outcome, (analysis.parser .auto).parse? terminals = some outcome ∧
          (Grammar.expressions.Generates terminals → outcome.verdict = .accepted) ∧
          (¬ Grammar.expressions.Generates terminals →
            ∃ reason step, outcome.verdict = .rejected reason step) := by
  obtain ⟨analysis, hanalysis, hauto⟩ := parse?_auto Grammar.finished_expressions .lastWins
  have hll1 := isLl1_expressions hanalysis
  refine ⟨Grammar.finished_expressions, analysis, hanalysis, hll1, ?_⟩
  intro terminals hterminals
  obtain ⟨outcome, most, hmost, hparse, _, _, hdecides⟩ := hauto hll1 terminals
  refine ⟨outcome, hparse, hdecides 1 Grammar.exists_derivesLeftmost_expressions ?_⟩
  have hproductions : Grammar.expressions.productions.length = 8 := by decide +kernel
  have hnonterminals : Grammar.expressions.numNonterminals = 5 := by decide +kernel
  have hwidth : Grammar.expressions.maxRhsLength = 3 := by decide +kernel
  rw [hmost, hproductions, hnonterminals, hwidth, StepLimit.maxSteps, StepLimit.baseSteps,
    StepLimit.stepsPerSymbol, StepLimit.ceiling, UInt64.size]
  omega

/-- The automatic limit allows 1160 transitions here, too few for the derivation of the
empty string, though there are no conflicts. -/
theorem parse?_auto_nestedErasure :
    Grammar.nestedErasure.Finished ∧ Grammar.nestedErasure.Generates [] ∧
    ∃ analysis outcome, ofGrammar? .nestedErasure .lastWins = some analysis ∧
      analysis.table.isLl1 = true ∧ (analysis.parser .auto).parse? [] = some outcome ∧
      outcome.verdict = .stepBoundExceeded 1160 1160 := by
  have hrun : ((ofGrammar? .nestedErasure .lastWins).bind fun known =>
      ((known.parser .auto).parse? []).map fun outcome =>
        (known.table.isLl1, outcome.verdict)) =
      some (true, .stepBoundExceeded 1160 1160) := by decide +kernel
  obtain ⟨analysis, hanalysis, houtcome⟩ := Option.bind_eq_some_iff.mp hrun
  obtain ⟨outcome, hparse, hboth⟩ := Option.map_eq_some_iff.mp houtcome
  obtain ⟨hll1, hverdict⟩ := Prod.mk.inj hboth
  exact ⟨Grammar.finished_nestedErasure, Grammar.generates_nestedErasure, analysis, outcome,
    hanalysis, hll1, hparse, hverdict⟩

end Analysis

end Predictive
