import Predictive.Proofs.LeftCorner
import Predictive.Proofs.LinearRun

/-!
Runs without left recursion are short, whatever the conflicts.  Before it consumes the
next lookahead the machine can only expand what earlier expansions have exposed, and no
chain of exposures goes on for ever.  So within a constant number of steps the symbol on
top is erased, or a lookahead is consumed and a constant number of symbols is left in its
place, or the run stops.  The stack pays for what is erased, and each lookahead for what
it leaves on the stack.
-/

namespace Predictive

namespace Parser

/-- What can have become of symbols on top of a stack: they are erased, or they have given
way to at most `cost` symbols and a lookahead, or the machine stops. -/
inductive Settled (parser : Parser) (input : List Lookahead) (cost : Nat)
    (symbols below : List Symbol) (position : Nat) : Configuration → Prop where
  | erased (herasable : parser.grammar.Erasable symbols) :
      parser.Settled input cost symbols below position ⟨below, position⟩
  | consumed (hposition : position < input.length) {above : List Symbol}
      (habove : above.length ≤ cost) :
      parser.Settled input cost symbols below position ⟨above ++ below, position + 1⟩
  | stopped {last : Configuration} {ending : Ending} (hstops : parser.Stops input last ending) :
      parser.Settled input cost symbols below position last

/-- The machine settles the symbols within `cost` steps, whatever lies below them. -/
def Settles (parser : Parser) (input : List Lookahead) (cost : Nat)
    (symbols : List Symbol) : Prop :=
  ∀ position below, ∃ steps last,
    parser.Moves input ⟨symbols ++ below, position⟩ steps last ∧ steps.length ≤ cost ∧
      parser.Settled input cost symbols below position last

variable {parser : Parser} {input : List Lookahead} {cost : Nat} {symbols : List Symbol}

theorem Settled.mono {small large : Nat} {below : List Symbol} {position : Nat}
    {last : Configuration} (hsettled : parser.Settled input small symbols below position last)
    (hle : small ≤ large) : parser.Settled input large symbols below position last := by
  cases hsettled with
  | erased herasable => exact Settled.erased herasable
  | consumed hposition habove => exact Settled.consumed hposition (habove.trans hle)
  | stopped hstops => exact Settled.stopped hstops

theorem Settles.mono {small large : Nat} (hsettles : parser.Settles input small symbols)
    (hle : small ≤ large) : parser.Settles input large symbols := by
  intro position below
  obtain ⟨steps, last, hmoves, hlength, hsettled⟩ := hsettles position below
  exact ⟨steps, last, hmoves, hlength.trans hle, hsettled.mono hle⟩

/-- Any other symbol than a nonterminal is consumed or stops the machine. -/
theorem settles_of_nonterminal?_eq_none (hsound : parser.table.Sound parser.grammar)
    {symbol : Symbol} (hkind : symbol.nonterminal? = none) :
    parser.Settles input 1 [symbol] := by
  intro position below
  rcases goes_or_stops hsound.inRange ⟨symbol :: below, position⟩ with
    ⟨action, next, hgoes⟩ | ⟨ending, hstops⟩
  · obtain ⟨hposition, rfl⟩ := hgoes.eq_of_nonterminal?_eq_none hkind
    have hnext : parser.Settled input 1 [symbol] below position ⟨[] ++ below, position + 1⟩ :=
      Settled.consumed hposition (Nat.zero_le 1)
    exact ⟨_, _, Moves.single hgoes, Nat.le_refl 1, hnext⟩
  · exact ⟨[], _, Moves.refl _, Nat.zero_le 1, Settled.stopped hstops⟩

/-- A nonterminal settles if all its right-hand sides do. -/
theorem settles_nonterminal (hsound : parser.table.Sound parser.grammar) {n : NonTerminal}
    (hsymbols : ∀ production ∈ parser.grammar.productions, production.lhs = n →
      parser.Settles input cost production.symbols) :
    parser.Settles input (cost + 1) [.nonterminal n] := by
  intro position below
  rcases goes_or_stops hsound.inRange ⟨.nonterminal n :: below, position⟩ with
    ⟨action, next, hgoes⟩ | ⟨ending, hstops⟩
  · obtain ⟨production, hmem, hlhs, rfl⟩ := hgoes.exists_production hsound
    obtain ⟨steps, last, hmoves, hlength, hsettled⟩ :=
      hsymbols production hmem hlhs position below
    refine ⟨_, last, Moves.head hgoes hmoves, Nat.succ_le_succ hlength, ?_⟩
    cases hsettled with
    | erased herasable =>
        have hn := Grammar.Erasable.cons hmem herasable Grammar.Erasable.nil
        exact Settled.erased (hlhs ▸ hn)
    | consumed hposition habove => exact Settled.consumed hposition (Nat.le_succ_of_le habove)
    | stopped hstops => exact Settled.stopped hstops
  · exact ⟨[], _, Moves.refl _, Nat.zero_le _, Settled.stopped hstops⟩

/-- A symbol on top and the symbols after it settle in turn, the latter only once the
former is erased. -/
theorem Settles.cons {symbol : Symbol} {rest : List Symbol} {later total : Nat}
    (hsymbol : parser.Settles input cost [symbol])
    (hrest : parser.grammar.Erasable [symbol] → parser.Settles input later rest)
    (htotal : cost + later ≤ total) (hwidth : cost + rest.length ≤ total) :
    parser.Settles input total (symbol :: rest) := by
  intro position below
  obtain ⟨steps, last, hmoves, hlength, hsettled⟩ := hsymbol position (rest ++ below)
  cases hsettled with
  | erased herasable =>
      obtain ⟨steps', last', hmoves', hlength', hsettled'⟩ := hrest herasable position below
      refine ⟨steps ++ steps', last', hmoves.trans hmoves', ?_, ?_⟩
      · rw [List.length_append]
        omega
      · cases hsettled' with
        | erased hlater =>
            exact Settled.erased (Grammar.erasable_cons_iff.mpr ⟨herasable, hlater⟩)
        | consumed hposition habove => exact Settled.consumed hposition (by omega)
        | stopped hstops => exact Settled.stopped hstops
  | @consumed hposition above habove =>
      refine ⟨steps, _, hmoves, by omega, ?_⟩
      rw [← List.append_assoc]
      apply Settled.consumed hposition
      rw [List.length_append]
      omega
  | stopped hstops => exact ⟨steps, last, hmoves, by omega, Settled.stopped hstops⟩

/-- A string settles if every nonterminal does that comes to its front. -/
theorem settles_of_fronts (hsound : parser.table.Sound parser.grammar) (hcost : 1 ≤ cost)
    (hfronts : ∀ n, parser.grammar.Fronts n symbols →
      parser.Settles input cost [.nonterminal n]) :
    parser.Settles input ((cost + 1) * symbols.length) symbols := by
  induction symbols with
  | nil =>
      intro position below
      exact ⟨[], _, Moves.refl _, Nat.zero_le _, Settled.erased Grammar.Erasable.nil⟩
  | cons symbol rest ih =>
      have hfirst : parser.Settles input cost [symbol] := by
        cases hkind : symbol.nonterminal? with
        | none => exact (settles_of_nonterminal?_eq_none hsound hkind).mono hcost
        | some n =>
            have hsymbol := Symbol.nonterminal?_eq_some_iff.mp hkind
            exact hsymbol ▸ hfronts n (Or.inl hsymbol)
      have hrest := fun herasable => ih fun n hn => hfronts n (Or.inr ⟨herasable, hn⟩)
      have hwidth : rest.length ≤ (cost + 1) * rest.length :=
        Nat.le_mul_of_pos_left _ (Nat.succ_pos cost)
      rw [List.length_cons, Nat.mul_succ]
      exact hfirst.cons hrest (by omega) (by omega)

end Parser

namespace Grammar

/-- Whatever the table, as long as it is sound, the machine settles the symbols within
`cost` steps. -/
def SettlesWithin (grammar : Grammar) (cost : Nat) (symbols : List Symbol) : Prop :=
  ∀ parser : Parser, parser.grammar = grammar → parser.table.Sound grammar →
    ∀ input, parser.Settles input cost symbols

variable {grammar : Grammar}

theorem SettlesWithin.mono {small large : Nat} {symbols : List Symbol}
    (hsettles : grammar.SettlesWithin small symbols) (hle : small ≤ large) :
    grammar.SettlesWithin large symbols :=
  fun parser hgrammar hsound input => (hsettles parser hgrammar hsound input).mono hle

/-- The cost of a nonterminal follows from that of the nonterminals that it exposes. -/
theorem settlesWithin_of_exposes {n : NonTerminal} {cost : Nat}
    (hexposed : ∀ m, grammar.Exposes n m → grammar.SettlesWithin cost [.nonterminal m]) :
    grammar.SettlesWithin ((cost + 1 + 1) * grammar.maxRhsLength + 1) [.nonterminal n] := by
  rintro parser rfl hsound input
  apply Parser.settles_nonterminal hsound
  intro production hmem hlhs
  have hfronts : ∀ m, parser.grammar.Fronts m production.symbols →
      parser.Settles input (cost + 1) [.nonterminal m] := by
    intro m hm
    have hm' := hexposed m ⟨production, hmem, hlhs, hm⟩ parser rfl hsound input
    exact hm'.mono (Nat.le_succ cost)
  apply (Parser.settles_of_fronts hsound (Nat.le_add_left 1 cost) hfronts).mono
  exact Nat.mul_le_mul_left _ (length_symbols_le hmem)

/-- Without left recursion every nonterminal settles. -/
theorem exists_settlesWithin_nonterminal (hwell : grammar.WellFormed)
    (hnone : ∀ n, ¬ grammar.LeftRecursive n) (n : NonTerminal) :
    ∃ cost, grammar.SettlesWithin cost [.nonterminal n] := by
  -- On what the nonterminal exposes; of that there is only so much.
  induction n using (wellFounded_exposes hwell hnone).induction with
  | _ n ih =>
    obtain ⟨cost, hcost⟩ : ∃ cost, ∀ m, grammar.Exposes n m →
        grammar.SettlesWithin cost [.nonterminal m] := by
      apply NonTerminal.exists_bound
      · intro m small large hle hsmall hexposes
        exact (hsmall hexposes).mono hle
      · intro m
        by_cases hexposes : grammar.Exposes n m
        · obtain ⟨cost, hcost⟩ := ih m hexposes
          exact ⟨cost, fun _ => hcost⟩
        · exact ⟨0, fun hagain => absurd hagain hexposes⟩
    exact ⟨_, settlesWithin_of_exposes hcost⟩

theorem exists_settlesWithin (hwell : grammar.WellFormed)
    (hnone : ∀ n, ¬ grammar.LeftRecursive n) :
    ∃ cost, ∀ symbol, grammar.SettlesWithin cost [symbol] := by
  obtain ⟨cost, hcost⟩ : ∃ cost, ∀ n, grammar.SettlesWithin cost [.nonterminal n] := by
    apply NonTerminal.exists_bound
    · exact fun _ _ _ hle hsmall => hsmall.mono hle
    · exact exists_settlesWithin_nonterminal hwell hnone
  refine ⟨cost + 1, ?_⟩
  rintro symbol parser rfl hsound input
  cases hkind : symbol.nonterminal? with
  | none =>
      apply Parser.Settles.mono _ (Nat.le_add_left 1 cost)
      exact Parser.settles_of_nonterminal?_eq_none hsound hkind
  | some n =>
      rw [Symbol.nonterminal?_eq_some_iff.mp hkind]
      exact (hcost n parser rfl hsound input).mono (Nat.le_succ cost)

/-- A statement is x, or i and a statement, with or without e and another. -/
def conditionalRules : Draft := .ofRules
  [("S", [["i", "S", "L"], ["x"]]), ("L", [["e", "S"], []])]

def conditionals : Grammar := conditionalRules.resolve "S"

theorem finished_conditionals : conditionals.Finished where
  finish_eq := ⟨conditionalRules, "S", by decide +kernel⟩
  productions_lt := by decide +kernel
  nonterminals_lt := by decide +kernel
  terminals_lt := by decide +kernel

/-- Conditionals have no right-hand side that begins with a nonterminal. -/
theorem not_leftRecursive_conditionals (n : NonTerminal) : ¬ conditionals.LeftRecursive n := by
  intro hrecursive
  have hcycle := (leftRecursive_iff finished_conditionals.wellFormed).mp hrecursive
  obtain ⟨_, ⟨production, hmem, _, hfronts⟩, _⟩ := Relation.TransGen.head'_iff.mp hcycle
  obtain ⟨m, rest, hsymbols⟩ := hfronts.exists_head
  have hheads : ∀ production ∈ conditionals.productions,
      (production.symbols.head?.bind Symbol.nonterminal?) = none := by decide +kernel
  have hhead := hheads production hmem
  simp [hsymbols, Symbol.nonterminal?] at hhead

end Grammar

namespace Parser

variable {parser : Parser} {input : List Lookahead} {cost : Nat}

/-- Where every symbol settles, every run comes to an end, in a number of steps linear in
what is left of the input. -/
theorem haltsWithin_of_settles (hsettles : ∀ symbol, parser.Settles input cost [symbol])
    {stack : List Symbol} {position : Nat} :
    parser.HaltsWithin input ((input.length - position) * (cost * cost) + cost * stack.length)
      ⟨stack, position⟩ := by
  -- On the number of lookaheads left and then on the stack: either a lookahead is consumed
  -- or the stack loses its top.
  generalize hleft : input.length - position = left
  induction left generalizing position stack with
  | zero =>
      have hnone : input[position]? = none :=
        List.getElem?_eq_none (Nat.sub_eq_zero_iff_le.mp hleft)
      cases stack with
      | nil => exact (Stops.endOfStack position).haltsWithin _
      | cons top below => exact (Stops.inputExhausted hnone top below).haltsWithin _
  | succ left ih =>
      induction stack with
      | nil => exact (Stops.endOfStack position).haltsWithin _
      | cons top below ihBelow =>
          obtain ⟨steps, last, hmoves, hlength, hsettled⟩ := hsettles top position below
          rw [List.length_cons, Nat.mul_succ cost]
          cases hsettled with
          | erased _ => exact ihBelow.after hmoves (by omega)
          | @consumed hposition above habove =>
              have hnext : parser.HaltsWithin input
                  (left * (cost * cost) + cost * (above ++ below).length)
                  ⟨above ++ below, position + 1⟩ := ih (by omega)
              apply hnext.after hmoves
              have hpaid := Nat.mul_le_mul_left cost habove
              rw [List.length_append, Nat.mul_add, Nat.succ_mul]
              omega
          | stopped hstops => exact ⟨steps, last, _, hmoves, hstops, by omega⟩

end Parser

namespace Analysis

variable {grammar : Grammar}

/-- Without left recursion the length of every trace is linear in that of the input, and
so is the limit from which on no run is cut off, conflicts or no conflicts. -/
theorem parse?_length_le_of_not_leftRecursive (hfinished : grammar.Finished)
    (hnone : ∀ n, ¬ grammar.LeftRecursive n) :
    ∃ factor, ∀ policy, ∃ analysis, ofGrammar? grammar policy = some analysis ∧
      ∀ limit terminals, ∃ outcome, (analysis.parser limit).parse? terminals = some outcome ∧
        outcome.trace.length ≤ factor * (terminals.length + 1) ∧
        (factor * (terminals.length + 1) ≤ (analysis.parser limit).maxSteps terminals.length →
          ∀ most step, outcome.verdict ≠ .stepBoundExceeded most step) := by
  have hwell := hfinished.wellFormed
  obtain ⟨cost, hcost⟩ := Grammar.exists_settlesWithin hwell hnone
  refine ⟨cost * cost + 2 * cost + 1, ?_⟩
  intro policy
  obtain ⟨analysis, hanalysis, rfl, hsound, _⟩ := ofGrammar?_exact hwell policy
  refine ⟨analysis, hanalysis, ?_⟩
  intro limit terminals
  have hsettles : ∀ symbol, (analysis.parser limit).Settles (Parser.inputOf terminals) cost
      [symbol] :=
    fun symbol => hcost symbol (analysis.parser limit) rfl hsound _
  have hhalts : (analysis.parser limit).HaltsWithin (Parser.inputOf terminals)
      ((terminals.length + 1) * (cost * cost) + 2 * cost) (analysis.parser limit).initial := by
    have hwhole := @Parser.haltsWithin_of_settles _ _ _ hsettles
      (analysis.parser limit).initial.stack 0
    simpa [Parser.inputOf, Parser.initial, Nat.mul_comm cost] using hwhole
  obtain ⟨outcome, hparse, hlength, hverdict⟩ := hhalts.exists_parse?
  have hfactor : (terminals.length + 1) * (cost * cost) + 2 * cost + 1 ≤
      (cost * cost + 2 * cost + 1) * (terminals.length + 1) := by
    rw [Nat.mul_comm, Nat.add_assoc, Nat.add_assoc, Nat.add_mul]
    exact Nat.add_le_add_left (Nat.le_mul_of_pos_right _ (Nat.succ_pos _)) _
  exact ⟨outcome, hparse, hlength.trans hfactor,
    fun hbound => hverdict (Nat.lt_of_lt_of_le (Nat.lt_of_succ_le hfactor) hbound)⟩

/-- Conditionals have a conflict, and no trace outgrows its input by more than a factor. -/
theorem parse?_length_le_of_not_leftRecursive_conditionals :
    Grammar.conditionals.Finished ∧ (∀ n, ¬ Grammar.conditionals.LeftRecursive n) ∧
    ∃ factor analysis, ofGrammar? .conditionals .lastWins = some analysis ∧
      analysis.table.isLl1 = false ∧
      ∀ terminals, ∃ outcome,
        (analysis.parser (.fixed (factor * (terminals.length + 1)))).parse? terminals =
          some outcome ∧
        outcome.trace.length ≤ factor * (terminals.length + 1) ∧
        ∀ most step, outcome.verdict ≠ .stepBoundExceeded most step := by
  obtain ⟨factor, hfactor⟩ := parse?_length_le_of_not_leftRecursive
    Grammar.finished_conditionals Grammar.not_leftRecursive_conditionals
  obtain ⟨analysis, hanalysis, hlinear⟩ := hfactor .lastWins
  have hconflict : (ofGrammar? .conditionals .lastWins).map (·.table.isLl1) = some false := by
    decide +kernel
  rw [hanalysis] at hconflict
  refine ⟨Grammar.finished_conditionals, Grammar.not_leftRecursive_conditionals, factor,
    analysis, hanalysis, Option.some.inj hconflict, ?_⟩
  intro terminals
  obtain ⟨outcome, hparse, hlength, hverdict⟩ := hlinear (.fixed _) terminals
  exact ⟨outcome, hparse, hlength, hverdict (Nat.le_refl _)⟩

end Analysis

end Predictive
