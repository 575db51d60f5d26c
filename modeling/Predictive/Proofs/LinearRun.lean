import Predictive.Proofs.Depth
import Predictive.Proofs.Run
import Predictive.Proofs.Spelling

/-!
Runs without conflicts are short.  A lookahead that begins the stack is consumed
after a bounded number of expansions; what has to be erased in front of it is paid
for by the stack, which every expansion makes longer by a bounded amount.  A
lookahead that does not begin the stack is never consumed, and the run stops after
erasing some of the stack.  So a run makes at most a constant number of steps for
every lookahead.
-/

namespace Predictive

namespace Grammar

variable {grammar : Grammar}

/-- Every erasable nonterminal is erased by some productions, at most `cost`. -/
def ErasesWithin (grammar : Grammar) (cost : Nat) : Prop :=
  ∀ n, grammar.Erasable [.nonterminal n] →
    ∃ ids, grammar.Spells ids [.nonterminal n] [] ∧ ids.length ≤ cost

/-- There are only so many nonterminals to erase. -/
theorem exists_erasesWithin (hwell : grammar.WellFormed) :
    ∃ cost, grammar.ErasesWithin cost := by
  apply NonTerminal.exists_bound
  · intro n small large hle hsmall herasable
    obtain ⟨ids, hspells, hlength⟩ := hsmall herasable
    exact ⟨ids, hspells, hlength.trans hle⟩
  · intro n
    by_cases herasable : grammar.Erasable [.nonterminal n]
    · obtain ⟨ids, hspells⟩ := herasable.exists_spells hwell
      exact ⟨ids.length, fun _ => ⟨ids, hspells, Nat.le_refl _⟩⟩
    · exact ⟨0, fun hagain => absurd hagain herasable⟩

theorem le_foldl_max (lengths : List Nat) (least : Nat) :
    least ≤ lengths.foldl max least ∧ ∀ length ∈ lengths, length ≤ lengths.foldl max least := by
  induction lengths generalizing least with
  | nil => simp
  | cons length rest ih =>
      obtain ⟨hleast, hrest⟩ := ih (max least length)
      rw [List.foldl_cons, List.forall_mem_cons]
      exact ⟨by omega, by omega, hrest⟩

theorem length_symbols_le {production : Production} (hmem : production ∈ grammar.productions) :
    production.symbols.length ≤ grammar.maxRhsLength :=
  (le_foldl_max _ 0).2 _ (List.mem_map.mpr ⟨production, hmem, rfl⟩)

end Grammar

namespace Parser

/-- The grammar of the parser is well-formed, and its table is exact and free of
conflicts. -/
structure Ll1 (parser : Parser) : Prop where
  wellFormed : parser.grammar.WellFormed
  sound : parser.table.Sound parser.grammar
  decides : parser.table.Decides parser.grammar

/-- The machine comes to an end, whatever the limit, in at most `bound` steps. -/
def HaltsWithin (parser : Parser) (input : List Lookahead) (bound : Nat)
    (first : Configuration) : Prop :=
  ∃ steps last ending, parser.Moves input first steps last ∧
    parser.Stops input last ending ∧ steps.length ≤ bound

/-- The steps that a lookahead costs, apart from those that the stack pays for. -/
def phase (grammar : Grammar) (cost : Nat) : Nat :=
  1 + grammar.numNonterminals * (1 + cost * grammar.maxRhsLength)

variable {parser : Parser} {input : List Lookahead} {first second last : Configuration}
  {lookahead : Lookahead} {position cost : Nat}

theorem Stops.haltsWithin {ending : Ending} (hstops : parser.Stops input first ending)
    (bound : Nat) : parser.HaltsWithin input bound first :=
  ⟨[], first, ending, Moves.refl first, hstops, Nat.zero_le bound⟩

theorem HaltsWithin.after {bound bound' : Nat} {steps : List Step}
    (hhalts : parser.HaltsWithin input bound second)
    (hmoves : parser.Moves input first steps second) (hbound : steps.length + bound ≤ bound') :
    parser.HaltsWithin input bound' first := by
  obtain ⟨steps', last, ending, hmoves', hstops, hlength⟩ := hhalts
  refine ⟨steps ++ steps', last, ending, hmoves.trans hmoves', hstops, ?_⟩
  rw [List.length_append]
  omega

/-- What lies below a nonterminal of the stack never begins with anything that does
not follow it. -/
theorem Moves.followed (hsound : parser.table.Sound parser.grammar) {steps : List Step}
    (hmoves : parser.Moves input first steps last)
    (hfollowed : parser.grammar.Followed first.stack) : parser.grammar.Followed last.stack := by
  induction hmoves with
  | refl => exact hfollowed
  | head hgoes _ ih =>
      apply ih
      cases hgoes with
      | @expand n lookahead id production position hlookahead hcell hproduction below =>
          obtain ⟨rfl, _⟩ := hsound.of_production? hcell hproduction
          exact hfollowed.expand (List.mem_of_getElem? hproduction)
      | consume => exact hfollowed.tail

namespace Ll1

theorem goes_expand (hll1 : parser.Ll1) {production : Production}
    (hmem : production ∈ parser.grammar.productions)
    (hpredicts : parser.grammar.Predicts lookahead production)
    (hlookahead : input[position]? = some lookahead) (below : List Symbol) :
    parser.Goes input ⟨.nonterminal production.lhs :: below, position⟩
      (.expand production.id) ⟨production.symbols ++ below, position⟩ :=
  Goes.expand hlookahead (hll1.decides production hmem lookahead hpredicts)
    (hll1.wellFormed.production?_id production hmem) below

/-- What can be erased is erased, production by production, under a lookahead that
follows all of it. -/
theorem erase_moves (hll1 : parser.Ll1) {ids : List ProductionId} {symbols : List Symbol}
    (hspells : parser.grammar.Spells ids symbols [])
    (hlookahead : input[position]? = some lookahead)
    (hfollows : ∀ n, .nonterminal n ∈ symbols → parser.grammar.Follows lookahead n)
    (below : List Symbol) :
    ∃ steps, parser.Moves input ⟨symbols ++ below, position⟩ steps ⟨below, position⟩ ∧
      steps.length = ids.length := by
  generalize hempty : [] = terminals at hspells
  induction hspells with
  | nil => exact ⟨[], Moves.refl _, rfl⟩
  | terminal t => cases hempty
  | @expand id ids production rest terminals hproduction hrest ih =>
      have hmem := List.mem_of_getElem? hproduction
      subst hempty
      obtain ⟨hsymbols, _⟩ := Grammar.erasable_append_iff.mp hrest.erasable
      have hlhs := hfollows production.lhs List.mem_cons_self
      have hrestFollows : ∀ n, .nonterminal n ∈ production.symbols ++ rest →
          parser.grammar.Follows lookahead n := by
        intro n hn
        rcases List.mem_append.mp hn with hinner | houter
        · exact Grammar.Follows.of_erasable hmem hsymbols hlhs hinner
        · exact hfollows n (List.mem_cons_of_mem _ houter)
      obtain ⟨steps, hmoves, hlength⟩ := ih hrestFollows rfl
      rw [List.append_assoc] at hmoves
      have hgoes := hll1.goes_expand hmem (Or.inr ⟨hsymbols, hlhs⟩) hlookahead (rest ++ below)
      exact ⟨_, Moves.head hgoes hmoves, congrArg (· + 1) hlength⟩

theorem erase_top (hll1 : parser.Ll1) (hcost : parser.grammar.ErasesWithin cost)
    {n : NonTerminal} (herasable : parser.grammar.Erasable [.nonterminal n])
    (hfollows : parser.grammar.Follows lookahead n)
    (hlookahead : input[position]? = some lookahead) (below : List Symbol) :
    ∃ steps, parser.Moves input ⟨.nonterminal n :: below, position⟩ steps ⟨below, position⟩ ∧
      steps.length ≤ cost := by
  obtain ⟨ids, hspells, hle⟩ := hcost n herasable
  obtain ⟨steps, hmoves, hlength⟩ := hll1.erase_moves hspells hlookahead
    (by simpa using hfollows) below
  exact ⟨steps, hmoves, hlength ▸ hle⟩

/-- A lookahead that begins the stack is consumed.  The stack pays for what is erased
in front of the lookahead, and every expansion in front of it pays for the symbols
that it adds to the stack. -/
theorem consume_moves (hll1 : parser.Ll1) (hcost : parser.grammar.ErasesWithin cost)
    (hlookahead : input[position]? = some lookahead) {depth : Nat} {symbols : List Symbol}
    (hleads : parser.grammar.Leads lookahead depth symbols) {below : List Symbol}
    (hfollowed : parser.grammar.Followed (symbols ++ below)) :
    ∃ steps stack, parser.Moves input ⟨symbols ++ below, position⟩ steps
        ⟨stack, position + 1⟩ ∧
      steps.length + cost * stack.length ≤
        1 + depth * (1 + cost * parser.grammar.maxRhsLength) +
          cost * (symbols.length + below.length) := by
  -- On how the lookahead comes to the front; the stack below it is free, since an
  -- expansion leaves the rest of its string there.
  induction hleads generalizing below with
  | symbol hsymbol rest =>
      subst hsymbol
      refine ⟨_, rest ++ below, Moves.single (Goes.consume hlookahead _), ?_⟩
      simp only [List.length_append, List.length_cons, List.length_nil, Nat.zero_mul,
        Nat.mul_add]
      omega
  | @expand production depth hmem hsymbols rest ih =>
      have hpredicts : parser.grammar.Predicts lookahead production :=
        Or.inl ⟨depth, hsymbols⟩
      have hgoes := hll1.goes_expand hmem hpredicts hlookahead (rest ++ below)
      have hnext : parser.grammar.Followed (production.symbols ++ (rest ++ below)) :=
        hfollowed.expand hmem
      obtain ⟨steps, stack, hmoves, hle⟩ := ih hnext
      refine ⟨_, stack, Moves.head hgoes hmoves, ?_⟩
      have hwidth := Nat.mul_le_mul_left cost (Grammar.length_symbols_le hmem)
      rw [Nat.succ_mul]
      simp only [List.length_append, List.length_cons, Nat.mul_add cost] at hle ⊢
      omega
  | @skip n depth rest herasable hrest ih =>
      have hfollows := hfollowed.1 lookahead
        (Grammar.Begins.append_right ⟨depth, hrest⟩ below)
      obtain ⟨before, herase, hbefore⟩ :=
        hll1.erase_top hcost herasable hfollows hlookahead (rest ++ below)
      obtain ⟨steps, stack, hmoves, hle⟩ := ih hfollowed.2
      refine ⟨before ++ steps, stack, herase.trans hmoves, ?_⟩
      simp only [List.length_append, List.length_cons, Nat.mul_add cost] at hle ⊢
      omega

/-- A lookahead that does not begin the stack stops the run once what can be erased
is gone. -/
theorem haltsWithin_of_not_begins (hll1 : parser.Ll1)
    (hcost : parser.grammar.ErasesWithin cost)
    (hlookahead : input[position]? = some lookahead) {stack : List Symbol}
    (hbegins : ¬ parser.grammar.Begins lookahead stack) :
    parser.HaltsWithin input (cost * stack.length) ⟨stack, position⟩ := by
  induction stack with
  | nil => exact (Stops.endOfStack position).haltsWithin _
  | cons top below ih =>
      rw [Grammar.begins_cons_iff, not_or, not_and] at hbegins
      obtain ⟨htop, hbelow⟩ := hbegins
      cases hkind : top.nonterminal? with
      | none =>
          refine (Stops.mismatch hlookahead hkind ?_ below).haltsWithin _
          rw [ne_eq, Symbol.lookahead?_eq_some_iff]
          rintro rfl
          exact htop (Grammar.Begins.symbol [])
      | some n =>
          obtain rfl := Symbol.nonterminal?_eq_some_iff.mp hkind
          by_cases herase : parser.grammar.Erasable [.nonterminal n] ∧
              parser.grammar.Follows lookahead n
          · obtain ⟨herasable, hfollows⟩ := herase
            obtain ⟨steps, hmoves, hlength⟩ :=
              hll1.erase_top hcost herasable hfollows hlookahead below
            apply (ih (hbelow herasable)).after hmoves
            rw [List.length_cons, Nat.mul_succ]
            omega
          · have hcell := hll1.sound.get?_eq_none htop herase
            exact (Stops.noRule hlookahead hcell below).haltsWithin _

/-- Every run comes to an end, in a number of steps linear in what is left of the input. -/
theorem haltsWithin (hll1 : parser.Ll1) (hcost : parser.grammar.ErasesWithin cost)
    {stack : List Symbol} (hfollowed : parser.grammar.Followed stack) :
    parser.HaltsWithin input
      ((input.length - position) * phase parser.grammar cost + cost * stack.length)
      ⟨stack, position⟩ := by
  -- On the number of lookaheads left; each is consumed, or is the one that stops the run.
  generalize hleft : input.length - position = left
  induction left generalizing position stack with
  | zero =>
      have hnone : input[position]? = none :=
        List.getElem?_eq_none (Nat.sub_eq_zero_iff_le.mp hleft)
      cases stack with
      | nil => exact (Stops.endOfStack position).haltsWithin _
      | cons top below => exact (Stops.inputExhausted hnone top below).haltsWithin _
  | succ left ih =>
      have hlt : position < input.length := by omega
      have hlookahead := List.getElem?_eq_getElem hlt
      by_cases hbegins : parser.grammar.Begins input[position] stack
      · obtain ⟨depth, hdepth, hleads⟩ := hbegins.exists_leads hll1.wellFormed
        have hwhole : parser.grammar.Followed (stack ++ []) := by
          rwa [List.append_nil]
        obtain ⟨steps, next, hmoves, hle⟩ :=
          hll1.consume_moves hcost hlookahead hleads hwhole
        rw [List.append_nil] at hmoves
        have hnext : parser.HaltsWithin input
            (left * phase parser.grammar cost + cost * next.length) ⟨next, position + 1⟩ :=
          ih (hmoves.followed hll1.sound hfollowed) (by omega)
        apply hnext.after hmoves
        have hphase := Nat.mul_le_mul_right
          (1 + cost * parser.grammar.maxRhsLength) hdepth
        rw [List.length_nil, Nat.add_zero] at hle
        rw [Nat.succ_mul, phase]
        omega
      · have hhalts := hll1.haltsWithin_of_not_begins hcost hlookahead hbegins
        apply hhalts.after (Moves.refl _)
        simp

/-- A whole run, from the start symbol on. -/
theorem haltsWithin_initial (hll1 : parser.Ll1) (hcost : parser.grammar.ErasesWithin cost)
    (terminals : List Terminal) :
    parser.HaltsWithin (inputOf terminals)
      ((terminals.length + 1) * phase parser.grammar cost + 2 * cost) parser.initial := by
  have hhalts := @haltsWithin parser (inputOf terminals) 0 cost hll1 hcost _
    Grammar.followed_start
  simpa [inputOf, Nat.mul_comm cost, initial] using hhalts

end Ll1

/-- The trace of a run that halts is no longer than the run and its last step; a
limit above the length of the run plays no part. -/
theorem HaltsWithin.exists_parse? {terminals : List Terminal} {bound : Nat}
    (hhalts : parser.HaltsWithin (inputOf terminals) bound parser.initial) :
    ∃ outcome, parser.parse? terminals = some outcome ∧ outcome.trace.length ≤ bound + 1 ∧
      (bound < parser.maxSteps terminals.length →
        ∀ limit step, outcome.verdict ≠ .stepBoundExceeded limit step) := by
  obtain ⟨steps, last, ending, hmoves, hstops, hlength⟩ := hhalts
  by_cases hwithin : steps.length < parser.maxSteps terminals.length ∨
      steps.length = parser.maxSteps terminals.length ∧ last.stack = []
  · exact ⟨_, parse?_of_stops hmoves hstops hwithin, by simpa [Trace.length] using hlength,
      fun _ => Ending.verdict_ne_stepBoundExceeded hstops.ne_stepBoundExceeded _ _⟩
  · have hlong : parser.maxSteps terminals.length ≤ steps.length := by omega
    obtain ⟨middle, _, hparse⟩ :=
      parse?_of_le hmoves hlong fun hequal hnil => hwithin (Or.inr ⟨hequal, hnil⟩)
    refine ⟨_, hparse, ?_, fun hlt => by omega⟩
    simp only [Trace.length, List.length_append, List.length_take, List.length_singleton]
    omega

end Parser

namespace Analysis

variable {grammar : Grammar}

/-- Where there are no conflicts, the parser of an analyzed grammar has an exact table. -/
theorem exists_ll1 (hfinished : grammar.Finished) (policy : ConflictPolicy) :
    ∃ analysis, ofGrammar? grammar policy = some analysis ∧ analysis.grammar = grammar ∧
      (analysis.table.isLl1 = true → ∀ limit, (analysis.parser limit).Ll1) := by
  obtain ⟨analysis, hanalysis, rfl, hsound, hdecides, _⟩ :=
    ofGrammar?_exact hfinished.wellFormed policy
  exact ⟨analysis, hanalysis, rfl, fun hll1 _ => ⟨hfinished.wellFormed, hsound, hdecides hll1⟩⟩

/-- Without conflicts the length of every trace is linear in that of the input, and so
is the limit from which on no run is cut off. -/
theorem parse?_length_le (hfinished : grammar.Finished) :
    ∃ factor, ∀ policy, ∃ analysis, ofGrammar? grammar policy = some analysis ∧
      (analysis.table.isLl1 = true → ∀ limit terminals,
        ∃ outcome, (analysis.parser limit).parse? terminals = some outcome ∧
          outcome.trace.length ≤ factor * (terminals.length + 1) ∧
          (factor * (terminals.length + 1) ≤
              (analysis.parser limit).maxSteps terminals.length →
            ∀ most step, outcome.verdict ≠ .stepBoundExceeded most step)) := by
  obtain ⟨cost, hcost⟩ := Grammar.exists_erasesWithin hfinished.wellFormed
  refine ⟨Parser.phase grammar cost + 2 * cost + 1, ?_⟩
  intro policy
  obtain ⟨analysis, hanalysis, rfl, hparser⟩ := exists_ll1 hfinished policy
  refine ⟨analysis, hanalysis, ?_⟩
  intro hll1 limit terminals
  obtain ⟨outcome, hparse, hlength, hverdict⟩ :=
    ((hparser hll1 limit).haltsWithin_initial hcost terminals).exists_parse?
  have hfactor : (terminals.length + 1) * Parser.phase analysis.grammar cost + 2 * cost + 1 ≤
      (Parser.phase analysis.grammar cost + 2 * cost + 1) * (terminals.length + 1) := by
    rw [Nat.mul_comm, Nat.add_assoc, Nat.add_assoc, Nat.add_mul]
    exact Nat.add_le_add_left (Nat.le_mul_of_pos_right _ (Nat.succ_pos _)) _
  exact ⟨outcome, hparse, Nat.le_trans hlength hfactor,
    fun hbound => hverdict (Nat.lt_of_lt_of_le (Nat.lt_of_succ_le hfactor) hbound)⟩

/-- In the grammar of expressions no trace outgrows its input by more than a factor. -/
theorem parse?_length_le_expressions :
    Grammar.expressions.Finished ∧
    ∃ factor analysis, ofGrammar? .expressions .firstWins = some analysis ∧
      analysis.table.isLl1 = true ∧
      ∀ terminals, ∃ outcome,
        (analysis.parser (.fixed (factor * (terminals.length + 1)))).parse? terminals =
          some outcome ∧
        outcome.trace.length ≤ factor * (terminals.length + 1) ∧
        ∀ most step, outcome.verdict ≠ .stepBoundExceeded most step := by
  obtain ⟨factor, hfactor⟩ := parse?_length_le Grammar.finished_expressions
  obtain ⟨analysis, hanalysis, hlinear⟩ := hfactor .firstWins
  have hll1 := isLl1_expressions hanalysis
  refine ⟨Grammar.finished_expressions, factor, analysis, hanalysis, hll1, ?_⟩
  intro terminals
  obtain ⟨outcome, hparse, hlength, hverdict⟩ := hlinear hll1 (.fixed _) terminals
  exact ⟨outcome, hparse, hlength, hverdict (Nat.le_refl _)⟩

end Analysis

end Predictive
