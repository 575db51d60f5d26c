import Predictive.Proofs.StackBottom

/-!
A trace records a run of the machine, whole and step by step.  It starts from the start
symbol on top of the end of input; every step leads to the next one by the transition that
its action names; only the last step ends the run, because the machine can go no further or
may go no further, and the verdict says why.
-/

namespace Predictive.Parser

/-- The last step of a trace, given the limit and the step's place, and the verdict that goes
with it. -/
inductive Closes (parser : Parser) (input : List Lookahead) (most place : Nat) :
    Step → Verdict → Prop where
  | accept {position : Nat} (hposition : position = input.length) (hplace : place ≤ most) :
      parser.Closes input most place ⟨[], position, .accept⟩ .accepted
  | unconsumedInput {position : Nat} (hposition : position ≠ input.length)
      (hplace : place ≤ most) :
      parser.Closes input most place ⟨[], position, .reject⟩ (.rejected .unconsumedInput place)
  | inputExhausted {position : Nat} (hlookahead : input[position]? = none)
      (hplace : place < most) (top : Symbol) (below : List Symbol) :
      parser.Closes input most place ⟨top :: below, position, .reject⟩
        (.rejected .inputExhausted place)
  | noRule {n : NonTerminal} {lookahead : Lookahead} {position : Nat}
      (hlookahead : input[position]? = some lookahead)
      (hcell : parser.table.get? n lookahead = none) (hplace : place < most)
      (below : List Symbol) :
      parser.Closes input most place ⟨.nonterminal n :: below, position, .noRule⟩
        (.rejected (.noRule n lookahead) place)
  | mismatch {expected found : Lookahead} {position : Nat}
      (hlookahead : input[position]? = some found) (hother : expected ≠ found)
      (hplace : place < most) (below : List Symbol) :
      parser.Closes input most place ⟨expected.symbol :: below, position, .mismatch⟩
        (.rejected (.mismatch expected.symbol found) place)
  | stepBoundExceeded (hplace : place = most) (top : Symbol) (below : List Symbol)
      (position : Nat) :
      parser.Closes input most place ⟨top :: below, position, .stepBoundExceeded⟩
        (.stepBoundExceeded most place)

variable {parser : Parser} {input : List Lookahead} {terminals : List Terminal}
  {first last : Configuration} {most place : Nat}

/-- Each recorded step leads to the one after it. -/
theorem Moves.isChain {steps : List Step} (hmoves : parser.Moves input first steps last)
    (action : Action) :
    (steps ++ [last.step action]).IsChain fun step next =>
      parser.Goes input step.configuration step.action next.configuration := by
  induction hmoves with
  | refl configuration => exact List.isChain_singleton _
  | head hgoes hrest ih =>
      obtain ⟨action', rest, hhead⟩ := hrest.exists_head action
      rw [List.cons_append, hhead]
      rw [hhead] at ih
      exact List.isChain_cons_cons.mpr ⟨hgoes, ih⟩

/-- The machine stops with the verdict that its last configuration calls for. -/
theorem Stops.closes {ending : Ending} (hstops : parser.Stops (inputOf terminals) last ending)
    (hlast : last.Grounded parser.grammar terminals)
    (hplace : place < most ∨ place = most ∧ last.stack = []) :
    parser.Closes (inputOf terminals) most place (last.step ending.action)
      (ending.verdict most place) := by
  have hstack : last.stack ≠ [] → place < most :=
    fun hne => hplace.resolve_right fun hboth => hne hboth.2
  cases hstops with
  | endOfStack position =>
      have hle : place ≤ most := by omega
      by_cases hposition : position = (inputOf terminals).length
      · rw [Predictive.endOfStack, if_pos hposition]
        exact Closes.accept hposition hle
      · rw [Predictive.endOfStack, if_neg hposition]
        exact Closes.unconsumedInput hposition hle
  | inputExhausted hlookahead top below =>
      exact Closes.inputExhausted hlookahead (hstack (List.cons_ne_nil _ _)) top below
  | noRule hlookahead hcell below =>
      exact Closes.noRule hlookahead hcell (hstack (List.cons_ne_nil _ _)) below
  | @mismatch top lookahead position hlookahead hkind hother below =>
      obtain ⟨expected, rfl⟩ := hlast.exists_lookahead hkind
      have hne : expected ≠ lookahead := by
        rintro rfl
        exact hother (Symbol.lookahead?_eq_some_iff.mpr rfl)
      exact Closes.mismatch hlookahead hne (hstack (List.cons_ne_nil _ _)) below

/-- A run that is cut off closes with the limit. -/
theorem closes_of_stack_ne_nil (hplace : place = most) (hstack : last.stack ≠ []) :
    parser.Closes input most place (last.step Ending.stepBoundExceeded.action)
      (Ending.stepBoundExceeded.verdict most place) := by
  obtain ⟨stack, position⟩ := last
  cases stack with
  | nil => exact absurd rfl hstack
  | cons top below => exact Closes.stepBoundExceeded hplace top below position

/-- The last step alone is final. -/
theorem Moves.isFinal_iff {steps : List Step} (hmoves : parser.Moves input first steps last)
    (ending : Ending) {count : Nat} {step : Step}
    (hstep : (steps ++ [last.step ending.action])[count]? = some step) :
    step.action.isFinal = true ↔ count = steps.length := by
  rcases Nat.lt_or_ge count steps.length with hbefore | hafter
  · rw [List.getElem?_append_left hbefore] at hstep
    have hgoesOn := hmoves.isFinal_eq_false (List.mem_of_getElem? hstep)
    rw [hgoesOn]
    exact iff_of_false Bool.false_ne_true (Nat.ne_of_lt hbefore)
  · rw [List.getElem?_append_right hafter, List.getElem?_singleton] at hstep
    split at hstep
    · rename_i hzero
      obtain rfl := Option.some.inj hstep
      exact iff_of_true ending.isFinal_action (by omega)
    · cases hstep

/-- An outcome with the whole run of the machine from its first configuration on: every step
leads to the next one by the transition that its action names, and the last step, which alone is
final, calls for the verdict. -/
structure Records (parser : Parser) (terminals : List Terminal) (outcome : Outcome) : Prop where
  input_eq : outcome.trace.input = inputOf terminals
  starts : ∃ step, outcome.trace.steps.head? = some step ∧
    step.stack = [.nonterminal parser.grammar.start, .endMarker] ∧ step.position = 0
  goes : outcome.trace.steps.IsChain fun step next =>
    parser.Goes outcome.trace.input step.configuration step.action next.configuration
  closes : ∃ step, outcome.trace.steps.getLast? = some step ∧
    parser.Closes outcome.trace.input (parser.maxSteps terminals.length)
      (outcome.trace.length - 1) step outcome.verdict
  isFinal_iff : ∀ count step, outcome.trace.steps[count]? = some step →
    (step.action.isFinal = true ↔ count + 1 = outcome.trace.length)

/-- Every parse is recorded as it runs. -/
theorem exists_parse?_records (hwell : parser.grammar.WellFormed)
    (hrange : parser.table.InRange parser.grammar) (terminals : List Terminal) :
    ∃ outcome, parser.parse? terminals = some outcome ∧ parser.Records terminals outcome := by
  obtain ⟨steps, last, ending, hmoves, hparse, hend⟩ := exists_parse? hrange terminals
  have hlength : (steps ++ [last.step ending.action]).length = steps.length + 1 := by simp
  refine ⟨_, hparse, rfl, ?_, hmoves.isChain _, ?_, ?_⟩
  · obtain ⟨action, rest, hhead⟩ := hmoves.exists_head ending.action
    exact ⟨_, congrArg List.head? hhead, rfl, rfl⟩
  · refine ⟨last.step ending.action, List.getLast?_concat, ?_⟩
    rw [Trace.length, hlength, Nat.add_sub_cancel]
    rcases hend with ⟨hstops, hplace⟩ | ⟨rfl, hplace, hstack⟩
    · exact hstops.closes (hmoves.grounded hwell (grounded_initial hwell terminals)) hplace
    · exact closes_of_stack_ne_nil hplace hstack
  · intro count step hstep
    rw [Trace.length, hlength, Nat.add_right_cancel_iff]
    exact hmoves.isFinal_iff ending hstep

/-- Recorded steps that lead from one to the next are a run. -/
theorem moves_of_isChain {before : List Step} {opening closing : Step}
    (hopening : (before ++ [closing]).head? = some opening)
    (hgoes : (before ++ [closing]).IsChain fun step next =>
      parser.Goes input step.configuration step.action next.configuration) :
    parser.Moves input opening.configuration before closing.configuration := by
  induction before generalizing opening with
  | nil =>
      obtain rfl := Option.some.inj hopening
      exact Moves.refl _
  | cons step rest ih =>
      obtain rfl := Option.some.inj hopening
      obtain ⟨next, later, hnext⟩ := List.exists_cons_of_ne_nil
        (List.append_ne_nil_of_right_ne_nil rest (List.cons_ne_nil closing []))
      rw [List.cons_append, hnext, List.isChain_cons_cons] at hgoes
      exact Moves.head hgoes.1 (ih (congrArg List.head? hnext) (hnext ▸ hgoes.2))

/-- A closing step is that of a run that stops within the limit or uses it up. -/
theorem Closes.exists_ending {step : Step} {verdict : Verdict}
    (hcloses : parser.Closes input most place step verdict) :
    ∃ ending, step = step.configuration.step ending.action ∧
      verdict = ending.verdict most place ∧
      (parser.Stops input step.configuration ending ∧
          (place < most ∨ place = most ∧ step.stack = []) ∨
        ending = .stepBoundExceeded ∧ place = most ∧ step.stack ≠ []) := by
  cases hcloses with
  | @accept position hposition hplace =>
      refine ⟨.accepted, rfl, rfl, Or.inl ⟨stops_accepted_iff.mpr ⟨rfl, hposition⟩, ?_⟩⟩
      exact (Nat.lt_or_eq_of_le hplace).imp_right fun heq => ⟨heq, rfl⟩
  | @unconsumedInput position hposition hplace =>
      have hstops := @Stops.endOfStack parser input position
      rw [Predictive.endOfStack, if_neg hposition] at hstops
      refine ⟨.rejected .unconsumedInput, rfl, rfl, Or.inl ⟨hstops, ?_⟩⟩
      exact (Nat.lt_or_eq_of_le hplace).imp_right fun heq => ⟨heq, rfl⟩
  | inputExhausted hlookahead hplace top below =>
      exact ⟨.rejected .inputExhausted, rfl, rfl,
        Or.inl ⟨Stops.inputExhausted hlookahead top below, Or.inl hplace⟩⟩
  | noRule hlookahead hcell hplace below =>
      exact ⟨.rejected (.noRule _ _), rfl, rfl,
        Or.inl ⟨Stops.noRule hlookahead hcell below, Or.inl hplace⟩⟩
  | @mismatch expected found position hlookahead hother hplace below =>
      have hkind : expected.symbol.nonterminal? = none := by cases expected <;> rfl
      have hmatch : expected.symbol.lookahead? = some expected :=
        Symbol.lookahead?_eq_some_iff.mpr rfl
      have hne : expected.symbol.lookahead? ≠ some found := by
        rw [hmatch, ne_eq, Option.some.injEq]
        exact hother
      exact ⟨.rejected (.mismatch _ _), rfl, rfl,
        Or.inl ⟨Stops.mismatch hlookahead hkind hne below, Or.inl hplace⟩⟩
  | stepBoundExceeded hplace top below position =>
      exact ⟨.stepBoundExceeded, rfl, rfl, Or.inr ⟨rfl, hplace, List.cons_ne_nil _ _⟩⟩

/-- Only one outcome records the run, and the parse leads to it. -/
theorem Records.parse?_eq {outcome : Outcome} (hrecords : parser.Records terminals outcome) :
    parser.parse? terminals = some outcome := by
  obtain ⟨⟨input, steps⟩, verdict⟩ := outcome
  obtain ⟨rfl, ⟨opening, hopening, hstack, hposition⟩, hgoes, ⟨closing, hlast, hcloses⟩, _⟩ :=
    hrecords
  obtain ⟨before, rfl⟩ := List.getLast?_eq_some_iff.mp hlast
  have hinitial : opening.configuration = parser.initial := by
    rw [Step.configuration, hstack, hposition, initial]
  have hmoves := moves_of_isChain hopening hgoes
  rw [hinitial] at hmoves
  have hplace : (⟨inputOf terminals, before ++ [closing]⟩ : Trace).length - 1 =
      before.length := by simp [Trace.length]
  rw [hplace] at hcloses
  obtain ⟨ending, hstep, rfl, ⟨hstops, hwithin⟩ | ⟨rfl, hmost, hne⟩⟩ := hcloses.exists_ending
  · rw [parse?_of_stops hmoves hstops hwithin, ← hstep]
  · rw [parse?_of_stack_ne_nil hmoves hmost hne, hstep, hmost]
    rfl

end Predictive.Parser

namespace Predictive.Analysis

variable {grammar : Grammar}

/-- The trace and the verdict of a parse of a finished grammar record the run of its machine, and
nothing else does. -/
theorem parse?_records (hfinished : grammar.Finished) (policy : ConflictPolicy)
    (limit : StepLimit) (terminals : List Terminal) :
    ∃ analysis outcome, ofGrammar? grammar policy = some analysis ∧
      (analysis.parser limit).parse? terminals = some outcome ∧
      (⟨grammar, analysis.table, limit⟩ : Parser).Records terminals outcome ∧
      ∀ other, (⟨grammar, analysis.table, limit⟩ : Parser).Records terminals other →
        other = outcome := by
  obtain ⟨analysis, hanalysis, rfl, hsound, _⟩ :=
    ofGrammar?_exact hfinished.wellFormed policy
  obtain ⟨outcome, hparse, hrecords⟩ :=
    @Parser.exists_parse?_records (analysis.parser limit) hfinished.wellFormed hsound.inRange
      terminals
  refine ⟨analysis, outcome, hanalysis, hparse, hrecords, ?_⟩
  intro other hother
  exact Option.some.inj (hother.parse?_eq.symm.trans hparse)

/-- In the grammar of expressions, a letter after a letter: the run expands three times, consumes
the first letter and finds no production for what comes after a factor. -/
theorem parse?_records_expressions :
    Grammar.expressions.Finished ∧
    ∃ analysis outcome, ofGrammar? .expressions .lastWins = some analysis ∧
      (analysis.parser .auto).parse? [⟨4⟩, ⟨4⟩] = some outcome ∧
      outcome.trace.steps.map (·.action) =
        [.expand ⟨0⟩, .expand ⟨3⟩, .expand ⟨7⟩, .consume, .noRule] ∧
      outcome.verdict = .rejected (.noRule ⟨3⟩ (.terminal ⟨4⟩)) 4 ∧
      (⟨.expressions, analysis.table, .auto⟩ : Parser).Records [⟨4⟩, ⟨4⟩] outcome := by
  obtain ⟨analysis, outcome, hanalysis, hparse, hrecords, _⟩ :=
    parse?_records Grammar.finished_expressions .lastWins .auto [⟨4⟩, ⟨4⟩]
  have hrun : ((ofGrammar? .expressions .lastWins).bind fun known =>
      ((known.parser .auto).parse? [⟨4⟩, ⟨4⟩]).map fun outcome =>
        (outcome.trace.steps.map (·.action), outcome.verdict)) =
      some ([.expand ⟨0⟩, .expand ⟨3⟩, .expand ⟨7⟩, .consume, .noRule],
        .rejected (.noRule ⟨3⟩ (.terminal ⟨4⟩)) 4) := by decide +kernel
  rw [hanalysis, Option.bind_some, hparse, Option.map_some, Option.some.injEq] at hrun
  obtain ⟨hactions, hverdict⟩ := Prod.mk.inj hrun
  exact ⟨Grammar.finished_expressions, analysis, outcome, hanalysis, hparse, hactions, hverdict,
    hrecords⟩

end Predictive.Analysis
