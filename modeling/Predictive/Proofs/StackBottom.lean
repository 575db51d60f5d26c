import Predictive.Proofs.Run

/-!
The bottom of the stack.  The end of input closes the input and lies at the bottom of the
stack, and no right-hand side has it.  Whatever productions the table names, it stays below
all that is expanded and is consumed last, so the stack and the input are used up by one and
the same step.
-/

namespace Predictive

/-- The end of input lies below symbols of the grammar, as long as it is ahead in the input;
once it is consumed, nothing is left of either. -/
def Configuration.Grounded (configuration : Configuration) (grammar : Grammar)
    (terminals : List Terminal) : Prop :=
  (∃ above, configuration.stack = above ++ [.endMarker] ∧
    configuration.position ≤ terminals.length ∧
    ∀ symbol ∈ above, grammar.Declares symbol) ∨
  configuration.stack = [] ∧ configuration.position = terminals.length + 1

namespace Configuration.Grounded

variable {grammar : Grammar} {terminals : List Terminal} {configuration : Configuration}
  {top : Symbol} {below : List Symbol} {position : Nat}

theorem stack_eq_nil_iff (hgrounded : configuration.Grounded grammar terminals) :
    configuration.stack = [] ↔ configuration.position = (Parser.inputOf terminals).length := by
  have hlength : (Parser.inputOf terminals).length = terminals.length + 1 := by
    simp [Parser.inputOf]
  rw [hlength]
  rcases hgrounded with ⟨above, hstack, hposition, _⟩ | hboth
  · rw [hstack]
    exact iff_of_false (by simp) (Nat.ne_of_lt (Nat.lt_succ_of_le hposition))
  · exact iff_of_true hboth.1 hboth.2

/-- On top of the stack is a symbol of the grammar, or the bottom. -/
theorem cases_top
    (hgrounded : (⟨top :: below, position⟩ : Configuration).Grounded grammar terminals) :
    position ≤ terminals.length ∧
      ((∃ rest, below = rest ++ [.endMarker] ∧ grammar.Declares top ∧
          ∀ symbol ∈ rest, grammar.Declares symbol) ∨
        top = .endMarker ∧ below = []) := by
  rcases hgrounded with ⟨above, hstack, hposition, hdeclared⟩ | ⟨hstack, _⟩
  · refine ⟨hposition, ?_⟩
    cases above with
    | nil => exact Or.inr (by simpa using hstack)
    | cons symbol rest =>
        obtain ⟨rfl, hbelow⟩ : top = symbol ∧ below = rest ++ [.endMarker] := by
          simpa using hstack
        obtain ⟨htop, hrest⟩ := List.forall_mem_cons.mp hdeclared
        exact Or.inl ⟨rest, hbelow, htop, hrest⟩
  · cases hstack

/-- What is on top, if not a nonterminal, matches some lookahead. -/
theorem exists_lookahead
    (hgrounded : (⟨top :: below, position⟩ : Configuration).Grounded grammar terminals)
    (hkind : top.nonterminal? = none) : ∃ expected : Lookahead, top = expected.symbol := by
  obtain ⟨_, ⟨_, _, hdeclared, _⟩ | ⟨htop, _⟩⟩ := hgrounded.cases_top
  · cases top with
    | terminal t => exact ⟨.terminal t, rfl⟩
    | nonterminal n => cases hkind
    | epsilon => exact hdeclared.elim
    | endMarker => exact hdeclared.elim
  · exact ⟨.endMarker, htop⟩

end Configuration.Grounded

namespace Parser

variable {parser : Parser} {terminals : List Terminal} {first second last : Configuration}

theorem grounded_initial (hwell : parser.grammar.WellFormed) (terminals : List Terminal) :
    parser.initial.Grounded parser.grammar terminals := by
  refine Or.inl ⟨[.nonterminal parser.grammar.start], rfl, Nat.zero_le _, ?_⟩
  intro symbol hsymbol
  rw [List.mem_singleton.mp hsymbol]
  exact hwell.declares_start

/-- A step keeps the end of input at the bottom, or consumes it as the last of all. -/
theorem Goes.grounded (hwell : parser.grammar.WellFormed) {action : Action}
    (hgoes : parser.Goes (inputOf terminals) first action second)
    (hfirst : first.Grounded parser.grammar terminals) :
    second.Grounded parser.grammar terminals := by
  cases hgoes with
  | @expand n lookahead id production position _ _ hproduction below =>
      obtain ⟨hposition, ⟨rest, rfl, _, hrest⟩ | ⟨hend, _⟩⟩ := hfirst.cases_top
      · refine Or.inl ⟨production.symbols ++ rest, by simp, hposition, ?_⟩
        have hsymbols := hwell.declares_symbols production (List.mem_of_getElem? hproduction)
        exact List.forall_mem_append.mpr ⟨hsymbols, hrest⟩
      · cases hend
  | @consume lookahead position hlookahead below =>
      obtain ⟨_, hcases⟩ := hfirst.cases_top
      rcases inputOf_eq_some_iff.mp hlookahead with ⟨t, ht, rfl⟩ | ⟨rfl, rfl⟩
      · rcases hcases with ⟨rest, rfl, _, hrest⟩ | ⟨hend, _⟩
        · have hlt := (List.getElem?_eq_some_iff.mp ht).1
          exact Or.inl ⟨rest, rfl, hlt, hrest⟩
        · cases hend
      · rcases hcases with ⟨_, _, hdeclared, _⟩ | ⟨_, rfl⟩
        · exact hdeclared.elim
        · exact Or.inr ⟨rfl, rfl⟩

theorem Moves.grounded (hwell : parser.grammar.WellFormed) {steps : List Step}
    (hmoves : parser.Moves (inputOf terminals) first steps last)
    (hfirst : first.Grounded parser.grammar terminals) :
    last.Grounded parser.grammar terminals := by
  induction hmoves with
  | refl => exact hfirst
  | head hgoes _ ih => exact ih (hgoes.grounded hwell hfirst)

/-- Neither of the stack and the input is used up before the other. -/
theorem Stops.not_one_sided {ending : Ending}
    (hstops : parser.Stops (inputOf terminals) last ending)
    (hlast : last.Grounded parser.grammar terminals) :
    ending ≠ .rejected .unconsumedInput ∧ ending ≠ .rejected .inputExhausted := by
  have hiff := hlast.stack_eq_nil_iff
  cases hstops with
  | endOfStack position =>
      rw [Predictive.endOfStack, if_pos (hiff.mp rfl)]
      exact ⟨Ending.noConfusion, Ending.noConfusion⟩
  | @inputExhausted position hlookahead top below =>
      have hpast := List.getElem?_eq_none_iff.mp hlookahead
      obtain ⟨hposition, _⟩ := hlast.cases_top
      simp [inputOf] at hpast
      omega
  | noRule => simp
  | mismatch => simp

/-- Every step was recorded in a configuration with the end of input at the bottom. -/
theorem Moves.grounded_of_mem (hwell : parser.grammar.WellFormed) {steps : List Step}
    (hmoves : parser.Moves (inputOf terminals) first steps last)
    (hfirst : first.Grounded parser.grammar terminals) {action : Action} {step : Step}
    (hstep : step ∈ steps ++ [last.step action]) :
    step.configuration.Grounded parser.grammar terminals := by
  obtain ⟨count, hcount⟩ := List.getElem?_of_mem hstep
  obtain ⟨middle, _, hbefore, rfl⟩ := hmoves.exists_configuration hcount
  exact hbefore.grounded hwell hfirst

/-- Whatever productions of the grammar a table names, at every step of a parse the stack is
empty exactly if the input is used up, so that no parse ends with only one of them left. -/
theorem parse?_stack_eq_nil_iff {grammar : Grammar} (hfinished : grammar.Finished)
    {table : Table} (hrange : table.InRange grammar) (limit : StepLimit)
    (terminals : List Terminal) :
    ∃ outcome, (⟨grammar, table, limit⟩ : Parser).parse? terminals = some outcome ∧
      outcome.trace.input = inputOf terminals ∧
      (∀ step ∈ outcome.trace.steps,
        step.stack = [] ↔ step.position = outcome.trace.input.length) ∧
      (∀ count, outcome.verdict ≠ .rejected .unconsumedInput count ∧
        outcome.verdict ≠ .rejected .inputExhausted count) ∧
      ∀ step ∈ outcome.trace.steps, step.action ≠ .reject := by
  have hwell := hfinished.wellFormed
  obtain ⟨steps, last, ending, hmoves, hparse, hend⟩ :=
    @exists_parse? ⟨grammar, table, limit⟩ hrange terminals
  have hinitial := @grounded_initial ⟨grammar, table, limit⟩ hwell terminals
  have hending : ending ≠ .rejected .unconsumedInput ∧ ending ≠ .rejected .inputExhausted := by
    rcases hend with ⟨hstops, _⟩ | ⟨rfl, _⟩
    · exact hstops.not_one_sided (hmoves.grounded hwell hinitial)
    · exact ⟨Ending.noConfusion, Ending.noConfusion⟩
  refine ⟨_, hparse, rfl, ?_, ?_, ?_⟩
  · intro step hstep
    exact (hmoves.grounded_of_mem hwell hinitial hstep).stack_eq_nil_iff
  · intro count
    simp only [ne_eq, Ending.verdict_eq_rejected_iff]
    exact ⟨fun hboth => hending.1 hboth.1, fun hboth => hending.2 hboth.1⟩
  · intro step hstep
    rcases List.mem_append.mp hstep with hbefore | hlast
    · intro hreject
      have hgoesOn := hmoves.isFinal_eq_false hbefore
      rw [hreject] at hgoesOn
      cases hgoesOn
    · rw [List.mem_singleton.mp hlast]
      exact ending.action_ne_reject hending

end Parser

/-- For the grammar of expressions: the start symbol is expanded by a production of a factor. -/
def Table.foreignProduction : Table :=
  { Table.empty .lastWins with
    cells := Std.ExtTreeMap.insert ∅ ⟨Grammar.expressions.start, .terminal ⟨4⟩⟩ ⟨7⟩ }

/-- The foreign production is applied, and stack and input still run out together. -/
theorem Parser.parse?_stack_eq_nil_iff_foreignProduction :
    Grammar.expressions.Finished ∧ Table.foreignProduction.InRange .expressions ∧
    (∃ production ∈ Grammar.expressions.productions,
      Table.foreignProduction.get? Grammar.expressions.start (.terminal ⟨4⟩) =
        some production.id ∧ production.lhs ≠ Grammar.expressions.start) ∧
    ∃ outcome, (⟨.expressions, .foreignProduction, .auto⟩ : Parser).parse? [⟨4⟩] = some outcome ∧
      outcome.trace.steps.length = 4 ∧ outcome.verdict = .accepted ∧
      (∀ step ∈ outcome.trace.steps,
        step.stack = [] ↔ step.position = outcome.trace.input.length) ∧
      ∀ step ∈ outcome.trace.steps, step.action ≠ .reject := by
  have hrange : Table.foreignProduction.InRange .expressions := by decide +kernel
  obtain ⟨outcome, hparse, _, hempty, _, hreject⟩ :=
    parse?_stack_eq_nil_iff Grammar.finished_expressions hrange .auto [⟨4⟩]
  have hrun : ((⟨.expressions, .foreignProduction, .auto⟩ : Parser).parse? [⟨4⟩]).map
      (fun outcome => (outcome.trace.steps.length, outcome.verdict)) = some (4, .accepted) := by
    decide +kernel
  rw [hparse, Option.map_some, Option.some.injEq] at hrun
  obtain ⟨hlength, hverdict⟩ := Prod.mk.inj hrun
  exact ⟨Grammar.finished_expressions, hrange, by decide +kernel, outcome, hparse, hlength,
    hverdict, hempty, hreject⟩

end Predictive
