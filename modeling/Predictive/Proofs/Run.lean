import Predictive.Parse.Parser
import Predictive.Proofs.Table

/-!
Runs of the stack machine.  In every configuration the machine goes on or stops, in
one way only, and a chain of steps is recorded as the trace records it.  A parse is
such a chain from the initial configuration, as long as the limit allows, and one last
step that says how it ends.
-/

namespace Predictive

theorem Ending.verdict_eq_accepted_iff {limit step : Nat} {ending : Ending} :
    ending.verdict limit step = .accepted ↔ ending = .accepted := by
  cases ending <;> simp [Ending.verdict]

theorem Ending.verdict_eq_rejected_iff {limit step count : Nat} {ending : Ending}
    {reason : RejectReason} :
    ending.verdict limit step = .rejected reason count ↔
      ending = .rejected reason ∧ step = count := by
  cases ending <;> simp [Ending.verdict]

theorem Ending.verdict_ne_stepBoundExceeded {ending : Ending}
    (hending : ending ≠ .stepBoundExceeded) (limit step most count : Nat) :
    ending.verdict limit step ≠ .stepBoundExceeded most count := by
  cases ending with
  | accepted => exact Verdict.noConfusion
  | rejected reason => exact Verdict.noConfusion
  | stepBoundExceeded => exact absurd rfl hending

/-- Whether the action ends the run. -/
def Action.isFinal : Action → Bool
  | consume | expand _ => false
  | mismatch | noRule | accept | reject | stepBoundExceeded => true

theorem Ending.isFinal_action (ending : Ending) : ending.action.isFinal = true := by
  cases ending with
  | accepted => rfl
  | rejected reason => cases reason <;> rfl
  | stepBoundExceeded => rfl

theorem Ending.action_ne_reject {ending : Ending}
    (hending : ending ≠ .rejected .unconsumedInput ∧ ending ≠ .rejected .inputExhausted) :
    ending.action ≠ .reject := by
  obtain ⟨hinput, hstack⟩ := hending
  cases ending with
  | accepted => exact Action.noConfusion
  | stepBoundExceeded => exact Action.noConfusion
  | rejected reason =>
      cases reason with
      | mismatch => exact Action.noConfusion
      | noRule => exact Action.noConfusion
      | unconsumedInput => exact absurd rfl hinput
      | inputExhausted => exact absurd rfl hstack

/-- The configuration that a step was recorded in. -/
def Step.configuration (step : Step) : Configuration := ⟨step.stack, step.position⟩

namespace Parser

/-- The machine goes on, by an action, in another configuration. -/
inductive Goes (parser : Parser) (input : List Lookahead) :
    Configuration → Action → Configuration → Prop where
  | expand {n : NonTerminal} {lookahead : Lookahead} {id : ProductionId}
      {production : Production} {position : Nat}
      (hlookahead : input[position]? = some lookahead)
      (hcell : parser.table.get? n lookahead = some id)
      (hproduction : parser.grammar.production? id = some production)
      (below : List Symbol) :
      parser.Goes input ⟨.nonterminal n :: below, position⟩ (.expand id)
        ⟨production.symbols ++ below, position⟩
  | consume {lookahead : Lookahead} {position : Nat}
      (hlookahead : input[position]? = some lookahead) (below : List Symbol) :
      parser.Goes input ⟨lookahead.symbol :: below, position⟩ .consume ⟨below, position + 1⟩

/-- The machine comes to an end, whatever the limit. -/
inductive Stops (parser : Parser) (input : List Lookahead) : Configuration → Ending → Prop where
  | endOfStack (position : Nat) :
      parser.Stops input ⟨[], position⟩ (endOfStack input position)
  | inputExhausted {position : Nat} (hlookahead : input[position]? = none) (top : Symbol)
      (below : List Symbol) :
      parser.Stops input ⟨top :: below, position⟩ (.rejected .inputExhausted)
  | noRule {n : NonTerminal} {lookahead : Lookahead} {position : Nat}
      (hlookahead : input[position]? = some lookahead)
      (hcell : parser.table.get? n lookahead = none) (below : List Symbol) :
      parser.Stops input ⟨.nonterminal n :: below, position⟩ (.rejected (.noRule n lookahead))
  | mismatch {top : Symbol} {lookahead : Lookahead} {position : Nat}
      (hlookahead : input[position]? = some lookahead) (hkind : top.nonterminal? = none)
      (hother : top.lookahead? ≠ some lookahead) (below : List Symbol) :
      parser.Stops input ⟨top :: below, position⟩ (.rejected (.mismatch top lookahead))

/-- The machine makes the recorded steps, one after the other. -/
inductive Moves (parser : Parser) (input : List Lookahead) :
    Configuration → List Step → Configuration → Prop where
  | refl (configuration : Configuration) : parser.Moves input configuration [] configuration
  | head {first second last : Configuration} {action : Action} {steps : List Step}
      (hgoes : parser.Goes input first action second)
      (hrest : parser.Moves input second steps last) :
      parser.Moves input first (first.step action :: steps) last

variable {parser : Parser} {input : List Lookahead} {first second last : Configuration}

/-- A lookahead is a terminal of the input, or the end of input right after them. -/
theorem inputOf_eq_some_iff {terminals : List Terminal} {position : Nat}
    {lookahead : Lookahead} :
    (inputOf terminals)[position]? = some lookahead ↔
      (∃ t, terminals[position]? = some t ∧ lookahead = .terminal t) ∨
        position = terminals.length ∧ lookahead = .endMarker := by
  unfold inputOf
  rw [List.getElem?_append]
  split
  · rename_i hlt
    rw [List.length_map] at hlt
    simp only [List.getElem?_map, Option.map_eq_some_iff, Nat.ne_of_lt hlt, false_and, or_false]
    exact exists_congr fun t => and_congr_right fun _ => eq_comm
  · rename_i hle
    rw [List.length_map, Nat.not_lt] at hle
    rw [List.length_map, List.getElem?_eq_none hle]
    simp only [reduceCtorEq, false_and, exists_false, false_or]
    rcases Nat.eq_or_lt_of_le hle with heq | hlt
    · simp [heq, eq_comm]
    · have hpast : [Lookahead.endMarker][position - terminals.length]? = none :=
        List.getElem?_eq_none (Nat.sub_pos_of_lt hlt)
      simp [hpast, Nat.ne_of_gt hlt]

theorem Goes.move?_eq {action : Action} (hgoes : parser.Goes input first action second) :
    parser.move? input first = some (.go action second) := by
  cases hgoes with
  | expand hlookahead hcell hproduction below =>
      simp [move?, hlookahead, hcell, hproduction]
  | @consume lookahead position hlookahead below =>
      cases lookahead with
      | terminal t => simp [move?, hlookahead, Lookahead.symbol, Symbol.lookahead?]
      | endMarker => simp [move?, hlookahead, Lookahead.symbol, Symbol.lookahead?]

theorem Stops.move?_eq {ending : Ending} (hstops : parser.Stops input first ending) :
    parser.move? input first = some (.stop ending) := by
  cases hstops with
  | endOfStack position => rfl
  | inputExhausted hlookahead top below => simp [move?, hlookahead]
  | noRule hlookahead hcell below => simp [move?, hlookahead, hcell]
  | @mismatch top lookahead position hlookahead hkind hother below =>
      cases top with
      | nonterminal n => cases hkind
      | terminal t => simp [move?, hlookahead, hother]
      | epsilon => simp [move?, hlookahead, hother]
      | endMarker => simp [move?, hlookahead, hother]

/-- With a table of the grammar's productions the machine goes on or stops. -/
theorem goes_or_stops (hrange : parser.table.InRange parser.grammar)
    (configuration : Configuration) :
    (∃ action next, parser.Goes input configuration action next) ∨
      ∃ ending, parser.Stops input configuration ending := by
  obtain ⟨stack, position⟩ := configuration
  cases stack with
  | nil => exact Or.inr ⟨_, Stops.endOfStack position⟩
  | cons top below =>
      cases hlookahead : input[position]? with
      | none => exact Or.inr ⟨_, Stops.inputExhausted hlookahead top below⟩
      | some lookahead =>
          by_cases htop : top.lookahead? = some lookahead
          · rw [Symbol.lookahead?_eq_some_iff] at htop
            subst htop
            exact Or.inl ⟨_, _, Goes.consume hlookahead below⟩
          · cases hkind : top.nonterminal? with
            | none => exact Or.inr ⟨_, Stops.mismatch hlookahead hkind htop below⟩
            | some n =>
                obtain rfl := Symbol.nonterminal?_eq_some_iff.mp hkind
                cases hcell : parser.table.get? n lookahead with
                | none => exact Or.inr ⟨_, Stops.noRule hlookahead hcell below⟩
                | some id =>
                    obtain ⟨production, hproduction⟩ := hrange.exists_production? hcell
                    exact Or.inl ⟨_, _, Goes.expand hlookahead hcell hproduction below⟩

/-- Only the limit ends a run before the machine stops. -/
theorem Stops.ne_stepBoundExceeded {ending : Ending}
    (hstops : parser.Stops input first ending) : ending ≠ .stepBoundExceeded := by
  cases hstops with
  | endOfStack position => unfold Predictive.endOfStack; split <;> simp
  | inputExhausted => simp
  | noRule => simp
  | mismatch => simp

/-- A run is accepted with the stack and the input both used up. -/
theorem stops_accepted_iff :
    parser.Stops input first .accepted ↔ first.stack = [] ∧ first.position = input.length := by
  constructor
  · generalize hending : Ending.accepted = ending
    intro hstops
    cases hstops with
    | endOfStack position =>
        unfold Predictive.endOfStack at hending
        split at hending
        · rename_i hposition
          exact ⟨rfl, hposition⟩
        · cases hending
    | inputExhausted => cases hending
    | noRule => cases hending
    | mismatch => cases hending
  · obtain ⟨stack, position⟩ := first
    rintro ⟨rfl, rfl⟩
    have hstops := @Stops.endOfStack parser input input.length
    simpa [Predictive.endOfStack] using hstops

theorem Moves.single {action : Action} (hgoes : parser.Goes input first action second) :
    parser.Moves input first [first.step action] second :=
  Moves.head hgoes (Moves.refl second)

theorem Moves.trans {steps steps' : List Step} (hleft : parser.Moves input first steps second)
    (hright : parser.Moves input second steps' last) :
    parser.Moves input first (steps ++ steps') last := by
  induction hleft with
  | refl => exact hright
  | head hgoes _ ih => exact Moves.head hgoes (ih hright)

/-- A run can be interrupted after any number of steps. -/
theorem Moves.exists_middle {steps : List Step} (hmoves : parser.Moves input first steps last)
    {count : Nat} (hcount : count ≤ steps.length) :
    ∃ middle, parser.Moves input first (steps.take count) middle ∧
      parser.Moves input middle (steps.drop count) last := by
  induction hmoves generalizing count with
  | refl configuration =>
      simp only [List.take_nil, List.drop_nil]
      exact ⟨configuration, Moves.refl configuration, Moves.refl configuration⟩
  | head hgoes hrest ih =>
      cases count with
      | zero => exact ⟨_, Moves.refl _, Moves.head hgoes hrest⟩
      | succ count =>
          obtain ⟨middle, hbefore, hafter⟩ := ih (Nat.le_of_succ_le_succ hcount)
          exact ⟨middle, Moves.head hgoes hbefore, hafter⟩

/-- A run is recorded from its first configuration on. -/
theorem Moves.exists_head {steps : List Step} (hmoves : parser.Moves input first steps last)
    (action : Action) :
    ∃ action' rest, steps ++ [last.step action] = first.step action' :: rest := by
  cases hmoves with
  | refl => exact ⟨action, [], rfl⟩
  | head hgoes hrest => exact ⟨_, _, rfl⟩

/-- Every recorded step was made in a configuration of the run. -/
theorem Moves.exists_configuration {steps : List Step}
    (hmoves : parser.Moves input first steps last) {action : Action} {count : Nat}
    {step : Step} (hstep : (steps ++ [last.step action])[count]? = some step) :
    ∃ middle action', parser.Moves input first (steps.take count) middle ∧
      step = middle.step action' := by
  induction hmoves generalizing count with
  | refl configuration =>
      cases count with
      | zero => exact ⟨configuration, action, Moves.refl configuration, by simpa using hstep.symm⟩
      | succ count => simp at hstep
  | @head first second last action steps hgoes hrest ih =>
      cases count with
      | zero => exact ⟨first, action, Moves.refl first, by simpa using hstep.symm⟩
      | succ count =>
          obtain ⟨middle, action', hbefore, hmiddle⟩ := ih (by simpa using hstep)
          exact ⟨middle, action', Moves.head hgoes hbefore, hmiddle⟩

/-- A run that goes on after a configuration has a stack there. -/
theorem Moves.stack_ne_nil {steps : List Step} (hmoves : parser.Moves input first steps last)
    (hsteps : steps ≠ []) : first.stack ≠ [] := by
  cases hmoves with
  | refl => exact absurd rfl hsteps
  | head hgoes _ =>
      cases hgoes with
      | expand => exact List.cons_ne_nil _ _
      | consume => exact List.cons_ne_nil _ _

/-- No step but the last one ends the run. -/
theorem Moves.isFinal_eq_false {steps : List Step} (hmoves : parser.Moves input first steps last)
    {step : Step} (hstep : step ∈ steps) : step.action.isFinal = false := by
  induction hmoves with
  | refl => cases hstep
  | head hgoes _ ih =>
      rcases List.mem_cons.mp hstep with rfl | hlater
      · cases hgoes <;> rfl
      · exact ih hlater

/-- The machine has no choice of where to go. -/
theorem Goes.unique {action action' : Action} {second' : Configuration}
    (hgoes : parser.Goes input first action second)
    (hgoes' : parser.Goes input first action' second') :
    action = action' ∧ second = second' := by
  have hsame := hgoes.move?_eq.symm.trans hgoes'.move?_eq
  simpa using hsame

theorem Stops.not_goes {ending : Ending} (hstops : parser.Stops input first ending)
    {action : Action} : ¬ parser.Goes input first action second := by
  intro hgoes
  have hsame := hstops.move?_eq.symm.trans hgoes.move?_eq
  simp at hsame

/-- A nonterminal on top gives way to one of its right-hand sides. -/
theorem Goes.exists_production (hsound : parser.table.Sound parser.grammar) {n : NonTerminal}
    {below : List Symbol} {position : Nat} {action : Action}
    (hgoes : parser.Goes input ⟨.nonterminal n :: below, position⟩ action second) :
    ∃ production ∈ parser.grammar.productions, production.lhs = n ∧
      second = ⟨production.symbols ++ below, position⟩ := by
  generalize hfirst : (⟨.nonterminal n :: below, position⟩ : Configuration) = first at hgoes
  cases hgoes with
  | @expand m lookahead id production _ _ hcell hproduction _ =>
      obtain ⟨⟨rfl, rfl⟩, rfl⟩ : (n = m ∧ _) ∧ _ := by simpa using hfirst
      have hlhs := (hsound.of_production? hcell hproduction).1
      exact ⟨production, List.mem_of_getElem? hproduction, hlhs, rfl⟩
  | @consume lookahead => cases lookahead <;> cases hfirst

/-- Any other symbol on top gives way to nothing, and a lookahead is consumed. -/
theorem Goes.eq_of_nonterminal?_eq_none {top : Symbol} (hkind : top.nonterminal? = none)
    {below : List Symbol} {position : Nat} {action : Action}
    (hgoes : parser.Goes input ⟨top :: below, position⟩ action second) :
    position < input.length ∧ second = ⟨below, position + 1⟩ := by
  cases hgoes with
  | expand => cases hkind
  | consume hlookahead => exact ⟨(List.getElem?_eq_some_iff.mp hlookahead).1, rfl⟩

/-- A run that has come to an end goes through every other run from where it began. -/
theorem Moves.exists_rest {steps steps' : List Step} {ending : Ending} {middle : Configuration}
    (hmoves : parser.Moves input first steps last) (hstops : parser.Stops input last ending)
    (hmoves' : parser.Moves input first steps' middle) :
    ∃ rest, steps = steps' ++ rest ∧ parser.Moves input middle rest last := by
  induction hmoves' generalizing steps with
  | refl => exact ⟨steps, rfl, hmoves⟩
  | head hgoes _ ih =>
      cases hmoves with
      | refl => exact absurd hgoes hstops.not_goes
      | head hgoes' hrest =>
          obtain ⟨rfl, rfl⟩ := hgoes.unique hgoes'
          obtain ⟨rest, rfl, hlast⟩ := ih hrest
          exact ⟨rest, rfl, hlast⟩

/-- Two runs that come to an end are the same run. -/
theorem Moves.eq_of_stops {steps steps' : List Step} {ending ending' : Ending}
    {last' : Configuration} (hmoves : parser.Moves input first steps last)
    (hstops : parser.Stops input last ending) (hmoves' : parser.Moves input first steps' last')
    (hstops' : parser.Stops input last' ending') : steps = steps' := by
  obtain ⟨rest, rfl, hrest⟩ := hmoves.exists_rest hstops hmoves'
  cases hrest with
  | refl => exact List.append_nil steps'
  | head hgoes _ => exact absurd hgoes hstops'.not_goes

/-- Making steps uses up the bound. -/
theorem Moves.run?_eq {steps : List Step} (hmoves : parser.Moves input first steps last)
    {bound : Nat} (hbound : steps.length ≤ bound) (past : List Step) :
    parser.run? input bound first past =
      parser.run? input (bound - steps.length) last (steps.reverse ++ past) := by
  induction hmoves generalizing bound past with
  | refl => rfl
  | @head first second last action steps hgoes _ ih =>
      obtain ⟨less, rfl⟩ := Nat.exists_eq_add_of_le' hbound
      rw [List.length_cons, ← Nat.add_assoc, run?, hgoes.move?_eq]
      simp only
      rw [ih (Nat.le_add_left _ _)]
      simp

theorem Stops.run?_eq {ending : Ending} (hstops : parser.Stops input first ending)
    {bound : Nat} (hbound : 0 < bound ∨ first.stack = []) (past : List Step) :
    parser.run? input bound first past = some (first.step ending.action :: past, ending) := by
  cases bound with
  | succ bound => rw [run?, hstops.move?_eq]
  | zero =>
      have hstack := hbound.resolve_left (Nat.lt_irrefl 0)
      cases hstops with
      | endOfStack position => rfl
      | inputExhausted => cases hstack
      | noRule => cases hstack
      | mismatch => cases hstack

theorem run?_zero (hstack : first.stack ≠ []) (past : List Step) :
    parser.run? input 0 first past =
      some (first.step .stepBoundExceeded :: past, .stepBoundExceeded) := by
  simp [run?, hstack, Ending.action]

/-- With a table of the grammar's productions the machine stops within the bound or uses it
up. -/
theorem exists_moves (hrange : parser.table.InRange parser.grammar) (input : List Lookahead)
    (bound : Nat) (first : Configuration) :
    ∃ steps last, parser.Moves input first steps last ∧
      ((∃ ending, parser.Stops input last ending) ∧
          (steps.length < bound ∨ steps.length = bound ∧ last.stack = []) ∨
        steps.length = bound ∧ last.stack ≠ []) := by
  induction bound generalizing first with
  | zero =>
      refine ⟨[], first, Moves.refl first, ?_⟩
      by_cases hstack : first.stack = []
      · obtain ⟨stack, position⟩ := first
        obtain rfl : stack = [] := hstack
        exact Or.inl ⟨⟨_, Stops.endOfStack position⟩, Or.inr ⟨rfl, rfl⟩⟩
      · exact Or.inr ⟨rfl, hstack⟩
  | succ bound ih =>
      rcases goes_or_stops hrange first with ⟨action, second, hgoes⟩ | hstops
      · obtain ⟨steps, last, hmoves, hend⟩ := ih second
        refine ⟨first.step action :: steps, last, Moves.head hgoes hmoves, ?_⟩
        simpa only [List.length_cons, Nat.add_lt_add_iff_right, Nat.add_right_cancel_iff]
          using hend
      · exact ⟨[], first, Moves.refl first, Or.inl ⟨hstops, Or.inl (Nat.succ_pos bound)⟩⟩

/-- A parse whose run comes to an end within the limit. -/
theorem parse?_of_stops {terminals : List Terminal} {steps : List Step} {ending : Ending}
    (hmoves : parser.Moves (inputOf terminals) parser.initial steps last)
    (hstops : parser.Stops (inputOf terminals) last ending)
    (hbound : steps.length < parser.maxSteps terminals.length ∨
      steps.length = parser.maxSteps terminals.length ∧ last.stack = []) :
    parser.parse? terminals = some
      { trace := ⟨inputOf terminals, steps ++ [last.step ending.action]⟩
        verdict := ending.verdict (parser.maxSteps terminals.length) steps.length } := by
  have hle : steps.length ≤ parser.maxSteps terminals.length := by omega
  have hrest : 0 < parser.maxSteps terminals.length - steps.length ∨ last.stack = [] := by
    rcases hbound with hlt | ⟨_, hstack⟩
    · exact Or.inl (Nat.sub_pos_of_lt hlt)
    · exact Or.inr hstack
  simp [parse?, hmoves.run?_eq hle, hstops.run?_eq hrest]

/-- A parse whose run uses up the limit. -/
theorem parse?_of_stack_ne_nil {terminals : List Terminal} {steps : List Step}
    (hmoves : parser.Moves (inputOf terminals) parser.initial steps last)
    (hbound : steps.length = parser.maxSteps terminals.length) (hstack : last.stack ≠ []) :
    parser.parse? terminals = some
      { trace := ⟨inputOf terminals, steps ++ [last.step .stepBoundExceeded]⟩
        verdict := .stepBoundExceeded (parser.maxSteps terminals.length)
          (parser.maxSteps terminals.length) } := by
  have hrun := hmoves.run?_eq (Nat.le_of_eq hbound) []
  rw [hbound, Nat.sub_self, run?_zero hstack] at hrun
  simp [parse?, hrun, Ending.verdict, hbound]

/-- With a table of the grammar's productions every parse is a run and the step that ends
it: the machine stops within the limit or uses it up. -/
theorem exists_parse? (hrange : parser.table.InRange parser.grammar)
    (terminals : List Terminal) :
    ∃ steps last ending, parser.Moves (inputOf terminals) parser.initial steps last ∧
      parser.parse? terminals = some
        { trace := ⟨inputOf terminals, steps ++ [last.step ending.action]⟩
          verdict := ending.verdict (parser.maxSteps terminals.length) steps.length } ∧
      (parser.Stops (inputOf terminals) last ending ∧
          (steps.length < parser.maxSteps terminals.length ∨
            steps.length = parser.maxSteps terminals.length ∧ last.stack = []) ∨
        ending = .stepBoundExceeded ∧ steps.length = parser.maxSteps terminals.length ∧
          last.stack ≠ []) := by
  obtain ⟨steps, last, hmoves, ⟨⟨ending, hstops⟩, hbound⟩ | ⟨hbound, hstack⟩⟩ :=
    exists_moves hrange (inputOf terminals) (parser.maxSteps terminals.length) parser.initial
  · exact ⟨steps, last, ending, hmoves, parse?_of_stops hmoves hstops hbound,
      Or.inl ⟨hstops, hbound⟩⟩
  · refine ⟨steps, last, .stepBoundExceeded, hmoves, ?_, Or.inr ⟨rfl, hbound, hstack⟩⟩
    rw [parse?_of_stack_ne_nil hmoves hbound hstack, hbound]
    rfl

/-- Every parse is a run and the step that ends it. -/
theorem parse?_eq (hsound : parser.table.Sound parser.grammar) (terminals : List Terminal) :
    ∃ steps last ending, parser.Moves (inputOf terminals) parser.initial steps last ∧
      parser.parse? terminals = some
        { trace := ⟨inputOf terminals, steps ++ [last.step ending.action]⟩
          verdict := ending.verdict (parser.maxSteps terminals.length) steps.length } ∧
      (ending = .stepBoundExceeded ∧ steps.length = parser.maxSteps terminals.length ∨
        parser.Stops (inputOf terminals) last ending) := by
  obtain ⟨steps, last, ending, hmoves, hparse, ⟨hstops, _⟩ | ⟨hending, hbound, _⟩⟩ :=
    exists_parse? hsound.inRange terminals
  · exact ⟨steps, last, ending, hmoves, hparse, Or.inr hstops⟩
  · exact ⟨steps, last, ending, hmoves, hparse, Or.inl ⟨hending, hbound⟩⟩

/-- A parse whose run is cut off by the limit: it goes as far as the limit allows. -/
theorem parse?_of_le {terminals : List Terminal} {steps : List Step}
    (hmoves : parser.Moves (inputOf terminals) parser.initial steps last)
    (hbound : parser.maxSteps terminals.length ≤ steps.length)
    (hlast : steps.length = parser.maxSteps terminals.length → last.stack ≠ []) :
    ∃ middle : Configuration,
      parser.Moves (inputOf terminals) middle
        (steps.drop (parser.maxSteps terminals.length)) last ∧
      parser.parse? terminals = some
        { trace := ⟨inputOf terminals, steps.take (parser.maxSteps terminals.length) ++
            [middle.step .stepBoundExceeded]⟩
          verdict := .stepBoundExceeded (parser.maxSteps terminals.length)
            (parser.maxSteps terminals.length) } := by
  obtain ⟨middle, hbefore, hafter⟩ := hmoves.exists_middle hbound
  have hlength := List.length_take_of_le hbound
  have hstack : middle.stack ≠ [] := by
    generalize hrest : steps.drop (parser.maxSteps terminals.length) = rest at hafter
    cases hafter with
    | refl =>
        have hshort := List.drop_eq_nil_iff.mp hrest
        exact hlast (Nat.le_antisymm hshort hbound)
    | head hgoes hlater =>
        exact (Moves.head hgoes hlater).stack_ne_nil (List.cons_ne_nil _ _)
  exact ⟨middle, hafter, parse?_of_stack_ne_nil hbefore hlength hstack⟩

/-- A parse whose run is longer than the limit. -/
theorem parse?_of_lt {terminals : List Terminal} {steps : List Step}
    (hmoves : parser.Moves (inputOf terminals) parser.initial steps last)
    (hbound : parser.maxSteps terminals.length < steps.length) :
    ∃ middle : Configuration, parser.parse? terminals = some
      { trace := ⟨inputOf terminals, steps.take (parser.maxSteps terminals.length) ++
          [middle.step .stepBoundExceeded]⟩
        verdict := .stepBoundExceeded (parser.maxSteps terminals.length)
          (parser.maxSteps terminals.length) } := by
  obtain ⟨middle, _, hparse⟩ := parse?_of_le hmoves (Nat.le_of_lt hbound)
    fun hlength => absurd hlength (Nat.ne_of_gt hbound)
  exact ⟨middle, hparse⟩

end Parser

end Predictive
