import Predictive.Production

/-!
Outcomes of parsing.  An outcome is the trace of the stack machine, step by
step, and the verdict that the last step led to.
-/

namespace Predictive

/-- What the machine does in a step. -/
inductive Action where
  /-- The symbol on top of the stack matches the lookahead; both are consumed. -/
  | consume
  /-- The nonterminal on top of the stack is expanded by a production. -/
  | expand (production : ProductionId)
  /-- The symbol on top of the stack differs from the lookahead. -/
  | mismatch
  /-- The table has no production for the nonterminal under the lookahead. -/
  | noRule
  /-- The stack and the input are both used up. -/
  | accept
  /-- Only one of the stack and the input is used up. -/
  | reject
  /-- The machine may go no further. -/
  | stepBoundExceeded
deriving DecidableEq, Repr

/-- One step, with the stack and the position before the action. -/
structure Step where
  /-- The stack, its top first. -/
  stack : List Symbol
  /-- The number of lookaheads consumed. -/
  position : Nat
  action : Action
deriving DecidableEq, Repr

/-- The steps of one parse and the input, which the end of input closes. -/
structure Trace where
  input : List Lookahead
  steps : List Step
deriving DecidableEq, Repr

namespace Trace

def length (trace : Trace) : Nat := trace.steps.length

/-- The input that a step has before it. -/
def remaining (trace : Trace) (step : Step) : List Lookahead :=
  trace.input.drop step.position

/-- The productions applied, in order. -/
def applied (trace : Trace) : List ProductionId :=
  trace.steps.filterMap fun step =>
    match step.action with
    | .expand production => some production
    | _ => none

end Trace

/-- Why an input is rejected. -/
inductive RejectReason where
  | mismatch (expected : Symbol) (found : Lookahead)
  | noRule (nonterminal : NonTerminal) (lookahead : Lookahead)
  /-- The stack is used up before the input. -/
  | unconsumedInput
  /-- The input is used up before the stack. -/
  | inputExhausted
deriving DecidableEq, Repr

/-- What a parse comes to.  Steps are counted from zero. -/
inductive Verdict where
  | accepted
  | rejected (reason : RejectReason) (step : Nat)
  | stepBoundExceeded (limit step : Nat)
deriving DecidableEq, Repr

structure Outcome where
  trace : Trace
  verdict : Verdict
deriving DecidableEq, Repr

namespace Outcome

def isAccepted (outcome : Outcome) : Bool := outcome.verdict = .accepted

/-- The step at which the input was rejected, if it was. -/
def rejectedAt? (outcome : Outcome) : Option Nat :=
  match outcome.verdict with
  | .rejected _ step => some step
  | _ => none

end Outcome

end Predictive
