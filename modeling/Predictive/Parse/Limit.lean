/-!
Limits on the number of transitions in one parse.
-/

namespace Predictive

/-- How many transitions a parse may make. -/
inductive StepLimit where
  /-- A number that grows with the input and with the grammar. -/
  | auto
  | fixed (transitions : Nat)
deriving DecidableEq, Repr

namespace StepLimit

/-- What the automatic limit allows in any case. -/
def baseSteps : Nat := 1000

/-- What the automatic limit allows per lookahead and production. -/
def stepsPerSymbol : Nat := 32

/-- The largest number of transitions, that of a 64-bit counter. -/
def ceiling : Nat := UInt64.size - 1

/-- The number of transitions allowed for an input of the given length, the end
of input not counted.  The automatic limit stops at the ceiling. -/
def maxSteps (limit : StepLimit) (productions inputLength : Nat) : Nat :=
  match limit with
  | auto => min (baseSteps + stepsPerSymbol * (inputLength + 1) * (productions + 1)) ceiling
  | fixed transitions => transitions

end StepLimit

end Predictive
