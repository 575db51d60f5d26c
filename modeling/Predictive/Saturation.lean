/-!
Saturation.  A pass visits every item of a list in order, and each visit sees
what the visits before it have changed.  Passes are repeated until one changes
nothing.  A visit may also fail, and then the whole computation does.
-/

namespace Predictive

variable {State Item Change : Type}

/-- One pass: visits the items from left to right and collects the changes. -/
def sweep (visit? : State → Item → Option (State × Option Change)) :
    State → List Item → Option (State × List Change)
  | state, [] => some (state, [])
  | state, item :: rest => do
      let (next, change) ← visit? state item
      let (last, changes) ← sweep visit? next rest
      return (last, change.toList ++ changes)

/-- The last state, with the changes of every pass.  The last pass is listed,
too, though it changed nothing. -/
structure Saturation (State Change : Type) where
  state : State
  rounds : List (List Change)

namespace Saturation

/-- The number of passes, including the last one. -/
def passes (saturation : Saturation State Change) : Nat := saturation.rounds.length

/-- All changes, in the order in which they happened. -/
def changes (saturation : Saturation State Change) : List Change :=
  saturation.rounds.flatten

end Saturation

/-- Repeats a pass until it changes nothing, at most `bound` times. -/
def saturate (pass? : State → Option (State × List Change)) :
    (bound : Nat) → State → Option (Saturation State Change)
  | 0, state => some ⟨state, []⟩
  | bound + 1, state => do
      let (next, changes) ← pass? state
      if changes.isEmpty then return ⟨next, [changes]⟩
      let rest ← saturate pass? bound next
      return ⟨rest.state, changes :: rest.rounds⟩

end Predictive
