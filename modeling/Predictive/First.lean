import Predictive.Nullable

/-!
FIRST sets: the terminals that can begin what a nonterminal derives.  FIRST of
a string is the union of FIRST of its symbols up to and including the first one
that is not nullable.
-/

namespace Predictive

/-- Sets of terminals, by nonterminal. -/
abbrev TerminalSets := Std.ExtTreeMap NonTerminal (Std.ExtTreeSet Terminal)

/-- The terminals that can begin what a string derives, and whether the string
derives the empty string. -/
@[ext]
structure SequenceFirst where
  terminals : Std.ExtTreeSet Terminal
  nullable : Bool

instance : DecidableEq SequenceFirst := fun _ _ =>
  decidable_of_decidable_of_iff SequenceFirst.ext_iff.symm

/-- FIRST of a string, from left to right, given FIRST of the nonterminals.  A
nonterminal without an entry counts as one with the empty set. -/
def TerminalSets.ofSequence? (sets : TerminalSets) (nullable : Nullable) :
    List Symbol → Option SequenceFirst
  | [] => some ⟨∅, true⟩
  | .terminal t :: _ => some ⟨{t}, false⟩
  | .endMarker :: _ => some ⟨∅, false⟩
  | .epsilon :: rest => sets.ofSequence? nullable rest
  | .nonterminal n :: rest => do
      let own := sets.getD n ∅
      if ← nullable.has? n then
        let beyond ← sets.ofSequence? nullable rest
        return ⟨own ∪ beyond.terminals, beyond.nullable⟩
      return ⟨own, false⟩

/-- A set that has grown, and its new size. -/
structure Growth where
  nonterminal : NonTerminal
  size : Nat
deriving DecidableEq, Repr

/-- The FIRST sets of a grammar, the nullable nonterminals that they were
computed with, and the number of passes. -/
@[ext]
structure FirstSets where
  sets : TerminalSets
  nullable : Nullable
  passes : Nat

instance : DecidableEq FirstSets := fun _ _ =>
  decidable_of_decidable_of_iff FirstSets.ext_iff.symm

namespace FirstSets

/-- Adds FIRST of a right-hand side to the set of the left-hand side. -/
def visit? (nullable : Nullable) (sets : TerminalSets) (production : Production) :
    Option (TerminalSets × Option Growth) := do
  let gained ← sets.ofSequence? nullable production.rhs
  let old := sets.getD production.lhs ∅
  let new := old ∪ gained.terminals
  let growth := if new.size = old.size then none else some ⟨production.lhs, new.size⟩
  return (sets.insert production.lhs new, growth)

/-- Every nonterminal of the grammar has an entry, empty at first. -/
def initial (grammar : Grammar) : TerminalSets :=
  .ofList (grammar.nonterminals.map (·, ∅))

/-- The passes over a grammar's productions.  Each pass but the last adds a
terminal of some right-hand side to the set of some left-hand side. -/
def saturation? (grammar : Grammar) (nullable : Nullable) :
    Option (Saturation TerminalSets Growth) :=
  saturate (sweep (visit? nullable) · grammar.productions)
    (grammar.productions.length * (grammar.rhsLength + 1) + 1) (initial grammar)

def ofGrammar? (grammar : Grammar) (nullable : Nullable) : Option FirstSets :=
  (saturation? grammar nullable).map fun saturation =>
    ⟨saturation.state, nullable, saturation.passes⟩

/-- FIRST of a nonterminal, if it has an entry. -/
def first? (first : FirstSets) (nonterminal : NonTerminal) :
    Option (Std.ExtTreeSet Terminal) :=
  first.sets[nonterminal]?

/-- FIRST of a string of symbols. -/
def ofSequence? (first : FirstSets) (symbols : List Symbol) : Option SequenceFirst :=
  first.sets.ofSequence? first.nullable symbols

end FirstSets

end Predictive
