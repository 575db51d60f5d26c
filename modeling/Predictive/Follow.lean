import Predictive.First

/-!
FOLLOW sets: the lookaheads that can come right after a nonterminal.  The end
of input follows the start symbol.  A nonterminal in a right-hand side is
followed by FIRST of the rest of that side and, if the rest is nullable, by all
that follows the left-hand side.
-/

namespace Predictive

/-- Sets of lookaheads, by nonterminal. -/
abbrev LookaheadSets := Std.ExtTreeMap NonTerminal (Std.ExtTreeSet Lookahead)

/-- A place in a right-hand side where a nonterminal stands. -/
structure Occurrence where
  lhs : NonTerminal
  nonterminal : NonTerminal
  /-- The symbols after the nonterminal. -/
  rest : List Symbol
deriving DecidableEq, Repr

/-- The occurrences of nonterminals in a string that `lhs` is expanded into. -/
def occurrencesIn (lhs : NonTerminal) : List Symbol → List Occurrence
  | [] => []
  | .nonterminal n :: rest => ⟨lhs, n, rest⟩ :: occurrencesIn lhs rest
  | .terminal _ :: rest | .epsilon :: rest | .endMarker :: rest => occurrencesIn lhs rest

/-- All occurrences of nonterminals in right-hand sides, in written order. -/
def Grammar.occurrences (grammar : Grammar) : List Occurrence :=
  grammar.productions.flatMap fun production =>
    occurrencesIn production.lhs production.symbols

/-- A set of terminals as a set of lookaheads. -/
def lookaheads (terminals : Std.ExtTreeSet Terminal) : Std.ExtTreeSet Lookahead :=
  .ofList (terminals.toList.map Lookahead.terminal)

/-- The FOLLOW sets of a grammar and the number of passes. -/
@[ext]
structure FollowSets where
  sets : LookaheadSets
  passes : Nat

instance : DecidableEq FollowSets := fun _ _ =>
  decidable_of_decidable_of_iff FollowSets.ext_iff.symm

namespace FollowSets

/-- What an occurrence adds to FOLLOW of its nonterminal.  FOLLOW of the
left-hand side is needed only if the rest is nullable. -/
def gained? (first : FirstSets) (sets : LookaheadSets) (occurrence : Occurrence) :
    Option (Std.ExtTreeSet Lookahead) := do
  let rest ← first.ofSequence? occurrence.rest
  if rest.nullable then
    let inherited ← sets[occurrence.lhs]?
    return lookaheads rest.terminals ∪ inherited
  return lookaheads rest.terminals

/-- Adds what an occurrence gains to FOLLOW of its nonterminal. -/
def visit? (first : FirstSets) (sets : LookaheadSets) (occurrence : Occurrence) :
    Option (LookaheadSets × Option Growth) := do
  let gained ← gained? first sets occurrence
  let old := sets.getD occurrence.nonterminal ∅
  let new := old ∪ gained
  let growth :=
    if new.size = old.size then none else some ⟨occurrence.nonterminal, new.size⟩
  return (sets.insert occurrence.nonterminal new, growth)

/-- Every nonterminal of the grammar has an entry, and the end of input follows
the start symbol. -/
def initial (grammar : Grammar) : LookaheadSets :=
  let blank : LookaheadSets := .ofList (grammar.nonterminals.map (·, ∅))
  blank.insert grammar.start {.endMarker}

/-- The number of lookaheads that FOLLOW sets can hold, counted with repetition:
the terminals of right-hand sides and of FIRST sets, and the end of input. -/
def maxSize (grammar : Grammar) (first : FirstSets) : Nat :=
  grammar.rhsLength + (first.sets.toList.flatMap (·.2.toList)).length + 1

/-- The passes over the occurrences in a grammar.  Each pass but the last adds
a lookahead to the set of a nonterminal in some right-hand side. -/
def saturation? (grammar : Grammar) (first : FirstSets) :
    Option (Saturation LookaheadSets Growth) :=
  saturate (sweep (visit? first) · grammar.occurrences)
    ((grammar.productions.length + grammar.rhsLength) * maxSize grammar first + 1)
    (initial grammar)

def ofGrammar? (grammar : Grammar) (first : FirstSets) : Option FollowSets :=
  (saturation? grammar first).map fun saturation =>
    ⟨saturation.state, saturation.passes⟩

/-- FOLLOW of a nonterminal, if it has an entry. -/
def follow? (follow : FollowSets) (nonterminal : NonTerminal) :
    Option (Std.ExtTreeSet Lookahead) :=
  follow.sets[nonterminal]?

end FollowSets

end Predictive
