import Predictive.Grammar
import Predictive.Marks
import Predictive.Saturation

/-!
Nullable nonterminals: those that derive the empty string.  A nonterminal is
marked when one of its right-hand sides consists of ε and marked nonterminals.
-/

namespace Predictive

/-- Whether every symbol of a string is ε or a marked nonterminal.  The scan
stops at the first symbol that is not. -/
def Marks.derivesEmpty? (marks : Marks) : List Symbol → Option Bool
  | [] => some true
  | .epsilon :: rest => marks.derivesEmpty? rest
  | .nonterminal n :: rest => do
      if ← marks.has? n then marks.derivesEmpty? rest else return false
  | .terminal _ :: _ | .endMarker :: _ => some false

/-- The nullable nonterminals of a grammar, with the number of passes that it
took to find them. -/
structure Nullable where
  marks : Marks
  passes : Nat
deriving DecidableEq, Repr

namespace Nullable

/-- Marks the left-hand side of a production, if that is due. -/
def visit? (marks : Marks) (production : Production) :
    Option (Marks × Option NonTerminal) := do
  if ← marks.has? production.lhs then return (marks, none)
  if ← marks.derivesEmpty? production.rhs then
    return (marks.mark production.lhs, some production.lhs)
  return (marks, none)

/-- The passes over a grammar's productions.  Each pass but the last marks a
left-hand side, so there is at most one more pass than there are productions. -/
def saturation? (grammar : Grammar) : Option (Saturation Marks NonTerminal) :=
  saturate (sweep visit? · grammar.productions) (grammar.productions.length + 1)
    (.blank grammar.numNonterminals)

def ofGrammar? (grammar : Grammar) : Option Nullable :=
  (saturation? grammar).map fun saturation => ⟨saturation.state, saturation.passes⟩

/-- Whether a nonterminal derives the empty string. -/
def has? (nullable : Nullable) (nonterminal : NonTerminal) : Option Bool :=
  nullable.marks.has? nonterminal

/-- Whether a string of symbols derives the empty string. -/
def derivesEmpty? (nullable : Nullable) (symbols : List Symbol) : Option Bool :=
  nullable.marks.derivesEmpty? symbols

/-- The nullable nonterminals, by index. -/
def nonterminals (nullable : Nullable) : List NonTerminal := nullable.marks.marked

end Nullable

end Predictive
