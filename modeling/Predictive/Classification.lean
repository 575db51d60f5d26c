import Predictive.Table

/-!
Classification of nonterminals.  A nonterminal is context-free if its row has a
conflict, or if one of its right-hand sides mentions a context-free nonterminal;
any other nonterminal is LL(1).
-/

namespace Predictive

/-- The class of a nonterminal. -/
inductive NonTerminalClass where
  | ll1
  | contextFree
deriving DecidableEq, Repr

/-- Whether a string mentions a marked nonterminal.  The scan stops at the first
one. -/
def Marks.mentioned? (marks : Marks) : List Symbol → Option Bool
  | [] => some false
  | .nonterminal n :: rest => do
      if ← marks.has? n then return true else marks.mentioned? rest
  | .terminal _ :: rest | .epsilon :: rest | .endMarker :: rest => marks.mentioned? rest

/-- The class of every nonterminal of a grammar. -/
@[ext]
structure Classification where
  classes : Std.ExtTreeMap NonTerminal NonTerminalClass

instance : DecidableEq Classification := fun _ _ =>
  decidable_of_decidable_of_iff Classification.ext_iff.symm

namespace Classification

/-- Marks a nonterminal that is known to be among those counted. -/
def markConflict? (marks : Marks) (conflict : Conflict) : Option Marks :=
  (marks.has? conflict.nonterminal).map fun _ => marks.mark conflict.nonterminal

/-- Marks the left-hand side of a production that mentions a marked
nonterminal. -/
def visit? (marks : Marks) (production : Production) :
    Option (Marks × Option NonTerminal) := do
  if ← marks.has? production.lhs then return (marks, none)
  if ← marks.mentioned? production.rhs then
    return (marks.mark production.lhs, some production.lhs)
  return (marks, none)

/-- The context-free nonterminals.  Each pass but the last marks a left-hand
side. -/
def saturation? (grammar : Grammar) (conflicts : List Conflict) :
    Option (Saturation Marks NonTerminal) := do
  let marks ← conflicts.foldlM markConflict? (.blank grammar.numNonterminals)
  saturate (sweep visit? · grammar.productions) (grammar.productions.length + 1) marks

/-- The class of a nonterminal, given the marks on context-free ones. -/
def classOf? (marks : Marks) (nonterminal : NonTerminal) :
    Option (NonTerminal × NonTerminalClass) :=
  (marks.has? nonterminal).map fun contextFree =>
    (nonterminal, if contextFree then .contextFree else .ll1)

/-- The classes of a grammar's nonterminals under a table's conflicts. -/
def ofTable? (grammar : Grammar) (table : Table) : Option Classification := do
  let saturation ← saturation? grammar table.conflicts
  let classes ← grammar.nonterminals.mapM (classOf? saturation.state)
  return ⟨.ofList classes⟩

/-- The class of a nonterminal, if it is one of the grammar's. -/
def class? (classification : Classification) (nonterminal : NonTerminal) :
    Option NonTerminalClass :=
  classification.classes[nonterminal]?

end Classification

end Predictive
