import Predictive.Symbol

/-!
Marks on the nonterminals of a grammar.  The number of nonterminals is fixed
when the marks are made; asking about any other nonterminal gives `none`.
-/

namespace Predictive

/-- A mark for every nonterminal below a fixed number. -/
structure Marks where
  bits : Array Bool
deriving DecidableEq, Repr

namespace Marks

/-- No nonterminal out of `size` is marked. -/
def blank (size : Nat) : Marks := ⟨.replicate size false⟩

def size (marks : Marks) : Nat := marks.bits.size

/-- Whether a nonterminal is marked, if it is one of those counted. -/
def has? (marks : Marks) (nonterminal : NonTerminal) : Option Bool :=
  marks.bits[nonterminal.index]?

def mark (marks : Marks) (nonterminal : NonTerminal) : Marks :=
  ⟨marks.bits.setIfInBounds nonterminal.index true⟩

/-- The marked nonterminals, by index. -/
def marked (marks : Marks) : List NonTerminal :=
  (marks.bits.toList.zipIdx.filter Prod.fst).map fun (_, index) => .ofIndex index

@[simp] theorem size_mark (marks : Marks) (nonterminal : NonTerminal) :
    (marks.mark nonterminal).size = marks.size := by
  simp [mark, size]

theorem has?_mark (marks : Marks) (nonterminal other : NonTerminal) :
    (marks.mark nonterminal).has? other =
      if nonterminal = other then (marks.has? other).map fun _ => true
      else marks.has? other := by
  by_cases heq : nonterminal = other
  · subst heq
    simp only [mark, has?, Array.getElem?_setIfInBounds_self, if_true]
    split <;> simp_all
  · have hindex : nonterminal.index ≠ other.index :=
      fun h => heq (NonTerminal.index_injective h)
    simp [mark, has?, Array.getElem?_setIfInBounds_ne hindex, heq]

end Marks

end Predictive
