import Predictive.Symbol

/-!
Productions.  A production expands a nonterminal into a string of symbols; the
empty string is written as the single symbol ε.
-/

namespace Predictive

/-- A production's position in the order of declaration. -/
structure ProductionId where
  id : UInt32
deriving DecidableEq, Repr, Inhabited

namespace ProductionId

/-- The production at the given position, which wraps at `2 ^ 32`. -/
def ofIndex (index : Nat) : ProductionId := ⟨UInt32.ofNat index⟩

def index (production : ProductionId) : Nat := production.id.toNat

theorem index_lt (production : ProductionId) : production.index < UInt32.size :=
  production.id.toNat_lt

theorem index_ofIndex {index : Nat} (hindex : index < UInt32.size) :
    (ofIndex index).index = index :=
  UInt32.toNat_ofNat_of_lt' hindex

theorem ofIndex_index (production : ProductionId) :
    ofIndex production.index = production := by
  simp [ofIndex, index]

theorem index_injective {left right : ProductionId}
    (heq : left.index = right.index) : left = right := by
  rw [← ofIndex_index left, ← ofIndex_index right, heq]

end ProductionId

/-- A production, with the right-hand side as it is written. -/
structure Production where
  id : ProductionId
  lhs : NonTerminal
  rhs : List Symbol
deriving DecidableEq, Repr

namespace Production

/-- Whether the right-hand side is the written form of the empty string. -/
def isEpsilon (production : Production) : Bool :=
  production.rhs == [.epsilon]

/-- The string that the left-hand side is expanded into. -/
def symbols (production : Production) : List Symbol :=
  if production.isEpsilon then [] else production.rhs

theorem mem_rhs {production : Production} {symbol : Symbol}
    (hmem : symbol ∈ production.symbols) : symbol ∈ production.rhs := by
  unfold symbols at hmem
  split at hmem
  · exact absurd hmem List.not_mem_nil
  · exact hmem

end Production

end Predictive
