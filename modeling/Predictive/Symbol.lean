import Std.Data.ExtTreeMap
import Std.Data.ExtTreeSet

/-!
Grammar symbols.  Terminals and nonterminals are numbered separately, from
zero, by 32-bit indices.  A symbol is a terminal, a nonterminal, the empty
sequence or the end of input; a lookahead is a terminal or the end of input.
Each kind is ordered by a rank.  The ranks of numbered symbols and of
lookaheads are injective, so a search tree over them is a set.
-/

namespace Predictive

/-- A nonterminal, known by its index. -/
structure NonTerminal where
  id : UInt32
deriving DecidableEq, Repr, Inhabited

/-- A terminal, known by its index. -/
structure Terminal where
  id : UInt32
deriving DecidableEq, Repr, Inhabited

namespace NonTerminal

/-- The nonterminal with the given index, which wraps at `2 ^ 32`. -/
def ofIndex (index : Nat) : NonTerminal := ⟨UInt32.ofNat index⟩

def index (nonterminal : NonTerminal) : Nat := nonterminal.id.toNat

theorem index_lt (nonterminal : NonTerminal) : nonterminal.index < UInt32.size :=
  nonterminal.id.toNat_lt

theorem index_ofIndex {index : Nat} (hindex : index < UInt32.size) :
    (ofIndex index).index = index :=
  UInt32.toNat_ofNat_of_lt' hindex

theorem ofIndex_index (nonterminal : NonTerminal) :
    ofIndex nonterminal.index = nonterminal := by
  simp [ofIndex, index]

theorem index_injective {left right : NonTerminal}
    (heq : left.index = right.index) : left = right := by
  rw [← ofIndex_index left, ← ofIndex_index right, heq]

instance : Ord NonTerminal := ⟨compareOn index⟩

instance : Std.TransOrd NonTerminal :=
  inferInstanceAs (Std.TransCmp (compareOn index))

instance : Std.LawfulEqOrd NonTerminal where
  compare_self := Nat.compare_eq_eq.mpr rfl
  eq_of_compare heq := index_injective (Nat.compare_eq_eq.mp heq)

end NonTerminal

namespace Terminal

/-- The terminal with the given index, which wraps at `2 ^ 32`. -/
def ofIndex (index : Nat) : Terminal := ⟨UInt32.ofNat index⟩

def index (terminal : Terminal) : Nat := terminal.id.toNat

theorem index_lt (terminal : Terminal) : terminal.index < UInt32.size :=
  terminal.id.toNat_lt

theorem index_ofIndex {index : Nat} (hindex : index < UInt32.size) :
    (ofIndex index).index = index :=
  UInt32.toNat_ofNat_of_lt' hindex

theorem ofIndex_index (terminal : Terminal) :
    ofIndex terminal.index = terminal := by
  simp [ofIndex, index]

theorem index_injective {left right : Terminal}
    (heq : left.index = right.index) : left = right := by
  rw [← ofIndex_index left, ← ofIndex_index right, heq]

instance : Ord Terminal := ⟨compareOn index⟩

instance : Std.TransOrd Terminal :=
  inferInstanceAs (Std.TransCmp (compareOn index))

instance : Std.LawfulEqOrd Terminal where
  compare_self := Nat.compare_eq_eq.mpr rfl
  eq_of_compare heq := index_injective (Nat.compare_eq_eq.mp heq)

end Terminal

/-- A symbol of a right-hand side or of the parser's stack. -/
inductive Symbol where
  | terminal (terminal : Terminal)
  | nonterminal (nonterminal : NonTerminal)
  /-- The empty sequence; a right-hand side that holds nothing else. -/
  | epsilon
  /-- The end of input; the bottom of the parser's stack. -/
  | endMarker
deriving DecidableEq, Repr

/-- What the parser looks at: the next terminal, or the end of input. -/
inductive Lookahead where
  | terminal (terminal : Terminal)
  | endMarker
deriving DecidableEq, Repr

namespace Lookahead

/-- The end of input comes after every terminal. -/
def rank : Lookahead → Nat
  | terminal t => t.index
  | endMarker => UInt32.size

theorem rank_injective {left right : Lookahead}
    (heq : left.rank = right.rank) : left = right := by
  cases left with
  | terminal l =>
      cases right with
      | terminal r => exact congrArg terminal (Terminal.index_injective heq)
      | endMarker => exact absurd heq (Nat.ne_of_lt l.index_lt)
  | endMarker =>
      cases right with
      | terminal r => exact absurd heq.symm (Nat.ne_of_lt r.index_lt)
      | endMarker => rfl

instance : Ord Lookahead := ⟨compareOn rank⟩

instance : Std.TransOrd Lookahead :=
  inferInstanceAs (Std.TransCmp (compareOn rank))

instance : Std.LawfulEqOrd Lookahead where
  compare_self := Nat.compare_eq_eq.mpr rfl
  eq_of_compare heq := rank_injective (Nat.compare_eq_eq.mp heq)

/-- The terminal, unless the input has ended. -/
def terminal? : Lookahead → Option Terminal
  | terminal t => some t
  | endMarker => none

/-- The symbol that a lookahead matches. -/
def symbol : Lookahead → Symbol
  | terminal t => .terminal t
  | endMarker => .endMarker

end Lookahead

namespace Symbol

/-- Terminals come first, then nonterminals, the empty sequence and the end of
input. -/
def rank : Symbol → Nat
  | terminal t => t.index
  | nonterminal n => UInt32.size + n.index
  | epsilon => 2 * UInt32.size
  | endMarker => 2 * UInt32.size + 1

instance : Ord Symbol := ⟨compareOn rank⟩

/-- The nonterminal, if the symbol is one. -/
def nonterminal? : Symbol → Option NonTerminal
  | nonterminal n => some n
  | _ => none

/-- The lookahead that the symbol matches, if it matches any. -/
def lookahead? : Symbol → Option Lookahead
  | terminal t => some (.terminal t)
  | endMarker => some .endMarker
  | _ => none

theorem lookahead?_eq_some_iff {symbol : Symbol} {lookahead : Lookahead} :
    symbol.lookahead? = some lookahead ↔ symbol = lookahead.symbol := by
  cases symbol <;> cases lookahead <;> simp [lookahead?, Lookahead.symbol]

theorem nonterminal?_eq_some_iff {symbol : Symbol} {n : NonTerminal} :
    symbol.nonterminal? = some n ↔ symbol = .nonterminal n := by
  cases symbol <;> simp [nonterminal?]

/-- The spelling of the empty sequence. -/
def epsilonName : String := "ε"

/-- The spelling of the end of input. -/
def endMarkerName : String := "$"

end Symbol

/-- A list in ascending order. -/
def ascending {α : Type} [Ord α] (items : List α) : List α :=
  items.mergeSort fun left right => (compare left right).isLE

end Predictive
