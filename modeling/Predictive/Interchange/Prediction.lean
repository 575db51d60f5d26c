import Predictive.Interchange.Grammar
import Predictive.Table

/-!
Interchange forms of nullable sets, FIRST sets, FOLLOW sets and prediction
tables.  Marks are packed into 32-bit words; sets are records keyed by the
number of the nonterminal; the cells of a table are listed as triples.
-/

namespace Predictive.Interchange

/-- The number whose binary digits are the given bits, the least first. -/
def numberOfBits : List Bool → Nat
  | [] => 0
  | bit :: rest => bit.toNat + 2 * numberOfBits rest

/-- Bits packed into 32-bit words; the last word is filled up with zeros. -/
def wordsOfBits (bits : List Bool) : List Nat :=
  match bits with
  | [] => []
  | bit :: rest =>
      numberOfBits (bit :: rest.take 31) :: wordsOfBits (rest.drop 31)
termination_by bits.length
decreasing_by
  simp only [List.length_drop, List.length_cons]
  omega

instance : Encode Marks where
  encode marks := .record [
    ("storage", encode (wordsOfBits marks.bits.toList)),
    ("nbits", encode marks.size)]

instance : Encode Nullable where
  encode nullable := .record [
    ("bit_vec", encode nullable.marks),
    ("passes", encode nullable.passes)]

/-- Sets by nonterminal as a record keyed by the nonterminal's number. -/
def encodeSets {α : Type} [Ord α] [Std.TransOrd α] [Encode α]
    (sets : Std.ExtTreeMap NonTerminal (Std.ExtTreeSet α)) : Value :=
  .record (sets.toList.map fun (nonterminal, members) =>
    (toString nonterminal.index, encode members.toList))

instance : Encode FirstSets where
  encode first := .record [
    ("map", encodeSets first.sets),
    ("nullable", encode first.nullable),
    ("passes", encode first.passes)]

instance : Encode FollowSets where
  encode follow := .record [
    ("map", encodeSets follow.sets),
    ("passes", encode follow.passes)]

instance : Encode ConflictPolicy where
  encode
    | .lastWins => .text "LastWins"
    | .firstWins => .text "FirstWins"

instance : Decode ConflictPolicy where
  decode?
    | .text "LastWins" => some .lastWins
    | .text "FirstWins" => some .firstWins
    | _ => none

instance : Encode Conflict where
  encode conflict := .record [
    ("nonterminal", encode conflict.nonterminal),
    ("lookahead", encode conflict.lookahead),
    ("losing", encode conflict.losing),
    ("winning", encode conflict.winning)]

instance : Decode Conflict where
  decode? value := do
    let nonterminal ← value.get? "nonterminal"
    let lookahead ← value.get? "lookahead"
    let losing ← value.get? "losing"
    let winning ← value.get? "winning"
    return { nonterminal, lookahead, losing, winning }

/-- A filled cell is a triple of the row, the lookahead and the production. -/
instance : Encode (Cell × ProductionId) where
  encode entry := .list [
    encode entry.1.nonterminal, encode entry.1.lookahead, encode entry.2]

instance : Decode (Cell × ProductionId) where
  decode?
    | .list [row, column, content] => do
        let nonterminal ← decode? row
        let lookahead ← decode? column
        let production ← decode? content
        return (⟨nonterminal, lookahead⟩, production)
    | _ => none

instance : Encode Table where
  encode table := .record [
    ("map", encode table.toList),
    ("conflicts", encode table.conflicts),
    ("policy", encode table.policy)]

/-- Cells may be listed in any order; of equal cells the last one counts. -/
instance : Decode Table where
  decode? value := do
    let entries : List (Cell × ProductionId) ← value.get? "map"
    let conflicts ← value.get? "conflicts"
    let policy ← value.get? "policy"
    return { cells := .ofList entries, conflicts, policy }

end Predictive.Interchange
