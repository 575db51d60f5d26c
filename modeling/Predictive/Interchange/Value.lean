import Std.Data.ExtTreeMap

/-!
Interchange values: the data that results are stored and exchanged as.  A
structure is a record of its fields, a choice without data is a text, and a
choice with data is a record of one entry, named for the choice.
-/

namespace Predictive.Interchange

/-- Structured data. -/
inductive Value where
  | null
  | boolean (value : Bool)
  | integer (value : Int)
  /-- A number that is not written as an integer: `mantissa / 10 ^ exponent`. -/
  | decimal (mantissa : Int) (exponent : Nat)
  | text (value : String)
  | list (items : List Value)
  | record (fields : List (String × Value))
deriving Repr, Inhabited

/-- Types with an interchange form. -/
class Encode (α : Type) where
  encode : α → Value

/-- Types that can be read back.  Anything but a well-formed value is refused. -/
class Decode (α : Type) where
  decode? : Value → Option α

export Encode (encode)
export Decode (decode?)

namespace Value

/-- The field of a record. -/
def field? (name : String) : Value → Option Value
  | record fields => fields.lookup name
  | _ => none

/-- Reads the field of a record. -/
def get? {α : Type} [Decode α] (name : String) (value : Value) : Option α :=
  (value.field? name).bind decode?

/-- The name and the data of a choice with data. -/
def choice? : Value → Option (String × Value)
  | record [entry] => some entry
  | _ => none

/-- A choice with data. -/
def choice (name : String) (data : Value) : Value := record [(name, data)]

/-- A natural number below a bound. -/
def natural? (bound : Nat) : Value → Option Nat
  | integer (.ofNat n) => if n < bound then some n else none
  | _ => none

end Value

/-- Counts and positions are 64-bit numbers. -/
instance : Encode Nat := ⟨fun n => .integer n⟩

instance : Decode Nat := ⟨Value.natural? UInt64.size⟩

instance : Encode Bool := ⟨.boolean⟩

instance : Encode String := ⟨.text⟩

instance : Decode String where
  decode?
    | .text value => some value
    | _ => none

instance {α : Type} [Encode α] : Encode (List α) := ⟨fun items => .list (items.map encode)⟩

instance {α : Type} [Decode α] : Decode (List α) where
  decode?
    | .list items => items.mapM decode?
    | _ => none

/-- A map from names is a record, ordered by name. -/
instance {α : Type} [Encode α] : Encode (Std.ExtTreeMap String α) where
  encode map := .record (map.toList.map fun (name, item) => (name, encode item))

instance {α : Type} [Decode α] : Decode (Std.ExtTreeMap String α) where
  decode?
    | .record fields => do
        let entries ← fields.mapM fun (name, value) =>
          (decode? value).map fun item => (name, item)
        return .ofList entries
    | _ => none

end Predictive.Interchange
