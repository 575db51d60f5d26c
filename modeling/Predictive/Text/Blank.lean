/-!
Blank characters: the Unicode property White_Space.
-/

namespace Predictive.Text

/-- The code points with the property White_Space, as ascending closed ranges. -/
def blankRanges : List (Nat × Nat) := [
  (0x9, 0xd), (0x20, 0x20), (0x85, 0x85), (0xa0, 0xa0), (0x1680, 0x1680),
  (0x2000, 0x200a), (0x2028, 0x2029), (0x202f, 0x202f), (0x205f, 0x205f),
  (0x3000, 0x3000)]

/-- Whether a character separates words. -/
def isBlank (c : Char) : Bool :=
  blankRanges.any fun (first, last) => first ≤ c.toNat && c.toNat ≤ last

example : isBlank ' ' && isBlank '\t' && isBlank '\u0085' && isBlank '\u3000' := by
  decide

example : !isBlank '\u001c' && !isBlank '\u180e' && !isBlank '\u200b' := by
  decide

end Predictive.Text
