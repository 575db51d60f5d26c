import Predictive.Text.Blank

/-!
Tokens of a text.  A text is split into its characters or into its words, the
maximal runs of characters that are not blank.  Each token knows how many bytes
of UTF-8 come before it.
-/

namespace Predictive.Text

/-- A piece of a text and the number of bytes before it. -/
structure Token where
  text : String
  offset : Nat
deriving DecidableEq, Repr

/-- The number of bytes that the characters take in UTF-8. -/
def byteLength : List Char → Nat
  | [] => 0
  | c :: rest => c.utf8Size + byteLength rest

/-- Every character as a token, when `offset` bytes come before the first. -/
def charactersFrom (offset : Nat) : List Char → List Token
  | [] => []
  | c :: rest => ⟨c.toString, offset⟩ :: charactersFrom (offset + c.utf8Size) rest

/-- The words, when `offset` bytes come before the first character. -/
def wordsFrom (offset : Nat) : List Char → List Token
  | [] => []
  | c :: rest =>
      if isBlank c then wordsFrom (offset + c.utf8Size) rest
      else
        let word := c :: rest.takeWhile (!isBlank ·)
        ⟨String.ofList word, offset⟩ ::
          wordsFrom (offset + byteLength word) (rest.dropWhile (!isBlank ·))
termination_by text => text.length
decreasing_by
  · simp
  · exact Nat.lt_succ_of_le (List.dropWhile_suffix _).length_le

/-- The characters of a text, from left to right. -/
def characters (text : String) : List Token := charactersFrom 0 text.toList

/-- The words of a text, from left to right. -/
def words (text : String) : List Token := wordsFrom 0 text.toList

end Predictive.Text
