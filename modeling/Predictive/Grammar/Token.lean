import Predictive.Grammar
import Predictive.Grammar.Error
import Predictive.Text.Token

/-!
Reading a text as a string of terminals.  Each token must be the name of a
terminal; the first that is not is reported with its place in the text.
-/

namespace Predictive.Grammar

open Text (Token)

/-- The terminal that a token names. -/
def readToken (grammar : Grammar) (token : Token) : Except TokenError Terminal :=
  match grammar.terminal? token.text with
  | some terminal => .ok terminal
  | none => .error (.unknownTerminal token.text token.offset)

/-- The terminals that the tokens name, or the error of the first that names
none. -/
def readTokens (grammar : Grammar) : List Token → Except TokenError (List Terminal)
  | [] => .ok []
  | token :: rest =>
      match grammar.readToken token with
      | .error error => .error error
      | .ok terminal => (grammar.readTokens rest).map (terminal :: ·)

/-- Reads every character as a terminal. -/
def readCharacters (grammar : Grammar) (text : String) :
    Except TokenError (List Terminal) :=
  grammar.readTokens (Text.characters text)

/-- Reads every word as a terminal. -/
def readWords (grammar : Grammar) (text : String) :
    Except TokenError (List Terminal) :=
  grammar.readTokens (Text.words text)

end Predictive.Grammar
