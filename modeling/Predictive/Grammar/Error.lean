import Predictive.Production
import Predictive.Text.Quoted

/-!
What can be wrong with a grammar's declaration or with a text that is to be
parsed, and how it is reported.
-/

namespace Predictive

/-- What is wrong with a symbol's name. -/
inductive NameFault where
  | empty
  | blank
  | reserved
deriving DecidableEq, Repr

def NameFault.message : NameFault → String
  | empty => "empty name"
  | blank => "name contains whitespace"
  | reserved => "name is reserved for epsilon or the end marker"

/-- Why a declaration makes no grammar. -/
inductive GrammarError where
  | noProductions
  /-- The start symbol is no left-hand side. -/
  | unknownStart (name : String)
  /-- A production mentions a symbol by a faulty name. -/
  | malformedName (production : ProductionId) (name : String) (fault : NameFault)
deriving DecidableEq, Repr

def GrammarError.message : GrammarError → String
  | noProductions => "grammar has no productions"
  | unknownStart name =>
      "start symbol `" ++ name ++ "` is not the left-hand side of any production"
  | malformedName production name fault =>
      s!"malformed symbol {Text.quoted name} in production {production.index}: "
        ++ fault.message

/-- Why a text is no string of terminals. -/
inductive TokenError where
  /-- A token is the name of no terminal. -/
  | unknownTerminal (token : String) (offset : Nat)
deriving DecidableEq, Repr

def TokenError.message : TokenError → String
  | unknownTerminal token offset =>
      s!"unknown terminal {Text.quoted token} at offset {offset}"

end Predictive
