import Predictive.Symbol

/-!
Constructor forms of symbols: text that spells a value as its constructor
applied to the forms of its fields.
-/

namespace Predictive

def NonTerminal.form (nonterminal : NonTerminal) : String :=
  s!"NonTerminal({nonterminal.index})"

def Terminal.form (terminal : Terminal) : String :=
  s!"Terminal({terminal.index})"

def Symbol.form : Symbol → String
  | .terminal t => s!"Terminal({t.form})"
  | .nonterminal n => s!"NonTerminal({n.form})"
  | .epsilon => "Epsilon"
  | .endMarker => "EndMarker"

def Lookahead.form (lookahead : Lookahead) : String :=
  lookahead.symbol.form

end Predictive
