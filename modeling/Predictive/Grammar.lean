import Predictive.Production
import Predictive.Symbol.NameTable

/-!
Context-free grammars.  A grammar lists its productions in the order of
declaration, names its symbols and distinguishes a start symbol.  Look-ups by a
number outside the grammar give `none`.
-/

namespace Predictive

@[ext]
structure Grammar where
  productions : List Production
  names : NameTable
  start : NonTerminal

instance : DecidableEq Grammar := fun _ _ =>
  decidable_of_decidable_of_iff Grammar.ext_iff.symm

namespace Grammar

def numNonterminals (grammar : Grammar) : Nat := grammar.names.nonterminals.length

def numTerminals (grammar : Grammar) : Nat := grammar.names.terminals.length

/-- All nonterminals, by index. -/
def nonterminals (grammar : Grammar) : List NonTerminal :=
  (List.range grammar.numNonterminals).map NonTerminal.ofIndex

/-- All terminals, by index. -/
def terminals (grammar : Grammar) : List Terminal :=
  (List.range grammar.numTerminals).map Terminal.ofIndex

/-- The production at a position.  The production's own number plays no part. -/
def production? (grammar : Grammar) (id : ProductionId) : Option Production :=
  grammar.productions[id.index]?

/-- The productions that expand a nonterminal. -/
def productionsFor (grammar : Grammar) (lhs : NonTerminal) : List Production :=
  grammar.productions.filter (·.lhs = lhs)

/-- The length of the longest string that a production expands into. -/
def maxRhsLength (grammar : Grammar) : Nat :=
  (grammar.productions.map (·.symbols.length)).foldl max 0

/-- The number of symbols in all right-hand sides together. -/
def rhsLength (grammar : Grammar) : Nat :=
  (grammar.productions.flatMap (·.rhs)).length

def nameOf? (grammar : Grammar) (symbol : Symbol) : Option String :=
  grammar.names.nameOf? symbol

def nonterminal? (grammar : Grammar) (name : String) : Option NonTerminal :=
  grammar.names.nonterminal? name

def terminal? (grammar : Grammar) (name : String) : Option Terminal :=
  grammar.names.terminal? name

/-- The written form of a production, such as `E -> T X`. -/
def describe? (grammar : Grammar) (id : ProductionId) : Option String := do
  let production ← grammar.production? id
  let lhs ← grammar.nameOf? (.nonterminal production.lhs)
  let rhs ← grammar.names.phrase? production.rhs
  return lhs ++ " -> " ++ rhs

/-- All productions in written form, a line each.  A line shows the production
found at the position that the listed production's number names. -/
def bnf? (grammar : Grammar) : Option String := do
  let lines ← grammar.productions.mapM fun production => grammar.describe? production.id
  return String.join (lines.map (· ++ "\n"))

end Grammar

end Predictive
