import Predictive.Symbol

/-!
Names of symbols.  A table lists the names of the nonterminals and of the
terminals by index, and holds the reverse maps beside the lists.
-/

namespace Predictive

/-- Symbols by name and names by symbol. -/
@[ext]
structure NameTable where
  nonterminals : List String
  terminals : List String
  nonterminalIds : Std.ExtTreeMap String NonTerminal
  terminalIds : Std.ExtTreeMap String Terminal

instance : DecidableEq NameTable := fun _ _ =>
  decidable_of_decidable_of_iff NameTable.ext_iff.symm

namespace NameTable

/-- The table of two lists of names in index order.  Of equal names in one
list, the last is found. -/
def ofLists (nonterminals terminals : List String) : NameTable where
  nonterminals
  terminals
  nonterminalIds := .ofList (nonterminals.zipIdx.map fun (name, index) =>
    (name, NonTerminal.ofIndex index))
  terminalIds := .ofList (terminals.zipIdx.map fun (name, index) =>
    (name, Terminal.ofIndex index))

/-- The name of a symbol, unless its index is outside the table. -/
def nameOf? (table : NameTable) : Symbol → Option String
  | .terminal t => table.terminals[t.index]?
  | .nonterminal n => table.nonterminals[n.index]?
  | .epsilon => some Symbol.epsilonName
  | .endMarker => some Symbol.endMarkerName

/-- The names of a string of symbols, separated by single spaces. -/
def phrase? (table : NameTable) (symbols : List Symbol) : Option String :=
  (symbols.mapM table.nameOf?).map (String.intercalate " ")

def nonterminal? (table : NameTable) (name : String) : Option NonTerminal :=
  table.nonterminalIds[name]?

def terminal? (table : NameTable) (name : String) : Option Terminal :=
  table.terminalIds[name]?

/-- The nonterminal of the given name, else the terminal of that name. -/
def symbol? (table : NameTable) (name : String) : Option Symbol :=
  match table.nonterminal? name with
  | some n => some (.nonterminal n)
  | none => (table.terminal? name).map .terminal

end NameTable

end Predictive
