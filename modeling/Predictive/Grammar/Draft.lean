import Predictive.Grammar
import Predictive.Grammar.Error
import Predictive.Symbol.Interner
import Predictive.Text.Blank

/-!
Drafts of grammars.  A draft collects alternatives by name.  Finishing a draft
decides which names are nonterminals, numbers all symbols by first occurrence
and yields the grammar, or says what is wrong with the draft.
-/

namespace Predictive

/-- A left-hand side and one right-hand side, both by name. -/
structure Alternative where
  lhs : String
  rhs : List String
deriving DecidableEq, Repr

/-- The names in an alternative, from left to right. -/
def Alternative.names (alternative : Alternative) : List String :=
  alternative.lhs :: alternative.rhs

/-- The alternatives declared so far, and the left-hand side of the rule that
is being declared. -/
structure Draft where
  alternatives : List Alternative
  openRule : Option String
deriving DecidableEq, Repr

/-- The fault of a name, if it cannot name a symbol of a grammar. -/
def nameFault? (name : String) : Option NameFault :=
  if name.isEmpty then some .empty
  else if name.toList.any Text.isBlank then some .blank
  else if name = Symbol.epsilonName ∨ name = Symbol.endMarkerName then some .reserved
  else none

namespace Draft

def numProductions (draft : Draft) : Nat := draft.alternatives.length

/-- Opens a rule.  A rule without alternatives leaves no trace in the grammar. -/
def rule (draft : Draft) (lhs : String) : Draft :=
  { draft with openRule := some lhs }

/-- Adds an alternative to the open rule, if there is one.  No names at all
make the empty alternative. -/
def alternative? (draft : Draft) (rhs : List String) : Option Draft :=
  draft.openRule.map fun lhs =>
    { draft with alternatives := draft.alternatives ++ [⟨lhs, rhs⟩] }

/-- The draft that declares the given rules, each with its alternatives. -/
def ofRules (rules : List (String × List (List String))) : Draft where
  alternatives := rules.flatMap fun (lhs, sides) => sides.map (⟨lhs, ·⟩)
  openRule := rules.getLast?.map Prod.fst

/-- The first faulty name in the alternatives. -/
def malformed? (draft : Draft) : Option GrammarError :=
  draft.alternatives.zipIdx.findSome? fun (alternative, position) =>
    alternative.names.findSome? fun name =>
      (nameFault? name).map (.malformedName (.ofIndex position) name)

/-- Every left-hand side is a nonterminal. -/
def nonterminalNames (draft : Draft) : List String :=
  distinctNames (draft.alternatives.map (·.lhs))

/-- Every other name in a right-hand side is a terminal. -/
def terminalNames (draft : Draft) : List String :=
  let nonterminals := draft.nonterminalNames
  distinctNames ((draft.alternatives.flatMap (·.rhs)).filter (· ∉ nonterminals))

/-- The production that an alternative declares, given the names of the symbols
in index order. -/
def production (nonterminals terminals : List String) (position : Nat)
    (alternative : Alternative) : Production where
  id := .ofIndex position
  lhs := .ofIndex (nonterminals.idxOf alternative.lhs)
  rhs :=
    if alternative.rhs.isEmpty then [.epsilon]
    else alternative.rhs.map fun name =>
      if name ∈ nonterminals then .nonterminal (.ofIndex (nonterminals.idxOf name))
      else .terminal (.ofIndex (terminals.idxOf name))

/-- The grammar of a draft whose names are known to be sound. -/
def resolve (draft : Draft) (start : String) : Grammar :=
  let nonterminals := draft.nonterminalNames
  let terminals := draft.terminalNames
  { productions := draft.alternatives.mapIdx (production nonterminals terminals)
    names := .ofLists nonterminals terminals
    start := .ofIndex (nonterminals.idxOf start) }

/-- The grammar of a draft.  A draft without alternatives is refused first, then
one with a faulty name, then an unknown start symbol. -/
def finish (draft : Draft) (start : String) : Except GrammarError Grammar :=
  if draft.alternatives.isEmpty then .error .noProductions
  else
    match draft.malformed? with
    | some error => .error error
    | none =>
        if start ∈ draft.nonterminalNames then .ok (draft.resolve start)
        else .error (.unknownStart start)

end Draft

end Predictive
