import Predictive.Grammar.Builder
import Predictive.Grammar.Token
import Predictive.Parse.Parser

/-!
Sessions.  A session builds grammars, keeps the last one finished, and keeps the
last analysis with a grammar of its own, so that a later grammar does not change
what the session knows about an earlier one.  What a session cannot do it
refuses, and it goes on as it was.
-/

namespace Predictive

/-- A symbol as it is referred to: directly, or by a name that a grammar gives
meaning to. -/
inductive Reference where
  | symbol (symbol : Symbol)
  | name (name : String)
deriving DecidableEq, Repr

/-- What is to be parsed: the characters or the words of a text, or terminals by
reference. -/
inductive Source where
  | characters (text : String)
  | words (text : String)
  | references (references : List Reference)
deriving DecidableEq, Repr

/-- Why a session refuses. -/
inductive Refusal where
  /-- There is no open rule to add an alternative to. -/
  | noCurrentRule
  | noGrammar
  | noAnalysis
  /-- A name is neither a nonterminal nor a terminal. -/
  | unknownName
  | notANonTerminal
  | notALookahead
  | notATerminal
  /-- A text cannot be read as a string of terminals. -/
  | unreadable (error : TokenError)
deriving DecidableEq, Repr

namespace Reference

/-- The symbol referred to. -/
def resolve (names : NameTable) : Reference → Except Refusal Symbol
  | symbol s => .ok s
  | name n =>
      match names.symbol? n with
      | some s => .ok s
      | none => .error .unknownName

/-- The nonterminal referred to. -/
def nonterminal (names : NameTable) (reference : Reference) :
    Except Refusal NonTerminal := do
  match (← reference.resolve names).nonterminal? with
  | some n => return n
  | none => throw .notANonTerminal

/-- The lookahead referred to. -/
def lookahead (names : NameTable) (reference : Reference) :
    Except Refusal Lookahead := do
  match (← reference.resolve names).lookahead? with
  | some a => return a
  | none => throw .notALookahead

end Reference

/-- The terminal that a symbol is. -/
def Symbol.asTerminal : Symbol → Except Refusal Terminal
  | .terminal t => .ok t
  | _ => .error .notATerminal

/-- The terminals of a source.  All references are resolved before any of them
is required to be a terminal. -/
def Source.read (grammar : Grammar) : Source → Except Refusal (List Terminal)
  | characters text => (grammar.readCharacters text).mapError .unreadable
  | words text => (grammar.readWords text).mapError .unreadable
  | references rs => do
      let symbols ← rs.mapM (·.resolve grammar.names)
      symbols.mapM Symbol.asTerminal

/-- The grammar being built, and the latest grammar, analysis and step limit. -/
structure Session where
  draft : Builder
  grammar : Option Grammar
  analysis : Option Analysis
  limit : StepLimit

namespace Session

def empty : Session := ⟨.empty, none, none, .auto⟩

/-- The latest grammar. -/
def getGrammar (session : Session) : Except Refusal Grammar :=
  match session.grammar with
  | some grammar => .ok grammar
  | none => .error .noGrammar

/-- The latest analysis. -/
def getAnalysis (session : Session) : Except Refusal Analysis :=
  match session.analysis with
  | some analysis => .ok analysis
  | none => .error .noAnalysis

/-- Opens a rule of the grammar being built. -/
def rule (session : Session) (lhs : String) : Session :=
  { session with draft := session.draft.rule lhs }

/-- Adds an alternative to the open rule. -/
def alternative (session : Session) (rhs : List String) : Except Refusal Session :=
  match session.draft.alternative? rhs with
  | some draft => .ok { session with draft }
  | none => .error .noCurrentRule

/-- Finishes the grammar being built.  A new one begins in any case; the latest
grammar is replaced only if there is no error. -/
def finish (session : Session) (start : String) : Except GrammarError Grammar × Session :=
  let next := { session with draft := .empty }
  match session.draft.finish start with
  | .ok grammar => (.ok grammar, { next with grammar := some grammar })
  | .error error => (.error error, next)

/-- Analyzes the latest grammar.  The session refuses if a phase has no answer, which
does not happen to a finished grammar. -/
def analyze (session : Session) (policy : ConflictPolicy) : Except Refusal Session := do
  let grammar ← session.getGrammar
  match Analysis.ofGrammar? grammar policy with
  | some analysis => return { session with analysis := some analysis }
  | none => throw .noAnalysis

/-- Limits the parses to come. -/
def setLimit (session : Session) (limit : StepLimit) : Except Refusal Session := do
  let _ ← session.getAnalysis
  return { session with limit }

/-- Parses a source by the latest analysis. -/
def parse (session : Session) (source : Source) :
    Except Refusal (Analysis × Option Outcome) := do
  let analysis ← session.getAnalysis
  let terminals ← source.read analysis.grammar
  return (analysis, (analysis.parser session.limit).parse? terminals)

end Session

end Predictive
