import Predictive.Analysis
import Predictive.Parse.Limit
import Predictive.Parse.Outcome

/-!
The predictive parser: a stack machine.  The stack starts with the start symbol
on top of the end of input.  A nonterminal on top is expanded by the production
that the table predicts, the leftmost symbol on top; any other symbol on top
must match the lookahead, and both are consumed.
-/

namespace Predictive

structure Parser where
  grammar : Grammar
  table : Table
  limit : StepLimit

/-- The machine between two steps. -/
structure Configuration where
  /-- The stack, its top first. -/
  stack : List Symbol
  /-- The number of lookaheads consumed. -/
  position : Nat
deriving DecidableEq, Repr

/-- How a run of the machine ends. -/
inductive Ending where
  | accepted
  | rejected (reason : RejectReason)
  | stepBoundExceeded
deriving DecidableEq, Repr

/-- The action of the last step. -/
def Ending.action : Ending → Action
  | accepted => .accept
  | rejected (.mismatch _ _) => .mismatch
  | rejected (.noRule _ _) => .noRule
  | rejected .unconsumedInput => .reject
  | rejected .inputExhausted => .reject
  | stepBoundExceeded => .stepBoundExceeded

/-- The verdict, given the limit and the number of the last step. -/
def Ending.verdict (limit step : Nat) : Ending → Verdict
  | accepted => .accepted
  | rejected reason => .rejected reason step
  | stepBoundExceeded => .stepBoundExceeded limit step

/-- What the machine does next: it goes on in another configuration, or it
ends. -/
inductive Move where
  | go (action : Action) (next : Configuration)
  | stop (ending : Ending)
deriving DecidableEq, Repr

/-- The record of an action taken in a configuration. -/
def Configuration.step (configuration : Configuration) (action : Action) : Step :=
  ⟨configuration.stack, configuration.position, action⟩

/-- How a run ends when the stack is used up. -/
def endOfStack (input : List Lookahead) (position : Nat) : Ending :=
  if position = input.length then .accepted else .rejected .unconsumedInput

namespace Parser

/-- The input of a parse: the terminals, closed by the end of input. -/
def inputOf (terminals : List Terminal) : List Lookahead :=
  terminals.map .terminal ++ [.endMarker]

/-- The configuration in which a parse begins. -/
def initial (parser : Parser) : Configuration :=
  ⟨[.nonterminal parser.grammar.start, .endMarker], 0⟩

/-- The next move, whatever the limit.  An empty stack ends the run, then a
used-up input does, and then the top of the stack decides.  There is no move if
the table predicts a production that the grammar does not have. -/
def move? (parser : Parser) (input : List Lookahead) (configuration : Configuration) :
    Option Move :=
  match configuration.stack with
  | [] => some (.stop (endOfStack input configuration.position))
  | top :: below =>
      match input[configuration.position]? with
      | none => some (.stop (.rejected .inputExhausted))
      | some lookahead =>
          match top with
          | .nonterminal n =>
              match parser.table.get? n lookahead with
              | none => some (.stop (.rejected (.noRule n lookahead)))
              | some id =>
                  (parser.grammar.production? id).map fun production =>
                    .go (.expand id) ⟨production.symbols ++ below, configuration.position⟩
          | expected =>
              if expected.lookahead? = some lookahead then
                some (.go .consume ⟨below, configuration.position + 1⟩)
              else some (.stop (.rejected (.mismatch expected lookahead)))

/-- Runs the machine for at most `bound` moves.  `past` holds the steps so far,
the latest first.  The limit is looked at after the empty stack and before all
else. -/
def run? (parser : Parser) (input : List Lookahead) :
    (bound : Nat) → Configuration → (past : List Step) → Option (List Step × Ending)
  | 0, configuration, past =>
      let ending :=
        if configuration.stack.isEmpty then endOfStack input configuration.position
        else .stepBoundExceeded
      some (configuration.step ending.action :: past, ending)
  | bound + 1, configuration, past =>
      match parser.move? input configuration with
      | none => none
      | some (.stop ending) => some (configuration.step ending.action :: past, ending)
      | some (.go action next) =>
          parser.run? input bound next (configuration.step action :: past)

/-- The number of transitions allowed for an input of the given length. -/
def maxSteps (parser : Parser) (inputLength : Nat) : Nat :=
  parser.limit.maxSteps parser.grammar.productions.length inputLength

/-- Parses a string of terminals.  The result is `none` only if the table
predicts a production that the grammar does not have. -/
def parse? (parser : Parser) (terminals : List Terminal) : Option Outcome := do
  let input := inputOf terminals
  let limit := parser.maxSteps terminals.length
  let (past, ending) ← parser.run? input limit parser.initial []
  return {
    trace := { input, steps := past.reverse }
    verdict := ending.verdict limit (past.length - 1) }

end Parser

/-- The parser of an analyzed grammar needs the grammar and its table only. -/
def Analysis.parser (analysis : Analysis) (limit : StepLimit) : Parser :=
  ⟨analysis.grammar, analysis.table, limit⟩

end Predictive
