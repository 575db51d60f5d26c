import Predictive.Parse.Form
import Predictive.Parse.Parser

/-!
The journal of an analysis: one entry for everything that a phase finds, and
one when the phase is done.  Entries name symbols, so there is no journal of a
grammar that mentions a symbol without a name.
-/

namespace Predictive

/-- How much detail an entry goes into. -/
inductive Level where
  /-- Results. -/
  | debug
  /-- Single steps on the way to a result. -/
  | trace
deriving DecidableEq, Repr

structure Entry where
  level : Level
  text : String
deriving DecidableEq, Repr

/-- The entries that a reader at the given level sees. -/
def Level.select (level : Level) (entries : List Entry) : List Entry :=
  match level with
  | trace => entries
  | debug => entries.filter (·.level = .debug)

namespace Grammar

/-- The summary of a finished grammar. -/
def summary (grammar : Grammar) : Entry :=
  ⟨.debug, s!"finalized grammar: {grammar.productions.length} productions, "
    ++ s!"{grammar.numNonterminals} nonterminals, {grammar.numTerminals} terminals"⟩

/-- One entry per nonterminal found nullable, and the summary. -/
def nullableEntries? (grammar : Grammar) : Option (List Entry) := do
  let saturation ← Nullable.saturation? grammar
  let found ← saturation.changes.mapM fun n => do
    return ⟨.trace, "nullable: " ++ (← grammar.nameOf? (.nonterminal n))⟩
  let count := saturation.state.marked.length
  return found ++ [⟨.debug, s!"nullable set: {count} of {grammar.numNonterminals} "
    ++ s!"nonterminals after {saturation.passes} passes"⟩]

/-- One entry per set that grew, and the summary. -/
def growthEntries? {State : Type} (grammar : Grammar) (kind members : String)
    (saturation : Saturation State Growth) : Option (List Entry) := do
  let grown ← saturation.changes.mapM fun growth => do
    let name ← grammar.nameOf? (.nonterminal growth.nonterminal)
    return ⟨.trace, s!"{kind}({name}) grew to {growth.size} {members}"⟩
  return grown ++ [⟨.debug, s!"{kind} sets: fixed point after {saturation.passes} passes"⟩]

/-- One entry per conflict, and the summary. -/
def tableEntries? (grammar : Grammar) (table : Table) : Option (List Entry) := do
  let conflicts ← table.conflicts.mapM fun conflict => do
    let row ← grammar.nameOf? (.nonterminal conflict.nonterminal)
    let column ← grammar.nameOf? conflict.lookahead.symbol
    let losing ← grammar.describe? conflict.losing
    let winning ← grammar.describe? conflict.winning
    return ⟨.debug, s!"conflict at ({row}, {column}): `{losing}` loses to `{winning}`"⟩
  return conflicts ++
    [⟨.debug, s!"prediction table: {table.size} cells, {table.conflicts.length} conflicts"⟩]

/-- The entry of a step in which the machine looked at the input, if it did. -/
def stepEntry? (grammar : Grammar) (trace : Trace) (step : Step) :
    Option (Option Entry) :=
  match step.action with
  | .accept | .reject | .stepBoundExceeded => some none
  | .consume | .expand _ | .mismatch | .noRule => do
      let top ← grammar.nameOf? (← step.stack.head?)
      let lookahead ← grammar.nameOf? (← trace.input[step.position]?).symbol
      return some ⟨.trace, s!"stack top {top}, lookahead {lookahead}"⟩

/-- The entries of a parse, and the summary. -/
def parseEntries? (grammar : Grammar) (outcome : Outcome) : Option (List Entry) := do
  let steps ← outcome.trace.steps.mapM (grammar.stepEntry? outcome.trace)
  return steps.filterMap id ++ [⟨.debug,
    s!"parse finished after {outcome.trace.length} steps: {outcome.verdict.form}"⟩]

end Grammar

/-- The entries of an analysis, from the finished grammar to the table. -/
def Analysis.entries? (analysis : Analysis) : Option (List Entry) := do
  let grammar := analysis.grammar
  let nullable ← grammar.nullableEntries?
  let first ← grammar.growthEntries? "FIRST" "terminals"
    (← FirstSets.saturation? grammar analysis.nullable)
  let follow ← grammar.growthEntries? "FOLLOW" "lookaheads"
    (← FollowSets.saturation? grammar analysis.first)
  let table ← grammar.tableEntries? analysis.table
  return grammar.summary :: nullable ++ first ++ follow ++ table

end Predictive
