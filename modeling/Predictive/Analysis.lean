import Predictive.Classification

/-!
Analysis of a grammar: nullable nonterminals, FIRST sets, FOLLOW sets and the
prediction table, each computed once from the ones before it.
-/

namespace Predictive

/-- A grammar and what is known about it. -/
@[ext]
structure Analysis where
  grammar : Grammar
  nullable : Nullable
  first : FirstSets
  follow : FollowSets
  table : Table

instance : DecidableEq Analysis := fun _ _ =>
  decidable_of_decidable_of_iff Analysis.ext_iff.symm

namespace Analysis

/-- Analyzes a grammar.  The result is `none` only if the grammar mentions a
nonterminal that it does not name. -/
def ofGrammar? (grammar : Grammar) (policy : ConflictPolicy) : Option Analysis := do
  let nullable ← Nullable.ofGrammar? grammar
  let first ← FirstSets.ofGrammar? grammar nullable
  let follow ← FollowSets.ofGrammar? grammar first
  let table ← Table.ofGrammar? grammar first follow policy
  return { grammar, nullable, first, follow, table }

/-- The classes of the grammar's nonterminals. -/
def classification? (analysis : Analysis) : Option Classification :=
  Classification.ofTable? analysis.grammar analysis.table

end Analysis

end Predictive
