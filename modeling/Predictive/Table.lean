import Predictive.Follow

/-!
Prediction tables.  A production claims the cells of its left-hand side under
FIRST of its right-hand side and, if that side is nullable, under FOLLOW of its
left-hand side.  Where two productions claim one cell, a policy decides which
of them keeps it, and the conflict is recorded.
-/

namespace Predictive

/-- A place in the table: the nonterminal to expand and the lookahead. -/
structure Cell where
  nonterminal : NonTerminal
  lookahead : Lookahead
deriving DecidableEq, Repr

namespace Cell

/-- Cells are ordered by row, then by lookahead. -/
instance : Ord Cell :=
  ⟨compareLex (compareOn nonterminal) (compareOn lookahead)⟩

instance : Std.TransOrd Cell :=
  inferInstanceAs (Std.TransCmp (compareLex (compareOn nonterminal) (compareOn lookahead)))

instance : Std.LawfulEqOrd Cell where
  compare_self :=
    compareLex_eq_eq.mpr ⟨Std.ReflCmp.compare_self, Std.ReflCmp.compare_self⟩
  eq_of_compare {left right} heq := by
    obtain ⟨hrow, hcolumn⟩ := compareLex_eq_eq.mp heq
    cases left
    cases right
    congr
    · exact Std.LawfulEqOrd.eq_of_compare hrow
    · exact Std.LawfulEqOrd.eq_of_compare hcolumn

end Cell

/-- Which production keeps a cell that two productions claim. -/
inductive ConflictPolicy where
  /-- The later production in the order of declaration. -/
  | lastWins
  /-- The earlier production in the order of declaration. -/
  | firstWins
deriving DecidableEq, Repr

/-- A cell that two productions claim. -/
structure Conflict where
  nonterminal : NonTerminal
  lookahead : Lookahead
  /-- The production that is not in the cell after the conflict. -/
  losing : ProductionId
  /-- The production that is in the cell after the conflict. -/
  winning : ProductionId
deriving DecidableEq, Repr

/-- A production's wish to fill a cell. -/
structure Claim where
  cell : Cell
  production : ProductionId
deriving DecidableEq, Repr

/-- A prediction table and the conflicts in the order in which they arose. -/
@[ext]
structure Table where
  cells : Std.ExtTreeMap Cell ProductionId
  conflicts : List Conflict
  policy : ConflictPolicy

instance : DecidableEq Table := fun _ _ =>
  decidable_of_decidable_of_iff Table.ext_iff.symm

namespace Table

def empty (policy : ConflictPolicy) : Table := ⟨∅, [], policy⟩

/-- Fills a cell if it is free.  A second claim of one production changes
nothing; a claim of another production is a conflict. -/
def claim (table : Table) (claim : Claim) : Table :=
  match table.cells[claim.cell]? with
  | none => { table with cells := table.cells.insert claim.cell claim.production }
  | some holder =>
      if holder = claim.production then table
      else
        let (losing, winning) :=
          match table.policy with
          | .lastWins => (holder, claim.production)
          | .firstWins => (claim.production, holder)
        { table with
          cells := table.cells.insert claim.cell winning
          conflicts := table.conflicts ++
            [⟨claim.cell.nonterminal, claim.cell.lookahead, losing, winning⟩] }

/-- The claims of a production, by lookahead: those of FIRST, then those of
FOLLOW.  FOLLOW is needed only if the right-hand side is nullable. -/
def claimsOf? (first : FirstSets) (follow : FollowSets) (production : Production) :
    Option (List Claim) := do
  let claimUnder (lookahead : Lookahead) : Claim :=
    ⟨⟨production.lhs, lookahead⟩, production.id⟩
  let rhs ← first.ofSequence? production.rhs
  let direct := rhs.terminals.toList.map fun t => claimUnder (.terminal t)
  if rhs.nullable then
    let beyond ← follow.follow? production.lhs
    return direct ++ beyond.toList.map claimUnder
  return direct

/-- All claims, in the order of the productions. -/
def claims? (grammar : Grammar) (first : FirstSets) (follow : FollowSets) :
    Option (List Claim) :=
  (grammar.productions.mapM (claimsOf? first follow)).map List.flatten

/-- The table after all claims have been made. -/
def ofGrammar? (grammar : Grammar) (first : FirstSets) (follow : FollowSets)
    (policy : ConflictPolicy) : Option Table :=
  (claims? grammar first follow).map (List.foldl claim (.empty policy))

/-- The production predicted for a nonterminal under a lookahead. -/
def get? (table : Table) (nonterminal : NonTerminal) (lookahead : Lookahead) :
    Option ProductionId :=
  table.cells[(⟨nonterminal, lookahead⟩ : Cell)]?

/-- The filled cells, by row and then by lookahead. -/
def toList (table : Table) : List (Cell × ProductionId) := table.cells.toList

/-- The filled cells of one row, by lookahead. -/
def row (table : Table) (nonterminal : NonTerminal) : List (Lookahead × ProductionId) :=
  (table.toList.filter fun (cell, _) => cell.nonterminal = nonterminal).map
    fun (cell, production) => (cell.lookahead, production)

/-- The number of filled cells. -/
def size (table : Table) : Nat := table.cells.size

/-- Whether no two productions claim one cell. -/
def isLl1 (table : Table) : Bool := table.conflicts.isEmpty

end Table

end Predictive
