import Predictive.Grammar.Draft

/-!
Grammar builders.  A builder collects alternatives like a draft, but interns the
names.  When it is finished, the interned names are given symbols in two passes:
one over the left-hand sides, which numbers the nonterminals, and one over the
right-hand sides, which numbers a name that has no symbol by then as a terminal.
-/

namespace Predictive

/-- An alternative over interned names. -/
structure InternedAlternative where
  lhs : Nat
  rhs : List Nat
deriving DecidableEq, Repr

namespace InternedAlternative

/-- The interned names in an alternative, from left to right. -/
def indices (alternative : InternedAlternative) : List Nat :=
  alternative.lhs :: alternative.rhs

/-- The alternative that the interned names spell. -/
def spell (interner : Interner) (alternative : InternedAlternative) : Alternative where
  lhs := interner.name alternative.lhs
  rhs := alternative.rhs.map interner.name

theorem spell_eq_of_extendedBy {earlier later : Interner}
    (hextended : earlier.ExtendedBy later) {alternative : InternedAlternative}
    (hindices : ∀ index ∈ alternative.indices, index < earlier.size) :
    alternative.spell later = alternative.spell earlier := by
  have hname : ∀ index ∈ alternative.indices, later.name index = earlier.name index :=
    fun index hmem => hextended.name_eq (hindices index hmem)
  have hrhs : alternative.rhs.map later.name = alternative.rhs.map earlier.name :=
    List.map_congr_left fun index hmem => hname index (List.mem_cons_of_mem _ hmem)
  simp only [spell, hname alternative.lhs List.mem_cons_self, hrhs]

end InternedAlternative

/-- The symbols that interned names stand for so far, and the names of the
nonterminals and of the terminals in index order. -/
structure Numbering where
  symbols : List (Option Symbol)
  nonterminals : List String
  terminals : List String
deriving DecidableEq, Repr

namespace Numbering

/-- None of the interned names stands for a symbol. -/
def blank (interner : Interner) : Numbering := ⟨.replicate interner.size none, [], []⟩

/-- The symbol that an interned name stands for. -/
def symbol? (numbering : Numbering) (index : Nat) : Option Symbol :=
  numbering.symbols[index]?.join

/-- The nonterminal that an interned name stands for, which is the next one if
the name stands for none. -/
def nonterminal (interner : Interner) (index : Nat) : StateM Numbering NonTerminal := do
  let numbering ← get
  match numbering.symbol? index with
  | some (.nonterminal n) => return n
  | _ =>
      let n := NonTerminal.ofIndex numbering.nonterminals.length
      set { numbering with
        symbols := numbering.symbols.set index (some (.nonterminal n))
        nonterminals := numbering.nonterminals ++ [interner.name index] }
      return n

/-- The symbol that an interned name stands for, which is the next terminal if
the name stands for none. -/
def symbol (interner : Interner) (index : Nat) : StateM Numbering Symbol := do
  let numbering ← get
  match numbering.symbol? index with
  | some symbol => return symbol
  | none =>
      let symbol := Symbol.terminal (.ofIndex numbering.terminals.length)
      set { numbering with
        symbols := numbering.symbols.set index (some symbol)
        terminals := numbering.terminals ++ [interner.name index] }
      return symbol

/-- The written form of a right-hand side. -/
def side (interner : Interner) (rhs : List Nat) : StateM Numbering (List Symbol) :=
  if rhs.isEmpty then return [.epsilon] else rhs.mapM (symbol interner)

end Numbering

/-- A call on a builder. -/
inductive BuilderCall where
  /-- Opens a rule. -/
  | rule (lhs : String)
  /-- Adds an alternative to the open rule. -/
  | alternative (rhs : List String)
  /-- Adds the empty alternative to the open rule. -/
  | epsilon
deriving DecidableEq, Repr

/-- The names interned so far, the alternatives declared so far, and the interned
left-hand side of the rule that is being declared. -/
structure Builder where
  interner : Interner
  alternatives : List InternedAlternative
  openRule : Option Nat
  nodup : interner.names.Nodup
  alternatives_lt : ∀ alternative ∈ alternatives, ∀ index ∈ alternative.indices,
    index < interner.size
  openRule_lt : ∀ lhs ∈ openRule, lhs < interner.size

namespace Builder

def empty : Builder where
  interner := .empty
  alternatives := []
  openRule := none
  nodup := List.nodup_nil
  alternatives_lt _ hmem := absurd hmem List.not_mem_nil
  openRule_lt := nofun

def numProductions (builder : Builder) : Nat := builder.alternatives.length

theorem alternatives_lt_of_extendedBy (builder : Builder) {interner : Interner}
    (hextended : builder.interner.ExtendedBy interner) :
    ∀ alternative ∈ builder.alternatives, ∀ index ∈ alternative.indices,
      index < interner.size :=
  fun alternative hmem index hindex =>
    Nat.lt_of_lt_of_le (builder.alternatives_lt alternative hmem index hindex)
      hextended.size_le

/-- Opens a rule, whose name is interned whether or not alternatives follow. -/
def rule (builder : Builder) (lhs : String) : Builder where
  interner := (builder.interner.intern lhs).2
  alternatives := builder.alternatives
  openRule := some (builder.interner.intern lhs).1
  nodup := Interner.nodup_intern builder.nodup lhs
  alternatives_lt := builder.alternatives_lt_of_extendedBy (Interner.extendedBy_intern _ lhs)
  openRule_lt index hindex := by
    obtain rfl := Option.some.inj hindex
    exact Interner.intern_lt _ lhs

/-- Adds an alternative to the rule of the given left-hand side. -/
def add (builder : Builder) (lhs : Nat) (hlhs : lhs < builder.interner.size)
    (rhs : List String) : Builder where
  interner := (builder.interner.internAll rhs).2
  alternatives := builder.alternatives ++ [⟨lhs, (builder.interner.internAll rhs).1⟩]
  openRule := some lhs
  nodup := Interner.nodup_internAll builder.nodup rhs
  alternatives_lt alternative hmem index hindex := by
    have hextended := Interner.extendedBy_internAll builder.interner rhs
    rcases List.mem_append.mp hmem with hold | hnew
    · exact builder.alternatives_lt_of_extendedBy hextended alternative hold index hindex
    · obtain rfl := List.mem_singleton.mp hnew
      rcases List.mem_cons.mp hindex with rfl | hrhs
      · exact Nat.lt_of_lt_of_le hlhs hextended.size_le
      · exact Interner.internAll_lt _ rhs index hrhs
  openRule_lt index hindex := by
    obtain rfl := Option.some.inj hindex
    exact Nat.lt_of_lt_of_le hlhs (Interner.extendedBy_internAll _ rhs).size_le

/-- Adds an alternative to the open rule, if there is one. -/
def alternative? (builder : Builder) (rhs : List String) : Option Builder :=
  match h : builder.openRule with
  | none => none
  | some lhs => some (builder.add lhs (builder.openRule_lt lhs h) rhs)

/-- The builder after a call. -/
def call? (builder : Builder) : BuilderCall → Option Builder
  | .rule lhs => some (builder.rule lhs)
  | .alternative rhs => builder.alternative? rhs
  | .epsilon => builder.alternative? []

/-- The builder after several calls. -/
def calls? (builder : Builder) (calls : List BuilderCall) : Option Builder :=
  calls.foldlM call? builder

/-- The draft that the interned names spell. -/
def draft (builder : Builder) : Draft where
  alternatives := builder.alternatives.map (·.spell builder.interner)
  openRule := builder.openRule.map builder.interner.name

/-- The start symbol, if the name stands for a nonterminal. -/
def start? (builder : Builder) (numbering : Numbering) (start : String) :
    Option NonTerminal := do
  let index ← builder.interner.names.idxOf? start
  let symbol ← numbering.symbol? index
  symbol.nonterminal?

/-- The grammar of a builder.  The refusals are those of a draft, in the same
order. -/
def finish (builder : Builder) (start : String) : Except GrammarError Grammar :=
  if builder.alternatives.isEmpty then .error .noProductions
  else
    match builder.draft.malformed? with
    | some error => .error error
    | none =>
        let (lefts, declared) := (builder.alternatives.mapM fun alternative =>
          Numbering.nonterminal builder.interner alternative.lhs).run
            (.blank builder.interner)
        match builder.start? declared start with
        | none => .error (.unknownStart start)
        | some start =>
            let (rights, numbering) := (builder.alternatives.mapM fun alternative =>
              Numbering.side builder.interner alternative.rhs).run declared
            .ok {
              productions := (lefts.zip rights).mapIdx fun position (lhs, rhs) =>
                { id := .ofIndex position, lhs, rhs }
              names := .ofLists numbering.nonterminals numbering.terminals
              start }

end Builder

end Predictive
