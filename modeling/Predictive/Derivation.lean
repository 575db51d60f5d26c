import Mathlib.Logic.Relation
import Predictive.Grammar

/-!
Derivations.  A production expands one occurrence of its left-hand side inside
a string of symbols; a derivation is a chain of such steps.  A leftmost
derivation expands the first nonterminal every time, and is known by the
productions that it applies.  Every leftmost derivation is a derivation, and
derivations go on in any context.
-/

namespace Predictive

/-- A string of terminals as a string of symbols. -/
def sentence (terminals : List Terminal) : List Symbol := terminals.map .terminal

@[simp] theorem sentence_append (left right : List Terminal) :
    sentence (left ++ right) = sentence left ++ sentence right :=
  List.map_append

/-- The string that a written string stands for: ε stands for nothing. -/
def eraseEpsilon (symbols : List Symbol) : List Symbol :=
  symbols.filter (· ≠ .epsilon)

namespace Grammar

/-- One step: a production expands one occurrence of its left-hand side. -/
inductive Yields (grammar : Grammar) : List Symbol → List Symbol → Prop where
  | step {production : Production} (hmem : production ∈ grammar.productions)
      (before after : List Symbol) :
      grammar.Yields (before ++ .nonterminal production.lhs :: after)
        (before ++ production.symbols ++ after)

/-- Any number of steps, none included. -/
def Derives (grammar : Grammar) : List Symbol → List Symbol → Prop :=
  Relation.ReflTransGen grammar.Yields

/-- One or more steps. -/
def DerivesProperly (grammar : Grammar) : List Symbol → List Symbol → Prop :=
  Relation.TransGen grammar.Yields

/-- The strings of terminals that the start symbol derives. -/
def Generates (grammar : Grammar) (terminals : List Terminal) : Prop :=
  grammar.Derives [.nonterminal grammar.start] (sentence terminals)

/-- The nonterminal occurs in a string that the start symbol derives. -/
def Reachable (grammar : Grammar) (nonterminal : NonTerminal) : Prop :=
  ∃ before after : List Symbol, grammar.Derives [.nonterminal grammar.start]
    (before ++ .nonterminal nonterminal :: after)

/-- The nonterminal derives a string of terminals. -/
def Productive (grammar : Grammar) (nonterminal : NonTerminal) : Prop :=
  ∃ terminals : List Terminal,
    grammar.Derives [.nonterminal nonterminal] (sentence terminals)

/-- The nonterminal derives, in one or more steps, a string that begins with
it. -/
def LeftRecursive (grammar : Grammar) (nonterminal : NonTerminal) : Prop :=
  ∃ after : List Symbol, grammar.DerivesProperly [.nonterminal nonterminal]
    (.nonterminal nonterminal :: after)

/-- One leftmost step: only terminals stand before the expanded nonterminal. -/
inductive YieldsLeftmost (grammar : Grammar) :
    ProductionId → List Symbol → List Symbol → Prop where
  | step {id : ProductionId} {production : Production}
      (hproduction : grammar.production? id = some production)
      (before : List Terminal) (after : List Symbol) :
      grammar.YieldsLeftmost id
        (sentence before ++ .nonterminal production.lhs :: after)
        (sentence before ++ production.symbols ++ after)

/-- A leftmost derivation that applies the listed productions in order. -/
inductive DerivesLeftmost (grammar : Grammar) :
    List ProductionId → List Symbol → List Symbol → Prop where
  | refl (symbols : List Symbol) : grammar.DerivesLeftmost [] symbols symbols
  | head {id : ProductionId} {ids : List ProductionId} {first second last : List Symbol}
      (hstep : grammar.YieldsLeftmost id first second)
      (hrest : grammar.DerivesLeftmost ids second last) :
      grammar.DerivesLeftmost (id :: ids) first last

variable {grammar : Grammar}

theorem yields_symbols {production : Production} (hmem : production ∈ grammar.productions) :
    grammar.Yields [.nonterminal production.lhs] production.symbols := by
  have hstep := Yields.step hmem [] []
  rwa [List.nil_append, List.append_nil] at hstep

theorem Yields.append_left {first second : List Symbol}
    (hstep : grammar.Yields first second) (before : List Symbol) :
    grammar.Yields (before ++ first) (before ++ second) := by
  obtain ⟨hmem, inner, after⟩ := hstep
  have hwhole := Yields.step hmem (before ++ inner) after
  simpa only [List.append_assoc] using hwhole

theorem Yields.append_right {first second : List Symbol}
    (hstep : grammar.Yields first second) (after : List Symbol) :
    grammar.Yields (first ++ after) (second ++ after) := by
  obtain ⟨hmem, before, inner⟩ := hstep
  have hwhole := Yields.step hmem before (inner ++ after)
  simpa only [List.append_assoc, List.cons_append] using hwhole

theorem Derives.append_left {first last : List Symbol}
    (hderives : grammar.Derives first last) (before : List Symbol) :
    grammar.Derives (before ++ first) (before ++ last) := by
  induction hderives with
  | refl => exact Relation.ReflTransGen.refl
  | tail _ hstep ih => exact ih.tail (hstep.append_left before)

theorem Derives.append_right {first last : List Symbol}
    (hderives : grammar.Derives first last) (after : List Symbol) :
    grammar.Derives (first ++ after) (last ++ after) := by
  induction hderives with
  | refl => exact Relation.ReflTransGen.refl
  | tail _ hstep ih => exact ih.tail (hstep.append_right after)

/-- Two strings side by side derive independently. -/
theorem Derives.append {left left' right right' : List Symbol}
    (hleft : grammar.Derives left left') (hright : grammar.Derives right right') :
    grammar.Derives (left ++ right) (left' ++ right') :=
  (hleft.append_right right).trans (hright.append_left left')

theorem YieldsLeftmost.yields {id : ProductionId} {first second : List Symbol}
    (hstep : grammar.YieldsLeftmost id first second) :
    grammar.Yields first second := by
  obtain ⟨hproduction, before, after⟩ := hstep
  exact Yields.step (List.mem_of_getElem? hproduction) (sentence before) after

/-- A leftmost derivation is a derivation. -/
theorem DerivesLeftmost.derives {ids : List ProductionId} {first last : List Symbol}
    (hderives : grammar.DerivesLeftmost ids first last) :
    grammar.Derives first last := by
  induction hderives with
  | refl => exact Relation.ReflTransGen.refl
  | head hstep _ ih => exact Relation.ReflTransGen.head hstep.yields ih

theorem YieldsLeftmost.append_right {id : ProductionId} {first second : List Symbol}
    (hstep : grammar.YieldsLeftmost id first second) (after : List Symbol) :
    grammar.YieldsLeftmost id (first ++ after) (second ++ after) := by
  obtain ⟨hproduction, before, inner⟩ := hstep
  have hwhole := YieldsLeftmost.step hproduction before (inner ++ after)
  simpa only [List.append_assoc, List.cons_append] using hwhole

theorem DerivesLeftmost.append_right {ids : List ProductionId} {first last : List Symbol}
    (hderives : grammar.DerivesLeftmost ids first last) (after : List Symbol) :
    grammar.DerivesLeftmost ids (first ++ after) (last ++ after) := by
  induction hderives with
  | refl => exact DerivesLeftmost.refl _
  | head hstep _ ih => exact DerivesLeftmost.head (hstep.append_right after) ih

/-- Leftmost derivations in sequence apply their productions in sequence. -/
theorem DerivesLeftmost.trans {ids ids' : List ProductionId}
    {first middle last : List Symbol}
    (hleft : grammar.DerivesLeftmost ids first middle)
    (hright : grammar.DerivesLeftmost ids' middle last) :
    grammar.DerivesLeftmost (ids ++ ids') first last := by
  induction hleft with
  | refl => exact hright
  | head hstep _ ih => exact DerivesLeftmost.head hstep (ih hright)

end Grammar

end Predictive
