import Mathlib.Algebra.Group.Nat.Defs
import Mathlib.Data.List.Perm.Subperm
import Predictive.Derivation
import Predictive.Grammar.Draft

/-!
Well-formed grammars.  A finished grammar numbers its productions by position,
mentions only symbols that it names, and has a production for every nonterminal.
These are the properties of a draft's result that every later phase relies on.
-/

namespace Predictive

/-- If every item has a value, the values are those of the items in order. -/
theorem mapM_eq_some_map {Item Value : Type} {value? : Item → Option Value}
    {value : Item → Value} {items : List Item}
    (hvalue : ∀ item ∈ items, value? item = some (value item)) :
    items.mapM value? = some (items.map value) := by
  induction items with
  | nil => rfl
  | cons first rest ih =>
      have hfirst := hvalue first List.mem_cons_self
      have hrest := ih fun item hitem => hvalue item (List.mem_cons_of_mem _ hitem)
      simp [List.mapM_cons, hfirst, hrest]

/-- Items that are read as they were written are read as the same list. -/
theorem mapM_map_eq_some {Item Value : Type} {write : Item → Value}
    {read? : Value → Option Item} {items : List Item}
    (hread : ∀ item ∈ items, read? (write item) = some item) :
    (items.map write).mapM read? = some items := by
  have hvalues : items.mapM (read? ∘ write) = some (items.map id) := mapM_eq_some_map hread
  rw [List.mapM_map, hvalues, List.map_id]

namespace Grammar

/-- The symbol is a terminal or a nonterminal that the grammar names. -/
def Declares (grammar : Grammar) : Symbol → Prop
  | .terminal t => t.index < grammar.numTerminals
  | .nonterminal n => n.index < grammar.numNonterminals
  | .epsilon | .endMarker => False

/-- What a finished grammar is like. -/
structure WellFormed (grammar : Grammar) : Prop where
  id_production? : ∀ id production, grammar.production? id = some production →
    production.id = id
  production?_id : ∀ production ∈ grammar.productions,
    grammar.production? production.id = some production
  declares_lhs : ∀ production ∈ grammar.productions,
    grammar.Declares (.nonterminal production.lhs)
  declares_symbols : ∀ production ∈ grammar.productions,
    ∀ symbol ∈ production.symbols, grammar.Declares symbol
  eraseEpsilon_rhs : ∀ production ∈ grammar.productions,
    eraseEpsilon production.rhs = production.symbols
  declares_start : grammar.Declares (.nonterminal grammar.start)
  exists_production : ∀ n, grammar.Declares (.nonterminal n) →
    ∃ production ∈ grammar.productions, production.lhs = n
  numNonterminals_lt : grammar.numNonterminals < 2 ^ 32

/-- The grammar comes from a draft, and its productions, nonterminals and terminals
are so few that no number wraps. -/
structure Finished (grammar : Grammar) : Prop where
  finish_eq : ∃ (draft : Draft) (start : String), draft.finish start = .ok grammar
  productions_lt : grammar.productions.length < 2 ^ 32
  nonterminals_lt : grammar.numNonterminals < 2 ^ 32
  terminals_lt : grammar.numTerminals < 2 ^ 32

end Grammar

namespace Draft

/-- A draft with alternatives, sound names and a known start symbol is not refused. -/
theorem finish_eq_ok_iff {draft : Draft} {start : String} {grammar : Grammar} :
    draft.finish start = .ok grammar ↔ draft.alternatives.isEmpty = false ∧
      draft.malformed? = none ∧ start ∈ draft.nonterminalNames ∧
      draft.resolve start = grammar := by
  unfold finish
  cases draft.alternatives.isEmpty with
  | true => simp
  | false =>
      cases draft.malformed? with
      | some error => simp
      | none => by_cases hstart : start ∈ draft.nonterminalNames <;> simp [hstart]

theorem finish_eq_ok {draft : Draft} {start : String} {grammar : Grammar}
    (hfinish : draft.finish start = .ok grammar) :
    start ∈ draft.nonterminalNames ∧ grammar = draft.resolve start := by
  obtain ⟨_, _, hstart, hgrammar⟩ := finish_eq_ok_iff.mp hfinish
  exact ⟨hstart, hgrammar.symm⟩

theorem lhs_mem_nonterminalNames {draft : Draft} {alternative : Alternative}
    (hmem : alternative ∈ draft.alternatives) :
    alternative.lhs ∈ draft.nonterminalNames := by
  simp only [nonterminalNames, mem_distinctNames, List.mem_map]
  exact ⟨alternative, hmem, rfl⟩

theorem mem_terminalNames {draft : Draft} {alternative : Alternative} {name : String}
    (hmem : alternative ∈ draft.alternatives) (hname : name ∈ alternative.rhs)
    (hother : name ∉ draft.nonterminalNames) : name ∈ draft.terminalNames := by
  simp only [terminalNames, mem_distinctNames, List.mem_filter, List.mem_flatMap,
    decide_eq_true_eq]
  exact ⟨⟨alternative, hmem, hname⟩, hother⟩

/-- The symbol that a name stands for. -/
def symbolOf (nonterminals terminals : List String) (name : String) : Symbol :=
  if name ∈ nonterminals then .nonterminal (.ofIndex (nonterminals.idxOf name))
  else .terminal (.ofIndex (terminals.idxOf name))

theorem symbolOf_ne_epsilon (nonterminals terminals : List String) (name : String) :
    symbolOf nonterminals terminals name ≠ .epsilon := by
  unfold symbolOf
  split <;> simp

theorem rhs_production (nonterminals terminals : List String) (position : Nat)
    (alternative : Alternative) :
    (production nonterminals terminals position alternative).rhs =
      if alternative.rhs.isEmpty then [.epsilon]
      else alternative.rhs.map (symbolOf nonterminals terminals) := rfl

theorem production_eq (nonterminals terminals : List String) (position : Nat)
    (alternative : Alternative) :
    production nonterminals terminals position alternative =
      ⟨.ofIndex position, .ofIndex (nonterminals.idxOf alternative.lhs),
        if alternative.rhs.isEmpty then [.epsilon]
        else alternative.rhs.map (symbolOf nonterminals terminals)⟩ := rfl

/-- A production expands into the symbols that its names stand for. -/
theorem symbols_production (nonterminals terminals : List String) (position : Nat)
    (alternative : Alternative) :
    (production nonterminals terminals position alternative).symbols =
      alternative.rhs.map (symbolOf nonterminals terminals) := by
  unfold Production.symbols Production.isEpsilon
  rw [rhs_production]
  cases hside : alternative.rhs with
  | nil => rfl
  | cons name rest =>
      have hname := symbolOf_ne_epsilon nonterminals terminals name
      simp [hname]

theorem eraseEpsilon_production (nonterminals terminals : List String) (position : Nat)
    (alternative : Alternative) :
    eraseEpsilon (production nonterminals terminals position alternative).rhs =
      (production nonterminals terminals position alternative).symbols := by
  rw [symbols_production, rhs_production]
  cases hside : alternative.rhs with
  | nil => rfl
  | cons name rest =>
      rw [← hside]
      simp only [hside, List.isEmpty_cons, Bool.false_eq_true, ↓reduceIte, eraseEpsilon]
      rw [List.filter_eq_self]
      intro symbol hsymbol
      obtain ⟨other, _, rfl⟩ := List.mem_map.mp hsymbol
      simpa using symbolOf_ne_epsilon nonterminals terminals other

/-- A nonterminal's number is its name's place in the table. -/
theorem index_nonterminal {draft : Draft} {name : String}
    (hlt : draft.nonterminalNames.length < 2 ^ 32)
    (hname : name ∈ draft.nonterminalNames) :
    (NonTerminal.ofIndex (draft.nonterminalNames.idxOf name)).index =
      draft.nonterminalNames.idxOf name :=
  NonTerminal.index_ofIndex (Nat.lt_trans (List.idxOf_lt_length_of_mem hname) hlt)

theorem declares_nonterminal {draft : Draft} {start name : String}
    (hlt : draft.nonterminalNames.length < 2 ^ 32)
    (hname : name ∈ draft.nonterminalNames) :
    (draft.resolve start).Declares
      (.nonterminal (.ofIndex (draft.nonterminalNames.idxOf name))) := by
  change (NonTerminal.ofIndex _).index < draft.nonterminalNames.length
  rw [index_nonterminal hlt hname]
  exact List.idxOf_lt_length_of_mem hname

theorem declares_symbolOf {draft : Draft} {start name : String} {alternative : Alternative}
    (hnonterminals : draft.nonterminalNames.length < 2 ^ 32)
    (hterminals : draft.terminalNames.length < 2 ^ 32)
    (hmem : alternative ∈ draft.alternatives) (hname : name ∈ alternative.rhs) :
    (draft.resolve start).Declares
      (symbolOf draft.nonterminalNames draft.terminalNames name) := by
  unfold symbolOf
  split
  · rename_i hnonterminal
    exact declares_nonterminal hnonterminals hnonterminal
  · rename_i hother
    have hterminal := mem_terminalNames hmem hname hother
    have hplace := List.idxOf_lt_length_of_mem hterminal
    change (Terminal.ofIndex _).index < draft.terminalNames.length
    rw [Terminal.index_ofIndex (Nat.lt_trans hplace hterminals)]
    exact hplace

/-- Every production of the result declares an alternative of the draft. -/
theorem mem_productions_resolve {draft : Draft} {start : String} {declared : Production} :
    declared ∈ (draft.resolve start).productions ↔
      ∃ (position : Nat) (alternative : Alternative),
        draft.alternatives[position]? = some alternative ∧
          declared = production draft.nonterminalNames draft.terminalNames position
            alternative := by
  change declared ∈ draft.alternatives.mapIdx _ ↔ _
  rw [List.mem_mapIdx]
  constructor
  · rintro ⟨position, hlt, rfl⟩
    exact ⟨position, _, List.getElem?_eq_getElem hlt, rfl⟩
  · rintro ⟨position, alternative, halternative, rfl⟩
    obtain ⟨hlt, rfl⟩ := List.getElem?_eq_some_iff.mp halternative
    exact ⟨position, hlt, rfl⟩

theorem production?_resolve {draft : Draft} {start : String} {position : Nat}
    {alternative : Alternative} (hlt : draft.alternatives.length < 2 ^ 32)
    (halternative : draft.alternatives[position]? = some alternative) :
    (draft.resolve start).production? (.ofIndex position) =
      some (production draft.nonterminalNames draft.terminalNames position alternative) := by
  obtain ⟨hposition, _⟩ := List.getElem?_eq_some_iff.mp halternative
  unfold Grammar.production?
  rw [ProductionId.index_ofIndex (Nat.lt_trans hposition hlt)]
  change (draft.alternatives.mapIdx _)[position]? = _
  rw [List.getElem?_mapIdx, halternative]
  rfl

/-- A production of the result knows the position at which it is found. -/
theorem id_production?_resolve {draft : Draft} {start : String} {id : ProductionId}
    {declared : Production} (hdeclared : (draft.resolve start).production? id = some declared) :
    declared.id = id := by
  change (draft.alternatives.mapIdx _)[id.index]? = some declared at hdeclared
  rw [List.getElem?_mapIdx, Option.map_eq_some_iff] at hdeclared
  obtain ⟨alternative, _, rfl⟩ := hdeclared
  exact id.ofIndex_index

/-- Every nonterminal of the result is the left-hand side of an alternative. -/
theorem exists_production_resolve {draft : Draft} {start : String} {n : NonTerminal}
    (hn : n.index < draft.nonterminalNames.length) :
    ∃ declared ∈ (draft.resolve start).productions, declared.lhs = n := by
  have hname : draft.nonterminalNames[n.index] ∈ draft.nonterminalNames :=
    List.getElem_mem hn
  obtain ⟨alternative, hmem, hlhs⟩ :
      ∃ alternative ∈ draft.alternatives,
        alternative.lhs = draft.nonterminalNames[n.index] :=
    List.mem_map.mp (mem_distinctNames.mp hname)
  obtain ⟨position, hposition⟩ := List.getElem?_of_mem hmem
  refine ⟨_, mem_productions_resolve.mpr ⟨position, alternative, hposition, rfl⟩, ?_⟩
  have hplace : draft.nonterminalNames.idxOf alternative.lhs = n.index := by
    rw [hlhs]
    exact (nodup_distinctNames _).idxOf_getElem n.index hn
  change NonTerminal.ofIndex (draft.nonterminalNames.idxOf alternative.lhs) = n
  rw [hplace, NonTerminal.ofIndex_index]

end Draft

namespace Grammar

theorem Finished.wellFormed {grammar : Grammar} (hfinished : grammar.Finished) :
    grammar.WellFormed := by
  obtain ⟨⟨draft, start, hfinish⟩, hproductions, hnonterminals, hterminals⟩ := hfinished
  obtain ⟨hstart, rfl⟩ := Draft.finish_eq_ok hfinish
  have hcount : draft.alternatives.length < 2 ^ 32 := by
    simpa [Draft.resolve] using hproductions
  change draft.nonterminalNames.length < 2 ^ 32 at hnonterminals
  change draft.terminalNames.length < 2 ^ 32 at hterminals
  constructor
  case id_production? => exact fun id declared hdeclared => Draft.id_production?_resolve hdeclared
  case production?_id =>
    intro declared hdeclared
    obtain ⟨position, alternative, halternative, rfl⟩ :=
      Draft.mem_productions_resolve.mp hdeclared
    exact Draft.production?_resolve hcount halternative
  case declares_lhs =>
    intro declared hdeclared
    obtain ⟨position, alternative, halternative, rfl⟩ :=
      Draft.mem_productions_resolve.mp hdeclared
    exact Draft.declares_nonterminal hnonterminals
      (Draft.lhs_mem_nonterminalNames (List.mem_of_getElem? halternative))
  case declares_symbols =>
    intro declared hdeclared symbol hsymbol
    obtain ⟨position, alternative, halternative, rfl⟩ :=
      Draft.mem_productions_resolve.mp hdeclared
    rw [Draft.symbols_production, List.mem_map] at hsymbol
    obtain ⟨name, hname, rfl⟩ := hsymbol
    exact Draft.declares_symbolOf hnonterminals hterminals
      (List.mem_of_getElem? halternative) hname
  case eraseEpsilon_rhs =>
    intro declared hdeclared
    obtain ⟨position, alternative, _, rfl⟩ := Draft.mem_productions_resolve.mp hdeclared
    exact Draft.eraseEpsilon_production _ _ position alternative
  case declares_start => exact Draft.declares_nonterminal hnonterminals hstart
  case exists_production => exact fun n hn => Draft.exists_production_resolve hn
  case numNonterminals_lt => exact hnonterminals

/-- A production's number is its position. -/
theorem Finished.index_getElem {grammar : Grammar} (hfinished : grammar.Finished)
    {position : Nat} (hposition : position < grammar.productions.length) :
    grammar.productions[position].id.index = position := by
  have hindex : (ProductionId.ofIndex position).index = position :=
    ProductionId.index_ofIndex (Nat.lt_trans hposition hfinished.productions_lt)
  have hfound : grammar.production? (.ofIndex position) = some grammar.productions[position] := by
    rw [production?, hindex]
    exact List.getElem?_eq_getElem hposition
  rw [hfinished.wellFormed.id_production? _ _ hfound, hindex]

theorem Finished.pairwise_productions {grammar : Grammar} (hfinished : grammar.Finished) :
    grammar.productions.Pairwise (·.id.index < ·.id.index) := by
  apply List.pairwise_iff_getElem.mpr
  intro left right hleft hright hlt
  rwa [hfinished.index_getElem hleft, hfinished.index_getElem hright]

theorem mem_nonterminals {grammar : Grammar} {n : NonTerminal}
    (hn : grammar.Declares (.nonterminal n)) : n ∈ grammar.nonterminals := by
  simp only [nonterminals, List.mem_map, List.mem_range]
  exact ⟨n.index, hn, n.ofIndex_index⟩

theorem mem_nonterminals_iff {grammar : Grammar} {n : NonTerminal} :
    n ∈ grammar.nonterminals ↔ n.index < grammar.numNonterminals := by
  refine ⟨?_, mem_nonterminals⟩
  intro hn
  obtain ⟨index, hindex, rfl⟩ := List.mem_map.mp hn
  -- An index that wraps is smaller than before.
  exact Nat.lt_of_le_of_lt (Nat.mod_le _ _) (List.mem_range.mp hindex)

theorem WellFormed.declares_rhs {grammar : Grammar} (hwell : grammar.WellFormed)
    (production : Production) (hmem : production ∈ grammar.productions) (n : NonTerminal)
    (hn : .nonterminal n ∈ production.rhs) : grammar.Declares (.nonterminal n) := by
  have hkept : .nonterminal n ∈ eraseEpsilon production.rhs := by
    simp [eraseEpsilon, hn]
  rw [hwell.eraseEpsilon_rhs production hmem] at hkept
  exact hwell.declares_symbols production hmem _ hkept

/-- There are at least as many productions as nonterminals. -/
theorem WellFormed.numNonterminals_le {grammar : Grammar} (hwell : grammar.WellFormed) :
    grammar.numNonterminals ≤ grammar.productions.length := by
  have hcover : List.range grammar.numNonterminals ⊆
      grammar.productions.map (·.lhs.index) := by
    intro index hindex
    have hlt : index < grammar.numNonterminals := List.mem_range.mp hindex
    have hsame : (NonTerminal.ofIndex index).index = index :=
      NonTerminal.index_ofIndex (Nat.lt_trans hlt hwell.numNonterminals_lt)
    obtain ⟨production, hmem, hlhs⟩ := hwell.exists_production (.ofIndex index)
      (by rw [Declares, hsame]; exact hlt)
    exact List.mem_map.mpr ⟨production, hmem, by rw [hlhs, hsame]⟩
  simpa using (List.Nodup.subperm List.nodup_range hcover).length_le

/-- Sums and products of one letter, without left recursion. -/
def expressionRules : Draft := .ofRules
  [("E", [["T", "X"]]), ("X", [["+", "T", "X"], []]), ("T", [["F", "Y"]]),
    ("Y", [["*", "F", "Y"], []]), ("F", [["(", "E", ")"], ["i"]])]

def expressions : Grammar := expressionRules.resolve "E"

theorem finished_expressions : expressions.Finished where
  finish_eq := ⟨expressionRules, "E", by decide +kernel⟩
  productions_lt := by decide +kernel
  nonterminals_lt := by decide +kernel
  terminals_lt := by decide +kernel

end Grammar

end Predictive
