import Predictive.Proofs.Table

/-!
Indices stay in range.  What one phase hands on to the next names only what the grammar has.
Passes mark and extend nonterminals on left-hand sides or in right-hand sides, and no others.
What is in their sets begins or follows something that the grammar derives, so it occurs in a
right-hand side.  A claim is made by a production in its own row, and all that the table holds
or records has been claimed.
-/

namespace Predictive

/-- The grammar has the terminal or nonterminal; ε and the end of input have no index. -/
def Symbol.InRange (symbol : Symbol) (grammar : Grammar) : Prop :=
  match symbol with
  | .terminal t => t.index < grammar.numTerminals
  | .nonterminal n => n.index < grammar.numNonterminals
  | .epsilon | .endMarker => True

/-- The production is found by its number, and consists of symbols of the grammar. -/
structure Production.InRange (production : Production) (grammar : Grammar) : Prop where
  id : production.id.index < grammar.productions.length
  lhs : production.lhs.index < grammar.numNonterminals
  rhs : ∀ symbol ∈ production.rhs, symbol.InRange grammar

/-- There is an answer for every nonterminal of the grammar and for no other. -/
structure Nullable.InRange (nullable : Nullable) (grammar : Grammar) : Prop where
  has?_iff : ∀ n, (∃ answer, nullable.has? n = some answer) ↔ n.index < grammar.numNonterminals
  nonterminals : ∀ n ∈ nullable.nonterminals, n.index < grammar.numNonterminals

/-- There is a set for every nonterminal of the grammar and for no other, and its members are
symbols of the grammar. -/
structure Family.InRange {Member : Type} [Ord Member] [Std.TransOrd Member]
    (family : Family Member) (symbol : Member → Symbol) (grammar : Grammar) : Prop where
  mem_iff : ∀ n, n ∈ family ↔ n.index < grammar.numNonterminals
  members : ∀ (n : NonTerminal) (set : Std.ExtTreeSet Member), family[n]? = some set →
    ∀ member ∈ set, (symbol member).InRange grammar

/-- The cell is one for the grammar, and the production is one of its row. -/
def Grammar.Fills (grammar : Grammar) (cell : Cell) (id : ProductionId) : Prop :=
  cell.nonterminal.index < grammar.numNonterminals ∧ cell.lookahead.symbol.InRange grammar ∧
    ∃ h : id.index < grammar.productions.length,
      grammar.productions[id.index].lhs = cell.nonterminal

variable {grammar : Grammar}

theorem Grammar.Declares.inRange {symbol : Symbol} (hdeclared : grammar.Declares symbol) :
    symbol.InRange grammar := by
  cases symbol with
  | terminal t => exact hdeclared
  | nonterminal n => exact hdeclared
  | epsilon => exact hdeclared.elim
  | endMarker => exact hdeclared.elim

namespace Grammar

theorem WellFormed.inRange_production (hwell : grammar.WellFormed) {production : Production}
    (hmem : production ∈ grammar.productions) : production.InRange grammar where
  id := (List.getElem?_eq_some_iff.mp (hwell.production?_id production hmem)).1
  lhs := hwell.declares_lhs production hmem
  rhs symbol hsymbol := by
    by_cases hepsilon : symbol = .epsilon
    · rw [hepsilon]
      trivial
    · have hkept : symbol ∈ eraseEpsilon production.rhs := by simp [eraseEpsilon, hsymbol, hepsilon]
      rw [hwell.eraseEpsilon_rhs production hmem] at hkept
      exact (hwell.declares_symbols production hmem symbol hkept).inRange

/-- What follows a nonterminal is the end of input, or begins the rest of a right-hand side. -/
theorem WellFormed.inRange_of_follows (hwell : grammar.WellFormed) {lookahead : Lookahead}
    {n : NonTerminal} (hfollows : grammar.Follows lookahead n) :
    lookahead.symbol.InRange grammar := by
  induction hfollows with
  | start hend =>
      rw [hend]
      trivial
  | @first production n before after hmem hsplit hbegins =>
      refine (hwell.declares_of_begins ?_ hbegins).inRange
      intro symbol hsymbol
      apply hwell.declares_symbols production hmem
      rw [hsplit]
      exact List.mem_append_right before (List.mem_cons_of_mem _ hsymbol)
  | inherit _ _ _ _ ih => exact ih

theorem WellFormed.fills_of_predicts (hwell : grammar.WellFormed) {production : Production}
    (hmem : production ∈ grammar.productions) {lookahead : Lookahead}
    (hpredicts : grammar.Predicts lookahead production) :
    grammar.Fills ⟨production.lhs, lookahead⟩ production.id := by
  refine ⟨hwell.declares_lhs production hmem, ?_, ?_⟩
  · rcases hpredicts with hbegins | ⟨_, hfollows⟩
    · exact (hwell.declares_of_begins (hwell.declares_symbols production hmem) hbegins).inRange
    · exact hwell.inRange_of_follows hfollows
  · obtain ⟨hlt, hfound⟩ := List.getElem?_eq_some_iff.mp (hwell.production?_id production hmem)
    exact ⟨hlt, congrArg Production.lhs hfound⟩

end Grammar

namespace Nullable

/-- Only left-hand sides are marked. -/
theorem keeps (hwell : grammar.WellFormed) :
    Keeps (fun marks => marks.size = grammar.numNonterminals)
      (fun n => n.index < grammar.numNonterminals) grammar.productions visit? := by
  intro marks production next change hsize hmem hvisit
  obtain ⟨marked, _, hvisit⟩ := Option.bind_eq_some_iff.mp hvisit
  split at hvisit
  · cases hvisit
    exact ⟨hsize, by simp⟩
  · obtain ⟨due, _, hvisit⟩ := Option.bind_eq_some_iff.mp hvisit
    split at hvisit
    · cases hvisit
      refine ⟨(Marks.size_mark _ _).trans hsize, ?_⟩
      intro made hmade
      rw [← Option.mem_some.mp hmade]
      exact hwell.declares_lhs production hmem
    · cases hvisit
      exact ⟨hsize, by simp⟩

theorem saturation?_inRange (hwell : grammar.WellFormed) {result : Saturation Marks NonTerminal}
    (hresult : saturation? grammar = some result) :
    result.state.size = grammar.numNonterminals ∧
      ∀ n ∈ result.changes, n.index < grammar.numNonterminals :=
  (keeps hwell).saturate (by simp [Marks.blank, Marks.size]) hresult

theorem ofGrammar?_inRange (hwell : grammar.WellFormed) {nullable : Nullable}
    (hnullable : ofGrammar? grammar = some nullable) : nullable.InRange grammar := by
  obtain ⟨result, hresult, rfl⟩ := Option.map_eq_some_iff.mp hnullable
  obtain ⟨hsize, _⟩ := saturation?_inRange hwell hresult
  constructor
  · intro n
    rw [← hsize]
    exact Marks.exists_has?_iff
  · intro n hn
    rw [← hsize]
    exact Marks.index_lt_of_mem_marked hn

end Nullable

namespace Family

variable {Member : Type} [Ord Member] {count : Nat}

/-- The nonterminals with a set are the first ones, as many as are counted. -/
def Counted (count : Nat) (family : Family Member) : Prop :=
  ∀ n, n ∈ family ↔ n.index < count

theorem counted_ofList_empty (grammar : Grammar) :
    Counted grammar.numNonterminals
      (.ofList (grammar.nonterminals.map (·, (∅ : Std.ExtTreeSet Member)))) := by
  intro n
  rw [← Grammar.mem_nonterminals_iff, Std.ExtTreeMap.mem_ofList]
  simp

theorem Counted.insert {family : Family Member} (hcounted : family.Counted count)
    {n : NonTerminal} (hn : n.index < count) (set : Std.ExtTreeSet Member) :
    Counted count (family.insert n set) := by
  intro other
  rw [Std.ExtTreeMap.mem_insert, hcounted, Std.compare_eq_iff_eq]
  refine ⟨?_, Or.inr⟩
  rintro (rfl | hother)
  · exact hn
  · exact hother

variable [Std.TransOrd Member]

/-- Visits that let the set of their target grow keep to the nonterminals that are counted. -/
theorem Counted.saturate {Item : Type} {items : List Item} {target : Item → NonTerminal}
    {visit? : Family Member → Item → Option (Family Member × Option Growth)}
    (htargets : ∀ item ∈ items, (target item).index < count)
    (hvisit : ∀ family item next change, visit? family item = some (next, change) →
      ∃ gained, family.grow (target item) gained = (next, change))
    {bound : Nat} {family : Family Member} (hcounted : family.Counted count)
    {result : Saturation (Family Member) Growth}
    (hresult : saturate (sweep visit? · items) bound family = some result) :
    result.state.Counted count ∧ ∀ growth ∈ result.changes, growth.nonterminal.index < count := by
  have hkeeps : Keeps (Counted count) (fun growth => growth.nonterminal.index < count) items
      visit? := by
    intro family item next change hcounted hmem hfound
    obtain ⟨gained, hgrow⟩ := hvisit family item next change hfound
    obtain ⟨rfl, rfl⟩ := Prod.mk.inj hgrow
    refine ⟨hcounted.insert (htargets item hmem) _, ?_⟩
    intro growth hgrowth
    obtain ⟨_, hsame⟩ := Option.ite_none_left_eq_some.mp hgrowth
    rw [← Option.some.inj hsame]
    exact htargets item hmem
  exact hkeeps.saturate hcounted hresult

/-- The members are in range if they are wherever they have an owner. -/
theorem Counted.inRange {family : Family Member} {symbol : Member → Symbol}
    (hcounted : family.Counted grammar.numNonterminals)
    (howners : ∀ member n, n ∈ family.owners member → (symbol member).InRange grammar) :
    family.InRange symbol grammar where
  mem_iff := hcounted
  members n set hset member hmember := by
    apply howners member n
    rw [owners, Set.mem_ofPred_eq, Std.ExtTreeMap.getD_eq_getD_getElem?, hset]
    exact hmember

end Family

namespace FirstSets

theorem saturation?_inRange (hwell : grammar.WellFormed) {nullable : Nullable}
    {result : Saturation TerminalSets Growth}
    (hresult : saturation? grammar nullable = some result) :
    Family.Counted grammar.numNonterminals result.state ∧
      ∀ growth ∈ result.changes, growth.nonterminal.index < grammar.numNonterminals := by
  refine Family.Counted.saturate (fun production hmem => hwell.declares_lhs production hmem) ?_
    (Family.counted_ofList_empty grammar) hresult
  intro sets production next change hvisit
  obtain ⟨gained, _, hgrow⟩ := Option.bind_eq_some_iff.mp hvisit
  exact ⟨gained.terminals, Option.some.inj hgrow⟩

theorem ofGrammar?_inRange (hwell : grammar.WellFormed) {nullable : Nullable} {first : FirstSets}
    (hfirst : ofGrammar? grammar nullable = some first) (hexact : first.Exact grammar) :
    Family.InRange first.sets .terminal grammar := by
  obtain ⟨result, hresult, rfl⟩ := Option.map_eq_some_iff.mp hfirst
  apply (saturation?_inRange hwell hresult).1.inRange
  intro terminal n hn
  rw [hexact.owners_eq] at hn
  obtain ⟨production, hmem, _, hbegins⟩ := Grammar.begins_nonterminal_iff.mp hn
  exact (hwell.declares_of_begins (hwell.declares_symbols production hmem) hbegins).inRange

end FirstSets

namespace FollowSets

theorem saturation?_inRange (hwell : grammar.WellFormed) {first : FirstSets}
    {result : Saturation LookaheadSets Growth}
    (hresult : saturation? grammar first = some result) :
    Family.Counted grammar.numNonterminals result.state ∧
      ∀ growth ∈ result.changes, growth.nonterminal.index < grammar.numNonterminals := by
  have hinitial : Family.Counted grammar.numNonterminals (initial grammar) :=
    (Family.counted_ofList_empty grammar).insert hwell.declares_start _
  refine Family.Counted.saturate (fun occurrence hmem => (hwell.declares_occurrence hmem).1) ?_
    hinitial hresult
  intro sets occurrence next change hvisit
  obtain ⟨gained, _, hgrow⟩ := Option.bind_eq_some_iff.mp hvisit
  exact ⟨gained, Option.some.inj hgrow⟩

theorem ofGrammar?_inRange (hwell : grammar.WellFormed) {first : FirstSets} {follow : FollowSets}
    (hfollow : ofGrammar? grammar first = some follow) (hexact : follow.Exact grammar) :
    Family.InRange follow.sets Lookahead.symbol grammar := by
  obtain ⟨result, hresult, rfl⟩ := Option.map_eq_some_iff.mp hfollow
  apply (saturation?_inRange hwell hresult).1.inRange
  intro lookahead n hn
  rw [hexact.owners_eq] at hn
  exact hwell.inRange_of_follows hn

end FollowSets

namespace Table

theorem Claimed.within_fills {claims : List Claim} (hclaimed : Claimed grammar claims)
    (hwell : grammar.WellFormed) (policy : ConflictPolicy) :
    (claims.foldl Table.claim (.empty policy)).Within grammar.Fills := by
  refine hclaimed.within.mono ?_
  rintro ⟨n, lookahead⟩ id ⟨production, hproduction, rfl, rfl, hpredicts⟩
  exact hwell.fills_of_predicts hproduction hpredicts

end Table

end Predictive
