import Predictive.First
import Predictive.Proofs.Saturation

/-!
Families of sets that grow.  A family keeps one set per nonterminal; a visit joins
what it gains to the set of one nonterminal and stores the result.  For every
member, the nonterminals whose sets have it form the set that the visits propagate.
-/

namespace Predictive

/-- Sets of members, by nonterminal. -/
abbrev Family (Member : Type) [Ord Member] :=
  Std.ExtTreeMap NonTerminal (Std.ExtTreeSet Member)

namespace Family

variable {Member Item : Type} [Ord Member]

theorem getD_ofList_empty (names : List NonTerminal) (n : NonTerminal) :
    (Std.ExtTreeMap.ofList (names.map (·, (∅ : Std.ExtTreeSet Member)))).getD n ∅ = ∅ := by
  rw [Std.ExtTreeMap.ofList_eq_foldl]
  suffices hfold : ∀ family : Family Member, family.getD n ∅ = ∅ →
      ((names.map (·, (∅ : Std.ExtTreeSet Member))).foldl
        (fun family entry => family.insert entry.1 entry.2) family).getD n ∅ = ∅ from
    hfold ∅ Std.ExtTreeMap.getD_empty
  intro family hfamily
  induction names generalizing family with
  | nil => exact hfamily
  | cons name rest ih =>
      apply ih
      rw [Std.ExtTreeMap.getD_insert]
      split
      · rfl
      · exact hfamily

theorem mem_ofList_empty {names : List NonTerminal} {n : NonTerminal} (hn : n ∈ names) :
    n ∈ (Std.ExtTreeMap.ofList (names.map (·, (∅ : Std.ExtTreeSet Member))) :
      Family Member) := by
  rw [Std.ExtTreeMap.mem_ofList]
  simpa using hn

variable [Std.TransOrd Member]

/-- The nonterminals whose sets have the member. -/
def owners (family : Family Member) (member : Member) : Set NonTerminal :=
  { n | member ∈ family.getD n ∅ }

/-- The set of a nonterminal with an entry says which members the nonterminal owns. -/
theorem exists_getElem? {family : Family Member} {n : NonTerminal} (hn : n ∈ family) :
    ∃ set, family[n]? = some set ∧ ∀ member, member ∈ set ↔ n ∈ family.owners member := by
  have hentry := Std.ExtTreeMap.getElem?_eq_some_getElem hn
  refine ⟨_, hentry, ?_⟩
  intro member
  rw [owners, Set.mem_ofPred_eq, Std.ExtTreeMap.getD_eq_getD_getElem?, hentry, Option.getD_some]

theorem not_mem_owners_ofList_empty (names : List NonTerminal) (n : NonTerminal)
    (member : Member) :
    n ∉ owners (.ofList (names.map (·, (∅ : Std.ExtTreeSet Member)))) member := by
  rw [owners, Set.mem_ofPred_eq, getD_ofList_empty]
  exact Std.ExtTreeSet.not_mem_empty

/-- Joins what is gained to the set of a nonterminal, and says whether that set has
grown. -/
def grow (family : Family Member) (n : NonTerminal) (gained : Std.ExtTreeSet Member) :
    Family Member × Option Growth :=
  let old := family.getD n ∅
  let new := old ∪ gained
  (family.insert n new, if new.size = old.size then none else some ⟨n, new.size⟩)

theorem owners_insert (family : Family Member) (n : NonTerminal)
    (set : Std.ExtTreeSet Member) (member : Member) :
    owners (family.insert n set) member =
      { other | if n = other then member ∈ set else other ∈ family.owners member } := by
  ext other
  simp only [owners, Set.mem_ofPred_eq, Std.ExtTreeMap.getD_insert, Std.compare_eq_iff_eq]
  split <;> rfl

theorem owners_grow (family : Family Member) (n : NonTerminal)
    (gained : Std.ExtTreeSet Member) (member : Member) :
    (family.grow n gained).1.owners member =
      { other | other ∈ family.owners member ∨ other = n ∧ member ∈ gained } := by
  change owners (family.insert n (family.getD n ∅ ∪ gained)) member = _
  rw [owners_insert]
  ext other
  by_cases heq : n = other
  · subst heq
    simp [owners]
  · have hne : other ≠ n := Ne.symm heq
    simp [heq, hne]

theorem mem_grow {family : Family Member} {n other : NonTerminal}
    {gained : Std.ExtTreeSet Member} (hother : other ∈ family) :
    other ∈ (family.grow n gained).1 := by
  change other ∈ family.insert n _
  exact Std.ExtTreeMap.mem_insert.mpr (Or.inr hother)

variable [Std.LawfulEqOrd Member]

/-- A union is no larger than its left part exactly if the right part adds
nothing. -/
theorem size_union_eq_iff {old gained : Std.ExtTreeSet Member} :
    (old ∪ gained).size = old.size ↔ ∀ member ∈ gained, member ∈ old := by
  constructor
  · intro hsize member hgained
    by_contra hnew
    have hunion : old.insert member ∪ gained = old ∪ gained := by
      apply Std.ExtTreeSet.ext_mem
      intro other
      simp only [Std.ExtTreeSet.mem_union_iff, Std.ExtTreeSet.mem_insert,
        Std.compare_eq_iff_eq]
      constructor
      · rintro ((rfl | hold) | hother)
        · exact Or.inr hgained
        · exact Or.inl hold
        · exact Or.inr hother
      · rintro (hold | hother)
        · exact Or.inl (Or.inr hold)
        · exact Or.inr hother
    have hinsert : (old.insert member).size = old.size + 1 := by
      simp [Std.ExtTreeSet.size_insert, hnew]
    have hle : (old.insert member).size ≤ (old.insert member ∪ gained).size :=
      Std.ExtTreeSet.size_left_le_size_union
    rw [hunion, hsize, hinsert] at hle
    omega
  · intro hsubset
    have hunion : old ∪ gained = old := by
      apply Std.ExtTreeSet.ext_mem
      intro other
      rw [Std.ExtTreeSet.mem_union_iff]
      exact ⟨fun hboth => hboth.elim id (hsubset other), Or.inl⟩
    rw [hunion]

theorem grow_eq_none_iff (family : Family Member) (n : NonTerminal)
    (gained : Std.ExtTreeSet Member) :
    (family.grow n gained).2 = none ↔
      ∀ member, (family.grow n gained).1.owners member = family.owners member := by
  have hchange : (family.grow n gained).2 = none ↔
      ∀ member ∈ gained, member ∈ family.getD n ∅ := by
    rw [← size_union_eq_iff]
    simp [grow]
  rw [hchange]
  constructor
  · intro hsubset member
    rw [owners_grow]
    apply Set.Subset.antisymm
    · rintro other (hold | ⟨rfl, hgained⟩)
      · exact hold
      · exact hsubset member hgained
    · exact fun other hold => Or.inl hold
  · intro hsame member hgained
    have hn : n ∈ (family.grow n gained).1.owners member := by
      rw [owners_grow]
      exact Or.inr ⟨rfl, hgained⟩
    rw [hsame member] at hn
    exact hn

/-- Visits that join to the set of their target exactly the members whose premise
holds follow the rules. -/
theorem governs {count : Nat} {rules : Propagation (Family Member) Item Member}
    {items : List Item}
    {visit? : Family Member → Item → Option (Family Member × Option Growth)}
    (hholds : rules.holds = owners)
    (hvisit : ∀ family item, (∀ n : NonTerminal, n.index < count → n ∈ family) →
      item ∈ items → ∃ gained, visit? family item = some (family.grow (rules.target item) gained) ∧
        ∀ member, member ∈ gained ↔ rules.premise item member (family.owners member)) :
    rules.Governs (fun family => ∀ n : NonTerminal, n.index < count → n ∈ family) items
      visit? := by
  intro family item hvalid hitem
  obtain ⟨gained, hgrow, hgained⟩ := hvisit family item hvalid hitem
  refine ⟨(family.grow _ gained).1, (family.grow _ gained).2, hgrow,
    fun n hn => mem_grow (hvalid n hn), ?_, ?_⟩
  · intro member
    rw [hholds, owners_grow]
    ext other
    simp only [Propagation.gain, Set.mem_ofPred_eq, hgained member]
  · rw [hholds]
    exact grow_eq_none_iff family _ gained

end Family

end Predictive
