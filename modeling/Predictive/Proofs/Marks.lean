import Predictive.Marks
import Predictive.Proofs.Saturation

/-!
Passes that mark.  A visit marks the target of its item if that is due and has not been
done; whether it is due follows from the marks so far.  Such visits propagate the set of
the marked nonterminals.
-/

namespace Predictive

namespace Marks

/-- The nonterminals that are marked. -/
def members (marks : Marks) : Set NonTerminal := { n | marks.has? n = some true }

variable {marks : Marks} {n : NonTerminal}

theorem exists_has? (hn : n.index < marks.size) : ∃ marked, marks.has? n = some marked :=
  ⟨_, Array.getElem?_eq_getElem hn⟩

theorem index_lt_of_mem_marked
    (hn : n ∈ marks.marked) : n.index < marks.size := by
  obtain ⟨⟨bit, index⟩, hentry, rfl⟩ := List.mem_map.mp hn
  have hplace := List.mk_mem_zipIdx_iff_getElem?.mp (List.mem_filter.mp hentry).1
  have hlt : index < marks.size := (List.getElem?_eq_some_iff.mp hplace).1
  exact Nat.lt_of_le_of_lt (Nat.mod_le _ _) hlt

theorem exists_has?_iff :
    (∃ marked, marks.has? n = some marked) ↔ n.index < marks.size :=
  ⟨fun ⟨_, hmarked⟩ => (Array.getElem?_eq_some_iff.mp hmarked).1, exists_has?⟩

theorem members_mark (hn : n.index < marks.size) :
    (marks.mark n).members = { other | other ∈ marks.members ∨ other = n } := by
  ext other
  simp only [members, Set.mem_ofPred_eq, has?_mark]
  by_cases heq : n = other
  · subst heq
    obtain ⟨marked, hmarked⟩ := exists_has? hn
    simp [hmarked]
  · have hne : other ≠ n := Ne.symm heq
    simp [heq, hne]

theorem members_blank (size : Nat) : (blank size).members = ∅ := by
  apply Set.eq_empty_of_forall_notMem
  intro n hmarked
  obtain ⟨_, hvalue⟩ := Array.getElem?_eq_some_iff.mp hmarked
  simp [blank] at hvalue

/-- Visits that mark their target, if it is not marked yet and the premise holds of the
marks so far, follow the rules. -/
theorem governs {Item : Type} {count : Nat} {rules : Propagation Marks Item Unit}
    {items : List Item} {visit? : Marks → Item → Option (Marks × Option NonTerminal)}
    {due? : Marks → Item → Option Bool}
    (hholds : ∀ marks key, rules.holds marks key = marks.members)
    (htargets : ∀ item ∈ items, (rules.target item).index < count)
    (hvisit : ∀ marks item, visit? marks item = do
      if ← marks.has? (rules.target item) then return (marks, none)
      if ← due? marks item then
        return (marks.mark (rules.target item), some (rules.target item))
      return (marks, none))
    (hdue : ∀ marks item, marks.size = count → item ∈ items → ∃ due,
      due? marks item = some due ∧ (due = true ↔ rules.premise item () marks.members)) :
    rules.Governs (fun marks => marks.size = count) items visit? := by
  intro marks item hsize hmem
  have htarget : (rules.target item).index < marks.size := hsize ▸ htargets item hmem
  obtain ⟨marked, hmarked⟩ := exists_has? htarget
  obtain ⟨due, hscan, hpremise⟩ := hdue marks item hsize hmem
  simp only [hholds]
  by_cases hnew : marked = false ∧ due = true
  · obtain ⟨rfl, rfl⟩ := hnew
    refine ⟨marks.mark (rules.target item), some (rules.target item),
      by simp [hvisit, hmarked, hscan], by rw [size_mark, hsize], ?_, ?_⟩
    · intro _
      rw [members_mark htarget]
      ext n
      simp only [Propagation.gain, Set.mem_ofPred_eq, hpremise.mp rfl, and_true]
    · simp only [reduceCtorEq, false_iff, not_forall]
      refine ⟨(), fun hsame => ?_⟩
      have hgained : rules.target item ∈ (marks.mark (rules.target item)).members := by
        rw [members_mark htarget]
        exact Or.inr rfl
      rw [hsame, members, Set.mem_ofPred_eq, hmarked] at hgained
      cases hgained
  · refine ⟨marks, none, ?_, hsize, ?_, by simp⟩
    · cases marked <;> cases due <;> simp_all
    · intro _
      apply Set.Subset.antisymm (Propagation.subset_gain _ _)
      rintro n (hold | ⟨rfl, hholdsNow⟩)
      · exact hold
      · cases marked with
        | true => exact hmarked
        | false => exact absurd ⟨rfl, hpremise.mpr hholdsNow⟩ hnew

end Marks

end Predictive
