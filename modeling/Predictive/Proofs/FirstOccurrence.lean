import Mathlib.Data.List.Basic
import Mathlib.Data.List.Induction
import Mathlib.Data.List.Nodup
import Mathlib.Data.Set.Function
import Predictive.Symbol.Interner

/-!
The distinct names of a list, one name at a time.  A name that comes at the end is new or
changes nothing; by induction from the end of the list, the distinct names are in the order
of their first occurrences, and keeping only some names or renaming them all may be done
before or after.
-/

namespace Predictive

namespace Interner

variable {interner : Interner} {index : Nat}

theorem name_eq_getElem (hindex : index < interner.names.length) :
    interner.name index = interner.names[index] := by
  rw [name, List.getD_eq_getElem?_getD, List.getElem?_eq_getElem hindex, Option.getD_some]

theorem name_mem (hindex : index < interner.size) : interner.name index ∈ interner.names := by
  rw [name_eq_getElem hindex]
  exact List.getElem_mem hindex

/-- Different indices spell different names. -/
theorem name_inj (hnodup : interner.names.Nodup) {left right : Nat}
    (hleft : left < interner.size) (hright : right < interner.size) :
    interner.name left = interner.name right ↔ left = right := by
  rw [name_eq_getElem hleft, name_eq_getElem hright]
  exact hnodup.getElem_inj_iff

theorem name_of_idxOf?_eq_some {name : String}
    (hplace : interner.names.idxOf? name = some index) :
    index < interner.size ∧ interner.name index = name := by
  obtain ⟨hlt, hname, _⟩ := List.idxOf?_eq_some_iff.mp hplace
  exact ⟨hlt, (name_eq_getElem hlt).trans hname⟩

/-- Interning two lists is interning the first and then the second. -/
theorem internAll_append (interner : Interner) (left right : List String) :
    (interner.internAll (left ++ right)).2 =
      ((interner.internAll left).2.internAll right).2 := by
  induction left generalizing interner with
  | nil => rfl
  | cons name rest ih => exact ih (interner.intern name).2

end Interner

/-- A new name at the end has the last place. -/
theorem idxOf_concat {names : List String} {name : String} (hnew : name ∉ names) :
    (names ++ [name]).idxOf name = names.length := by
  rw [List.idxOf_append_of_notMem hnew, List.idxOf_cons_self, Nat.add_zero]

theorem distinctNames_concat (names : List String) (name : String) :
    distinctNames (names ++ [name]) =
      if name ∈ names then distinctNames names else distinctNames names ++ [name] := by
  have hlast : distinctNames (names ++ [name]) =
      ((Interner.empty.internAll names).2.intern name).2.names := by
    rw [distinctNames, Interner.internAll_append]
    rfl
  have hmem : name ∈ (Interner.empty.internAll names).2.names ↔ name ∈ names :=
    mem_distinctNames
  rw [hlast, Interner.names_intern]
  simp only [hmem, distinctNames]

/-- More names at the end do not move the names that are there. -/
theorem idxOf_distinctNames_append {left : List String} {name : String} (hmem : name ∈ left)
    (right : List String) :
    (distinctNames (left ++ right)).idxOf name = (distinctNames left).idxOf name := by
  have hextended : distinctNames left <+: distinctNames (left ++ right) := by
    rw [distinctNames, distinctNames, Interner.internAll_append]
    exact Interner.extendedBy_internAll _ right
  obtain ⟨more, hmore⟩ := hextended
  rw [← hmore, List.idxOf_append_of_mem (mem_distinctNames.mpr hmem)]

/-- Distinct names are in the order of their first occurrences. -/
theorem pairwise_distinctNames (names : List String) :
    (distinctNames names).Pairwise fun left right =>
      names.idxOf left < names.idxOf right := by
  induction names using List.reverseRecOn with
  | nil => exact List.Pairwise.nil
  | append_singleton names name ih =>
      have hkept : ∀ other ∈ distinctNames names,
          (names ++ [name]).idxOf other = names.idxOf other :=
        fun other hother => List.idxOf_append_of_mem (mem_distinctNames.mp hother)
      have hearlier : (distinctNames names).Pairwise fun left right =>
          (names ++ [name]).idxOf left < (names ++ [name]).idxOf right := by
        apply ih.imp_of_mem
        intro left right hleft hright hlt
        rw [hkept left hleft, hkept right hright]
        exact hlt
      rw [distinctNames_concat]
      split
      · exact hearlier
      · rename_i hnew
        rw [List.pairwise_append]
        refine ⟨hearlier, List.pairwise_singleton _ _, ?_⟩
        intro other hother last hlast
        obtain rfl := List.mem_singleton.mp hlast
        rw [hkept other hother, idxOf_concat hnew]
        exact List.idxOf_lt_length_of_mem (mem_distinctNames.mp hother)

theorem distinctNames_filter (keep : String → Bool) (names : List String) :
    distinctNames (names.filter keep) = (distinctNames names).filter keep := by
  induction names using List.reverseRecOn with
  | nil => rfl
  | append_singleton names name ih =>
      rw [List.filter_append, distinctNames_concat]
      cases hkeep : keep name with
      | false => split <;> simp [hkeep, ih]
      | true =>
          have hmem : name ∈ names.filter keep ↔ name ∈ names := by simp [hkeep]
          rw [List.filter_cons_of_pos hkeep, List.filter_nil, distinctNames_concat]
          simp only [hmem, ih]
          split <;> simp [hkeep]

/-- Names may be replaced by others, as long as different ones stay different. -/
theorem distinctNames_map {names : List String} {rename : String → String}
    (hrename : Set.InjOn rename { name | name ∈ names }) :
    distinctNames (names.map rename) = (distinctNames names).map rename := by
  induction names using List.reverseRecOn with
  | nil => rfl
  | append_singleton names name ih =>
      have hsame : rename name ∈ names.map rename ↔ name ∈ names := by
        rw [List.mem_map]
        constructor
        · rintro ⟨other, hother, heq⟩
          obtain rfl := hrename (List.mem_append_left _ hother) (by simp) heq
          exact hother
        · exact fun hmem => ⟨name, hmem, rfl⟩
      have hearlier := ih (hrename.mono fun _ hmem => List.mem_append_left _ hmem)
      rw [List.map_append, List.map_singleton, distinctNames_concat, distinctNames_concat,
        hearlier]
      simp only [hsame]
      split <;> simp

end Predictive
