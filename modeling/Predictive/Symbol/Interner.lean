/-!
Interning.  Each distinct name gets the index of its first occurrence, so the
indices are dense and the names in index order are the names in order of first
occurrence.
-/

namespace Predictive

/-- The distinct names seen so far, in order of first occurrence. -/
structure Interner where
  names : List String
deriving DecidableEq, Repr

namespace Interner

def empty : Interner := ⟨[]⟩

def size (interner : Interner) : Nat := interner.names.length

/-- The name with the given index.  There is one for every index below the size. -/
def name (interner : Interner) (index : Nat) : String := interner.names.getD index ""

/-- The index of a name, which is added at the end if it is new. -/
def intern (interner : Interner) (name : String) : Nat × Interner :=
  match interner.names.idxOf? name with
  | some index => (index, interner)
  | none => (interner.names.length, ⟨interner.names ++ [name]⟩)

/-- The indices of several names, interned from left to right. -/
def internAll (interner : Interner) : List String → List Nat × Interner
  | [] => ([], interner)
  | name :: rest =>
      let (index, next) := interner.intern name
      let (indices, last) := next.internAll rest
      (index :: indices, last)

/-- A name that is new comes last, and a name that is known changes nothing. -/
theorem names_intern (interner : Interner) (name : String) :
    (interner.intern name).2.names =
      if name ∈ interner.names then interner.names else interner.names ++ [name] := by
  unfold intern
  split
  · rename_i index hindex
    obtain ⟨hlt, hname, _⟩ := List.idxOf?_eq_some_iff.mp hindex
    rw [if_pos (hname ▸ List.getElem_mem hlt)]
  · rename_i hnone
    rw [if_neg (List.idxOf?_eq_none_iff.mp hnone)]

/-- Interning keeps the names distinct. -/
theorem nodup_intern {interner : Interner} (hnodup : interner.names.Nodup)
    (name : String) : (interner.intern name).2.names.Nodup := by
  rw [names_intern]
  split
  · exact hnodup
  · rename_i hnew
    simp only [List.nodup_append, List.nodup_cons, List.not_mem_nil, not_false_eq_true,
      List.nodup_nil, and_true, true_and, List.mem_singleton]
    refine ⟨hnodup, ?_⟩
    intro old hold new hsame heq
    exact hnew (hsame ▸ heq ▸ hold)

theorem mem_intern {interner : Interner} {name other : String} :
    other ∈ (interner.intern name).2.names ↔ other ∈ interner.names ∨ other = name := by
  rw [names_intern]
  split
  · rename_i hmem
    constructor
    · exact Or.inl
    · rintro (hold | rfl)
      · exact hold
      · exact hmem
  · simp

theorem nodup_internAll {interner : Interner} (hnodup : interner.names.Nodup)
    (names : List String) : (interner.internAll names).2.names.Nodup := by
  induction names generalizing interner with
  | nil => exact hnodup
  | cons name rest ih => exact ih (nodup_intern hnodup name)

theorem mem_internAll {interner : Interner} {names : List String} {other : String} :
    other ∈ (interner.internAll names).2.names ↔
      other ∈ interner.names ∨ other ∈ names := by
  induction names generalizing interner with
  | nil => simp [internAll]
  | cons name rest ih =>
      have hrest := @ih (interner.intern name).2
      simp only [internAll, hrest, mem_intern, List.mem_cons, or_assoc]

/-- The later interner has the earlier one's names, under the same indices. -/
def ExtendedBy (earlier later : Interner) : Prop := earlier.names <+: later.names

theorem extendedBy_intern (interner : Interner) (name : String) :
    interner.ExtendedBy (interner.intern name).2 := by
  rw [ExtendedBy, names_intern]
  split
  · exact List.prefix_rfl
  · exact List.prefix_append _ _

theorem extendedBy_internAll (interner : Interner) (names : List String) :
    interner.ExtendedBy (interner.internAll names).2 := by
  induction names generalizing interner with
  | nil => exact List.prefix_rfl
  | cons name rest ih => exact (interner.extendedBy_intern name).trans (ih _)

theorem ExtendedBy.size_le {earlier later : Interner} (hextended : earlier.ExtendedBy later) :
    earlier.size ≤ later.size :=
  hextended.length_le

theorem ExtendedBy.name_eq {earlier later : Interner} (hextended : earlier.ExtendedBy later)
    {index : Nat} (hindex : index < earlier.size) : later.name index = earlier.name index := by
  obtain ⟨more, hmore⟩ := hextended
  simp only [name, List.getD_eq_getElem?_getD]
  rw [← hmore, List.getElem?_append_left hindex]

/-- The index given out is that of the name. -/
theorem getElem?_intern (interner : Interner) (name : String) :
    (interner.intern name).2.names[(interner.intern name).1]? = some name := by
  unfold intern
  split
  · rename_i index hindex
    rw [List.idxOf?_eq_some_iff] at hindex
    obtain ⟨hlt, hname, _⟩ := hindex
    rw [List.getElem?_eq_getElem hlt, hname]
  · simp

theorem intern_lt (interner : Interner) (name : String) :
    (interner.intern name).1 < (interner.intern name).2.size :=
  (List.getElem?_eq_some_iff.mp (interner.getElem?_intern name)).1

@[simp] theorem name_intern (interner : Interner) (name : String) :
    (interner.intern name).2.name (interner.intern name).1 = name := by
  rw [Interner.name, List.getD_eq_getElem?_getD, getElem?_intern, Option.getD_some]

theorem internAll_lt (interner : Interner) (names : List String) :
    ∀ index ∈ (interner.internAll names).1, index < (interner.internAll names).2.size := by
  induction names generalizing interner with
  | nil => exact fun index hindex => absurd hindex List.not_mem_nil
  | cons name rest ih =>
      intro index hindex
      rcases List.mem_cons.mp hindex with rfl | hrest
      · exact Nat.lt_of_lt_of_le (interner.intern_lt name)
          (extendedBy_internAll _ rest).size_le
      · exact ih _ index hrest

/-- The indices given out spell the names. -/
@[simp] theorem map_name_internAll (interner : Interner) (names : List String) :
    (interner.internAll names).1.map (interner.internAll names).2.name = names := by
  induction names generalizing interner with
  | nil => rfl
  | cons name rest ih =>
      have hkept := (extendedBy_internAll (interner.intern name).2 rest).name_eq
        (interner.intern_lt name)
      simp only [internAll, List.map_cons, hkept, name_intern, ih]

end Interner

/-- The distinct names of a list, in order of first occurrence. -/
def distinctNames (names : List String) : List String :=
  (Interner.empty.internAll names).2.names

theorem nodup_distinctNames (names : List String) : (distinctNames names).Nodup :=
  Interner.nodup_internAll List.nodup_nil names

@[simp] theorem mem_distinctNames {names : List String} {name : String} :
    name ∈ distinctNames names ↔ name ∈ names := by
  simp [distinctNames, Interner.mem_internAll, Interner.empty]

end Predictive
