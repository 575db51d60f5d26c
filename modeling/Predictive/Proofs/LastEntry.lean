import Mathlib.Data.List.Induction
import Predictive.Table

/-!
Maps made from lists of entries, and the order in which a table lists its cells.  Of several
entries for one key the last one counts, wherever the others stand.
-/

namespace Predictive

section LastEntry

variable {Key Item : Type} {entries : List (Key × Item)} {key : Key} {item : Item}

/-- The list has an entry for the key, and the last one has the item. -/
def LastEntry (entries : List (Key × Item)) (key : Key) (item : Item) : Prop :=
  ∃ before after, entries = before ++ (key, item) :: after ∧ ∀ entry ∈ after, entry.1 ≠ key

theorem LastEntry.mem (hlast : LastEntry entries key item) : (key, item) ∈ entries := by
  obtain ⟨before, after, rfl, _⟩ := hlast
  exact List.mem_append_right before List.mem_cons_self

theorem lastEntry_concat_iff {entry : Key × Item} :
    LastEntry (entries ++ [entry]) key item ↔
      entry = (key, item) ∨ entry.1 ≠ key ∧ LastEntry entries key item := by
  constructor
  · rintro ⟨before, after, hsplit, hafter⟩
    rcases List.eq_nil_or_concat after with rfl | ⟨earlier, last, rfl⟩
    · exact Or.inl (List.singleton_inj.mp (List.append_inj_right' hsplit rfl))
    · rw [List.concat_eq_append, ← List.cons_append, ← List.append_assoc] at hsplit
      obtain ⟨rfl, hsame⟩ := List.append_inj' hsplit rfl
      obtain rfl := List.singleton_inj.mp hsame
      refine Or.inr ⟨hafter _ (by simp), before, earlier, rfl, ?_⟩
      exact fun other hother => hafter other (by simp [hother])
  · rintro (rfl | ⟨hother, before, after, rfl, hafter⟩)
    · exact ⟨entries, [], rfl, List.forall_mem_nil _⟩
    · refine ⟨before, after ++ [entry], by simp, ?_⟩
      intro later hlater
      rcases List.mem_append.mp hlater with hmem | hmem
      · exact hafter later hmem
      · rwa [List.mem_singleton.mp hmem]

/-- Where no key comes twice, every entry is the last one for its key. -/
theorem lastEntry_iff_mem (hdistinct : entries.Pairwise fun left right => left.1 ≠ right.1) :
    LastEntry entries key item ↔ (key, item) ∈ entries := by
  constructor
  · exact LastEntry.mem
  · intro hmem
    obtain ⟨before, after, rfl⟩ := List.append_of_mem hmem
    have hafter := (List.pairwise_cons.mp (List.pairwise_append.mp hdistinct).2.1).1
    exact ⟨before, after, rfl, fun entry hentry => (hafter entry hentry).symm⟩

variable [Ord Key] [Std.TransOrd Key] [Std.LawfulEqOrd Key]

/-- A map made from a list keeps the last entry for each key. -/
theorem getElem?_ofList_eq_some_iff :
    (Std.ExtTreeMap.ofList entries)[key]? = some item ↔ LastEntry entries key item := by
  -- From the end of the list, since the entry inserted last is the one that stays.
  induction entries using List.reverseRecOn with
  | nil =>
      have hnone : ¬ LastEntry ([] : List (Key × Item)) key item :=
        fun hlast => List.not_mem_nil hlast.mem
      simp [hnone]
  | append_singleton earlier entry ih =>
      rw [lastEntry_concat_iff, ← ih, Std.ExtTreeMap.ofList_eq_foldl, List.foldl_append,
        ← Std.ExtTreeMap.ofList_eq_foldl, List.foldl_cons, List.foldl_nil,
        Std.ExtTreeMap.getElem?_insert]
      obtain ⟨other, last⟩ := entry
      by_cases hsame : other = key
      · subst hsame
        simp [Std.ReflCmp.compare_self]
      · have hcompare : ¬ compare other key = .eq :=
          fun heq => hsame (Std.LawfulEqOrd.eq_of_compare heq)
        simp [hsame, hcompare]

/-- The entries of a map make the map again. -/
theorem ofList_toList (map : Std.ExtTreeMap Key Item) :
    Std.ExtTreeMap.ofList map.toList = map := by
  have hdistinct : map.toList.Pairwise fun left right => left.1 ≠ right.1 :=
    map.distinct_keys_toList.imp fun hne hsame =>
      hne (Std.LawfulEqCmp.compare_eq_iff_eq.mpr hsame)
  apply Std.ExtTreeMap.ext_getElem?
  intro key
  apply Option.ext
  intro item
  rw [getElem?_ofList_eq_some_iff, lastEntry_iff_mem hdistinct,
    Std.ExtTreeMap.mem_toList_iff_getElem?_eq_some]

end LastEntry

/-- Lookaheads in the order of the table: the end of input after every terminal. -/
def Lookahead.Precedes : Lookahead → Lookahead → Prop
  | terminal left, terminal right => left.index < right.index
  | terminal _, endMarker => True
  | endMarker, _ => False

/-- Cells in the order of the table. -/
def Cell.Precedes (left right : Cell) : Prop :=
  left.nonterminal.index < right.nonterminal.index ∨
    left.nonterminal = right.nonterminal ∧ left.lookahead.Precedes right.lookahead

theorem Lookahead.compare_eq_lt_iff {left right : Lookahead} :
    compare left right = .lt ↔ left.Precedes right := by
  change compare left.rank right.rank = .lt ↔ _
  rw [Nat.compare_eq_lt]
  cases left with
  | terminal l =>
      cases right with
      | terminal r => rfl
      | endMarker => exact iff_of_true l.index_lt trivial
  | endMarker =>
      cases right with
      | terminal r => exact iff_of_false (Nat.lt_asymm r.index_lt) not_false
      | endMarker => exact iff_of_false (Nat.lt_irrefl _) not_false

theorem Cell.compare_eq_lt_iff {left right : Cell} :
    compare left right = .lt ↔ left.Precedes right := by
  change (compare left.nonterminal right.nonterminal).then
    (compare left.lookahead right.lookahead) = .lt ↔ _
  rw [Ordering.then_eq_lt, Lookahead.compare_eq_lt_iff, Std.LawfulEqCmp.compare_eq_iff_eq]
  exact or_congr Nat.compare_eq_lt Iff.rfl

end Predictive
