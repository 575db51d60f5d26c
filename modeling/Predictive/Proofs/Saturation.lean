import Mathlib.Data.Fintype.EquivFin
import Mathlib.Data.Set.Card
import Mathlib.Data.Set.Finite.Lattice
import Mathlib.Order.Bounds.Basic
import Predictive.Saturation
import Predictive.Symbol

/-!
Saturation reaches a least fixed point.  A state holds one set of nonterminals
per key, and an item adds its target to the set of a key when a premise holds of
that set alone.  The sets of different keys do not influence each other, so a set
that one pass leaves unchanged is final, and any other set has grown by a
nonterminal.  As many passes as there are nonterminals, and one more, suffice.
-/

namespace Predictive

namespace NonTerminal

instance : Finite NonTerminal := by
  have hinjective : Function.Injective fun n : NonTerminal => (⟨n.index, n.index_lt⟩ : Fin _) :=
    fun _ _ heq => index_injective (congrArg Fin.val heq)
  exact Finite.of_injective _ hinjective

/-- What holds of every nonterminal from some number on holds of all of them from one
number on. -/
theorem exists_bound {holds : NonTerminal → Nat → Prop}
    (hmono : ∀ n small large, small ≤ large → holds n small → holds n large)
    (hall : ∀ n, ∃ bound, holds n bound) : ∃ bound, ∀ n, holds n bound := by
  choose own hown using hall
  obtain ⟨bound, hbound⟩ := (Set.finite_range own).bddAbove
  refine ⟨bound, fun n => hmono n (own n) bound ?_ (hown n)⟩
  exact hbound (Set.mem_range_self n)

end NonTerminal

/-- The passes have ended with one that changed nothing, not at the bound. -/
def Saturation.Complete {State Change : Type} (saturation : Saturation State Change) : Prop :=
  saturation.rounds.getLast? = some []

/-- Passes that are repeated without any bound come to an end, and this is what they lead to. -/
inductive Saturates {State Change : Type} (pass? : State → Option (State × List Change)) :
    State → Saturation State Change → Prop where
  | last {state next : State} (hpass : pass? state = some (next, [])) :
      Saturates pass? state ⟨next, [[]]⟩
  | more {state next : State} {changes : List Change} {rest : Saturation State Change}
      (hpass : pass? state = some (next, changes)) (hchanges : changes ≠ [])
      (hrest : Saturates pass? next rest) :
      Saturates pass? state ⟨rest.state, changes :: rest.rounds⟩

/-- Where the bound was not what ended the passes, it was not needed. -/
theorem Saturation.Complete.saturates {State Change : Type}
    {pass? : State → Option (State × List Change)} {bound : Nat} {state : State}
    {saturation : Saturation State Change} (hcomplete : saturation.Complete)
    (hresult : saturate pass? bound state = some saturation) :
    Saturates pass? state saturation := by
  induction bound generalizing state saturation with
  | zero =>
      obtain rfl := Option.some.inj hresult
      cases hcomplete
  | succ bound ih =>
      simp only [saturate, Option.bind_eq_bind, Option.bind_eq_some_iff] at hresult
      obtain ⟨⟨next, changes⟩, hpass, hresult⟩ := hresult
      cases changes with
      | nil =>
          obtain rfl := Option.some.inj hresult
          exact Saturates.last hpass
      | cons change changes =>
          obtain ⟨rest, hrest, hsame⟩ := Option.bind_eq_some_iff.mp hresult
          obtain rfl := Option.some.inj hsame
          have hlast : rest.Complete := by
            rw [Saturation.Complete, List.getLast?_cons] at hcomplete
            rw [Saturation.Complete]
            cases hrounds : rest.rounds.getLast? with
            | none => simp [hrounds] at hcomplete
            | some final => simpa [hrounds] using hcomplete
          exact Saturates.more hpass (List.cons_ne_nil _ _) (ih hlast hrest)

section

variable {State Item Change : Type} {valid : State → Prop} {sound : Change → Prop}
  {items : List Item} {visit? : State → Item → Option (State × Option Change)}

/-- From a valid state, visits to the items lead to valid states only, and report sound changes
only. -/
def Keeps (valid : State → Prop) (sound : Change → Prop) (items : List Item)
    (visit? : State → Item → Option (State × Option Change)) : Prop :=
  ∀ state item next change, valid state → item ∈ items →
    visit? state item = some (next, change) → valid next ∧ ∀ made ∈ change, sound made

theorem Keeps.sweep (hkeeps : Keeps valid sound items visit?) {list : List Item}
    (hlist : list ⊆ items) {state last : State} {changes : List Change} (hvalid : valid state)
    (hsweep : sweep visit? state list = some (last, changes)) :
    valid last ∧ ∀ made ∈ changes, sound made := by
  induction list generalizing state changes with
  | nil =>
      cases hsweep
      exact ⟨hvalid, List.forall_mem_nil _⟩
  | cons item rest ih =>
      obtain ⟨hitem, hrest⟩ := List.cons_subset.mp hlist
      obtain ⟨⟨next, change⟩, hvisit, hswept⟩ := Option.bind_eq_some_iff.mp hsweep
      obtain ⟨⟨_, later⟩, hlater, hsame⟩ := Option.bind_eq_some_iff.mp hswept
      cases hsame
      obtain ⟨hnext, hchange⟩ := hkeeps state item next change hvalid hitem hvisit
      obtain ⟨hlast, hchanges⟩ := ih hrest hnext hlater
      refine ⟨hlast, List.forall_mem_append.mpr ⟨?_, hchanges⟩⟩
      simpa using hchange

theorem Keeps.saturate (hkeeps : Keeps valid sound items visit?) {bound : Nat} {state : State}
    {result : Saturation State Change} (hvalid : valid state)
    (hresult : saturate (Predictive.sweep visit? · items) bound state = some result) :
    valid result.state ∧ ∀ made ∈ result.changes, sound made := by
  induction bound generalizing state result with
  | zero =>
      cases hresult
      exact ⟨hvalid, List.forall_mem_nil _⟩
  | succ bound ih =>
      simp only [Predictive.saturate, Option.bind_eq_bind, Option.bind_eq_some_iff] at hresult
      obtain ⟨⟨next, changes⟩, hsweep, hresult⟩ := hresult
      obtain ⟨hnext, hchanges⟩ := hkeeps.sweep (List.Subset.refl items) hvalid hsweep
      cases changes with
      | nil =>
          cases hresult
          exact ⟨hnext, List.forall_mem_nil _⟩
      | cons change changes =>
          obtain ⟨rest, hrest, hsame⟩ := Option.bind_eq_some_iff.mp hresult
          cases hsame
          obtain ⟨hlast, hlater⟩ := ih hnext hrest
          exact ⟨hlast, List.forall_mem_append.mpr ⟨hchanges, hlater⟩⟩

end

/-- How items spread over the nonterminals of a state. -/
structure Propagation (State Item Key : Type) where
  /-- The set of a key in a state. -/
  holds : State → Key → Set NonTerminal
  /-- The nonterminal that an item may add. -/
  target : Item → NonTerminal
  /-- When an item adds its target to the set of a key. -/
  premise : Item → Key → Set NonTerminal → Prop
  premise_mono : ∀ {item : Item} {key : Key} {small large : Set NonTerminal},
    small ⊆ large → premise item key small → premise item key large

namespace Propagation

variable {State Item Key Change : Type} (rules : Propagation State Item Key)

/-- The set of a key after an item has been visited. -/
def gain (key : Key) (set : Set NonTerminal) (item : Item) : Set NonTerminal :=
  { n | n ∈ set ∨ n = rules.target item ∧ rules.premise item key set }

/-- No item adds anything to the set. -/
def Closed (items : List Item) (key : Key) (set : Set NonTerminal) : Prop :=
  ∀ item ∈ items, rules.premise item key set → rules.target item ∈ set

variable {rules} {key : Key} {items : List Item}

theorem subset_gain (set : Set NonTerminal) (item : Item) :
    set ⊆ rules.gain key set item :=
  fun _ hmem => Or.inl hmem

theorem subset_foldl_gain (set : Set NonTerminal) (list : List Item) :
    set ⊆ list.foldl (rules.gain key) set := by
  induction list generalizing set with
  | nil => exact Set.Subset.rfl
  | cons item rest ih => exact (subset_gain set item).trans (ih _)

/-- What a pass adds stays below every closed set. -/
theorem foldl_gain_subset {set closed : Set NonTerminal}
    (hclosed : rules.Closed items key closed) {list : List Item} (hlist : list ⊆ items)
    (hset : set ⊆ closed) : list.foldl (rules.gain key) set ⊆ closed := by
  induction list generalizing set with
  | nil => exact hset
  | cons item rest ih =>
      obtain ⟨hitem, hrest⟩ := List.cons_subset.mp hlist
      apply ih hrest
      rintro n (hold | ⟨rfl, hpremise⟩)
      · exact hset hold
      · exact hclosed item hitem (rules.premise_mono hset hpremise)

/-- A set is closed exactly if a whole pass leaves it unchanged. -/
theorem foldl_gain_eq_iff {set : Set NonTerminal} :
    items.foldl (rules.gain key) set = set ↔ rules.Closed items key set := by
  constructor
  · intro hfixed item hitem hpremise
    obtain ⟨before, after, rfl⟩ := List.append_of_mem hitem
    rw [← hfixed, List.foldl_append, List.foldl_cons]
    apply subset_foldl_gain
    exact Or.inr ⟨rfl, rules.premise_mono (subset_foldl_gain set before) hpremise⟩
  · intro hclosed
    exact Set.Subset.antisymm (foldl_gain_subset hclosed (List.Subset.refl _) Set.Subset.rfl)
      (subset_foldl_gain set items)

variable (rules) in
/-- The visits follow the rules, as long as the state is valid, and report a change
exactly if some set has changed. -/
def Governs (valid : State → Prop) (items : List Item)
    (visit? : State → Item → Option (State × Option Change)) : Prop :=
  ∀ state item, valid state → item ∈ items → ∃ next change,
    visit? state item = some (next, change) ∧ valid next ∧
      (∀ key, rules.holds next key = rules.gain key (rules.holds state key) item) ∧
      (change = none ↔ ∀ key, rules.holds next key = rules.holds state key)

variable {valid : State → Prop}
  {visit? : State → Item → Option (State × Option Change)}

/-- A pass folds the items into the set of every key. -/
theorem Governs.sweep (hgoverns : rules.Governs valid items visit?) {list : List Item}
    (hlist : list ⊆ items) {state : State} (hvalid : valid state) :
    ∃ next changes, sweep visit? state list = some (next, changes) ∧ valid next ∧
      (∀ key, rules.holds next key = list.foldl (rules.gain key) (rules.holds state key)) ∧
      (changes = [] ↔ ∀ key, rules.holds next key = rules.holds state key) := by
  induction list generalizing state with
  | nil => exact ⟨state, [], rfl, hvalid, fun _ => rfl, by simp⟩
  | cons item rest ih =>
      obtain ⟨hitem, hrest⟩ := List.cons_subset.mp hlist
      obtain ⟨middle, change, hvisit, hmiddle, hgain, hchange⟩ :=
        hgoverns state item hvalid hitem
      obtain ⟨last, changes, hsweep, hlast, hfold, hchanges⟩ := ih hrest hmiddle
      have hwhole : ∀ key, rules.holds last key =
          (item :: rest).foldl (rules.gain key) (rules.holds state key) := by
        intro key
        rw [hfold, hgain, List.foldl_cons]
      refine ⟨last, change.toList ++ changes, ?_, hlast, hwhole, ?_⟩
      · simp [Predictive.sweep, hvisit, hsweep]
      · rw [List.append_eq_nil_iff, Option.toList_eq_nil_iff, hchange, hchanges]
        constructor
        · rintro ⟨hfirst, hlater⟩ key
          rw [hlater, hfirst]
        · intro hsame
          -- The sets only grow, so none can change on the way and come back.
          have hmiddleEq : ∀ key, rules.holds middle key = rules.holds state key := by
            intro key
            apply Set.Subset.antisymm
            · rw [← hsame key, hfold key]
              exact subset_foldl_gain _ _
            · rw [hgain key]
              exact subset_gain _ _
          exact ⟨hmiddleEq, fun key => (hsame key).trans (hmiddleEq key).symm⟩

/-- The set lies among the first nonterminals. -/
def Below (count : Nat) (set : Set NonTerminal) : Prop := ∀ n ∈ set, n.index < count

theorem Below.mapsTo {count : Nat} {set : Set NonTerminal} (hbelow : Below count set) :
    Set.MapsTo NonTerminal.index set (Finset.range count) :=
  fun n hn => Finset.mem_coe.mpr (Finset.mem_range.mpr (hbelow n hn))

theorem injOn_index (set : Set NonTerminal) : Set.InjOn NonTerminal.index set :=
  fun _ _ _ _ heq => NonTerminal.index_injective heq

theorem Below.ncard_le {count : Nat} {set : Set NonTerminal} (hbelow : Below count set) :
    set.ncard ≤ count := by
  calc set.ncard ≤ (Finset.range count : Set Nat).ncard :=
        Set.ncard_le_ncard_of_injOn NonTerminal.index hbelow.mapsTo (injOn_index set)
          (Finset.range count).finite_toSet
    _ = count := by rw [Set.ncard_coe_finset, Finset.card_range]

theorem below_foldl_gain {count : Nat}
    (htargets : ∀ item ∈ items, (rules.target item).index < count)
    {set : Set NonTerminal} (hbelow : Below count set) :
    Below count (items.foldl (rules.gain key) set) := by
  have hclosed : rules.Closed items key { n | n.index < count } :=
    fun item hitem _ => htargets item hitem
  exact foldl_gain_subset hclosed (List.Subset.refl items) hbelow

/-- A pass over a set that is not closed adds a nonterminal. -/
theorem ncard_lt_foldl_gain {set : Set NonTerminal} (hopen : ¬ rules.Closed items key set) :
    set.ncard < (items.foldl (rules.gain key) set).ncard := by
  apply Set.ncard_lt_ncard _ (Set.toFinite _)
  apply (subset_foldl_gain set items).ssubset_of_ne
  exact fun heq => hopen (foldl_gain_eq_iff.mp heq.symm)

/-- A pass on the way does not change the least closed set above. -/
theorem isLeast_of_foldl_gain {set last : Set NonTerminal}
    (hleast : IsLeast { closed | items.foldl (rules.gain key) set ⊆ closed ∧
      rules.Closed items key closed } last) :
    IsLeast { closed | set ⊆ closed ∧ rules.Closed items key closed } last := by
  obtain ⟨⟨hsubset, hclosed⟩, hlower⟩ := hleast
  refine ⟨⟨(subset_foldl_gain set items).trans hsubset, hclosed⟩, ?_⟩
  rintro other ⟨hother, hotherClosed⟩
  exact hlower ⟨foldl_gain_subset hotherClosed (List.Subset.refl items) hother, hotherClosed⟩

/-- The number of rounds that are still needed bounds the number of passes: a set
that is not closed yet has at least one nonterminal for every round done. -/
theorem Governs.saturate {count rounds bound : Nat} {state : State}
    (hgoverns : rules.Governs valid items visit?)
    (htargets : ∀ item ∈ items, (rules.target item).index < count)
    (hvalid : valid state) (hbelow : ∀ key, Below count (rules.holds state key))
    (hprogress : ∀ key, rules.Closed items key (rules.holds state key) ∨
      count ≤ (rules.holds state key).ncard + rounds)
    (hbound : rounds < bound) :
    ∃ result, saturate (Predictive.sweep visit? · items) bound state = some result ∧
      valid result.state ∧ 1 ≤ result.passes ∧ result.passes ≤ rounds + 1 ∧
      result.Complete ∧
      ∀ key, IsLeast { set | rules.holds state key ⊆ set ∧ rules.Closed items key set }
        (rules.holds result.state key) := by
  induction bound generalizing state rounds with
  | zero => exact absurd hbound (Nat.not_lt_zero rounds)
  | succ bound ih =>
      obtain ⟨next, changes, hsweep, hnext, hfold, hchanges⟩ :=
        hgoverns.sweep (List.Subset.refl items) hvalid
      simp only [hfold, foldl_gain_eq_iff] at hchanges
      by_cases hempty : changes = []
      · refine ⟨⟨next, [changes]⟩, ?_, hnext, Nat.le_refl 1, Nat.le_add_left 1 rounds, ?_, ?_⟩
        · simp [Predictive.saturate, hsweep, hempty]
        · simp [Saturation.Complete, hempty]
        · intro key
          have hclosed := hchanges.mp hempty key
          rw [hfold key, foldl_gain_eq_iff.mpr hclosed]
          exact ⟨⟨Set.Subset.rfl, hclosed⟩, fun set hset => hset.1⟩
      · have hnextBelow : ∀ key, Below count (rules.holds next key) := by
          intro key
          rw [hfold key]
          exact below_foldl_gain htargets (hbelow key)
        have hgrows : ∀ key, ¬ rules.Closed items key (rules.holds state key) →
            (rules.holds state key).ncard < (rules.holds next key).ncard ∧ 0 < rounds := by
          intro key hopen
          have hmore : (rules.holds state key).ncard < (rules.holds next key).ncard := by
            rw [hfold key]
            exact ncard_lt_foldl_gain hopen
          have hcard := (hnextBelow key).ncard_le
          have hneed := (hprogress key).resolve_left hopen
          exact ⟨hmore, by omega⟩
        obtain ⟨key, hopen⟩ : ∃ key, ¬ rules.Closed items key (rules.holds state key) :=
          not_forall.mp fun hall => hempty (hchanges.mpr hall)
        have hrounds := (hgrows key hopen).2
        have hnextProgress : ∀ key, rules.Closed items key (rules.holds next key) ∨
            count ≤ (rules.holds next key).ncard + (rounds - 1) := by
          intro key
          by_cases hclosed : rules.Closed items key (rules.holds state key)
          · rw [hfold key, foldl_gain_eq_iff.mpr hclosed]
            exact Or.inl hclosed
          · have hmore := (hgrows key hclosed).1
            have hneed := (hprogress key).resolve_left hclosed
            exact Or.inr (by omega)
        obtain ⟨result, hresult, hfinal, _, hpasses, hcomplete, hleast⟩ :=
          ih hnext hnextBelow hnextProgress (by omega)
        refine ⟨⟨result.state, changes :: result.rounds⟩, ?_, hfinal, ?_, ?_, ?_, ?_⟩
        · simp [Predictive.saturate, hsweep, hempty, hresult]
        · exact Nat.le_add_left 1 _
        · simp only [Saturation.passes, List.length_cons] at hpasses ⊢
          omega
        · rw [Saturation.Complete, List.getLast?_cons, hcomplete, Option.getD_some]
        · intro key
          exact isLeast_of_foldl_gain (hfold key ▸ hleast key)

/-- Passes over rules for `count` nonterminals end in the least closed sets above
those of the first state, after at most `count + 1` passes. -/
theorem Governs.saturate_isLeast {count bound : Nat} {state : State}
    (hgoverns : rules.Governs valid items visit?)
    (htargets : ∀ item ∈ items, (rules.target item).index < count)
    (hvalid : valid state) (hbelow : ∀ key, Below count (rules.holds state key))
    (hbound : count < bound) :
    ∃ result, Predictive.saturate (Predictive.sweep visit? · items) bound state = some result ∧
      valid result.state ∧ 1 ≤ result.passes ∧ result.passes ≤ count + 1 ∧
      result.Complete ∧
      ∀ key, IsLeast { set | rules.holds state key ⊆ set ∧ rules.Closed items key set }
        (rules.holds result.state key) :=
  hgoverns.saturate htargets hvalid hbelow (fun _ => Or.inr (Nat.le_add_left _ _)) hbound

end Propagation

end Predictive
