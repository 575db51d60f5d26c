import Predictive.Analysis
import Predictive.Proofs.Follow

/-!
Prediction tables are exact.  A claim appends the conflict that it meets, and leaves the cell
to the winner.  A production claims a cell of its row exactly if it is predicted under the
cell's lookahead.  Every cell that is filled is filled by one of its claimants; where no
conflict has been recorded, every claimant has its cell, so that each cell has at most one;
and where each cell has at most one, no conflict is recorded.
-/

namespace Predictive

variable {grammar : Grammar}

namespace ConflictPolicy

/-- Which of the holder of a cell and a new claimant loses it, and which one wins it. -/
def settle : ConflictPolicy → ProductionId → ProductionId → ProductionId × ProductionId
  | lastWins, holder, claimant => (holder, claimant)
  | firstWins, holder, claimant => (claimant, holder)

/-- An equal claim has nothing to settle. -/
theorem settle_self (policy : ConflictPolicy) (id : ProductionId) :
    policy.settle id id = (id, id) := by
  cases policy <;> rfl

theorem settle_winner (policy : ConflictPolicy) (holder claimant : ProductionId) :
    (policy.settle holder claimant).2 = holder ∨ (policy.settle holder claimant).2 = claimant := by
  cases policy with
  | lastWins => exact Or.inr rfl
  | firstWins => exact Or.inl rfl

end ConflictPolicy

namespace Table

/-- Every filled cell names a production of its row that is predicted there. -/
def Sound (table : Table) (grammar : Grammar) : Prop :=
  ∀ n lookahead id, table.get? n lookahead = some id →
    ∃ production, grammar.production? id = some production ∧ production.lhs = n ∧
      grammar.Predicts lookahead production

/-- Every filled cell names a production of the grammar, whatever its left-hand side. -/
def InRange (table : Table) (grammar : Grammar) : Prop :=
  ∀ entry ∈ table.toList, entry.2.index < grammar.productions.length

instance (table : Table) (grammar : Grammar) : Decidable (table.InRange grammar) :=
  inferInstanceAs (Decidable (∀ entry ∈ table.toList, entry.2.index < grammar.productions.length))

/-- What the table has in its cells, and what it records about them, may be there. -/
structure Within (table : Table) (allowed : Cell → ProductionId → Prop) : Prop where
  cells : ∀ n lookahead id, table.get? n lookahead = some id → allowed ⟨n, lookahead⟩ id
  conflicts : ∀ conflict ∈ table.conflicts,
    allowed ⟨conflict.nonterminal, conflict.lookahead⟩ conflict.losing ∧
      allowed ⟨conflict.nonterminal, conflict.lookahead⟩ conflict.winning

/-- Every production that is predicted has the cell. -/
def Decides (table : Table) (grammar : Grammar) : Prop :=
  ∀ production ∈ grammar.productions, ∀ lookahead, grammar.Predicts lookahead production →
    table.get? production.lhs lookahead = some production.id

theorem InRange.exists_production? {table : Table} (hrange : table.InRange grammar)
    {n : NonTerminal} {lookahead : Lookahead} {id : ProductionId}
    (hcell : table.get? n lookahead = some id) :
    ∃ production, grammar.production? id = some production := by
  have hentry := Std.ExtTreeMap.mem_toList_iff_getElem?_eq_some.mpr hcell
  exact ⟨_, List.getElem?_eq_getElem (hrange _ hentry)⟩

theorem Sound.inRange {table : Table} (hsound : table.Sound grammar) : table.InRange grammar := by
  rintro ⟨cell, id⟩ hentry
  have hcell := Std.ExtTreeMap.mem_toList_iff_getElem?_eq_some.mp hentry
  obtain ⟨production, hproduction, _⟩ := hsound cell.nonterminal cell.lookahead id hcell
  exact (List.getElem?_eq_some_iff.mp hproduction).1

theorem Sound.of_production? {table : Table} (hsound : table.Sound grammar)
    {n : NonTerminal} {lookahead : Lookahead} {id : ProductionId} {production : Production}
    (hcell : table.get? n lookahead = some id)
    (hproduction : grammar.production? id = some production) :
    production.lhs = n ∧ grammar.Predicts lookahead production := by
  obtain ⟨predicted, hpredicted, hrow⟩ := hsound n lookahead id hcell
  obtain rfl := Option.some.inj (hproduction.symm.trans hpredicted)
  exact hrow

/-- A cell is empty if the lookahead neither begins its nonterminal nor follows it once
it is erased. -/
theorem Sound.get?_eq_none {table : Table} (hsound : table.Sound grammar) {n : NonTerminal}
    {lookahead : Lookahead} (hbegins : ¬ grammar.Begins lookahead [.nonterminal n])
    (herase : ¬ (grammar.Erasable [.nonterminal n] ∧ grammar.Follows lookahead n)) :
    table.get? n lookahead = none := by
  cases hcell : table.get? n lookahead with
  | none => rfl
  | some id =>
      obtain ⟨production, hproduction, rfl, hpredicts⟩ := hsound n lookahead id hcell
      have hmem := List.mem_of_getElem? hproduction
      rcases hpredicts with hsymbols | ⟨hsymbols, hfollows⟩
      · exact absurd (hsymbols.expand hmem []) hbegins
      · have herasable := Grammar.Erasable.cons hmem hsymbols Grammar.Erasable.nil
        exact absurd ⟨herasable, hfollows⟩ herase

/-- The claims under FIRST are those under the lookaheads that begin the right-hand side. -/
theorem mem_map_terminals (hwell : grammar.WellFormed) {production : Production}
    (hmem : production ∈ grammar.productions) {terminals : Std.ExtTreeSet Terminal}
    (hterminals : ∀ t, t ∈ terminals ↔ grammar.Begins (.terminal t) production.symbols)
    (claim : Claim) :
    claim ∈ terminals.toList.map
        (fun t => ⟨⟨production.lhs, .terminal t⟩, production.id⟩) ↔
      ∃ lookahead, grammar.Begins lookahead production.symbols ∧
        claim = ⟨⟨production.lhs, lookahead⟩, production.id⟩ := by
  simp only [List.mem_map, Std.ExtTreeSet.mem_toList, hterminals]
  constructor
  · rintro ⟨t, ht, rfl⟩
    exact ⟨.terminal t, ht, rfl⟩
  · rintro ⟨lookahead, hbegins, rfl⟩
    cases lookahead with
    | terminal t => exact ⟨t, hbegins, rfl⟩
    | endMarker =>
        exact absurd hbegins
          (hwell.not_begins_endMarker (hwell.declares_symbols production hmem))

/-- A production claims the cells of its row under which it is predicted. -/
theorem claimsOf?_eq (hwell : grammar.WellFormed) {first : FirstSets} {follow : FollowSets}
    (hfirst : first.Exact grammar) (hfollow : follow.Exact grammar) {production : Production}
    (hmem : production ∈ grammar.productions) :
    ∃ claims, claimsOf? first follow production = some claims ∧
      ∀ claim, claim ∈ claims ↔ ∃ lookahead, grammar.Predicts lookahead production ∧
        claim = ⟨⟨production.lhs, lookahead⟩, production.id⟩ := by
  obtain ⟨rhs, hrhs, hterminals, hempty⟩ :=
    hfirst.ofSequence? (hwell.declares_rhs production hmem)
  rw [hwell.eraseEpsilon_rhs production hmem] at hterminals hempty
  obtain ⟨beyond, hbeyond, hfollows⟩ := hfollow.follow? (hwell.declares_lhs production hmem)
  have hdirect := mem_map_terminals hwell hmem hterminals
  by_cases herasable : grammar.Erasable production.symbols
  · refine ⟨_, by simp [claimsOf?, hrhs, hempty.mpr herasable, hbeyond]; rfl, ?_⟩
    intro claim
    rw [List.mem_append, hdirect]
    simp only [List.mem_map, Std.ExtTreeSet.mem_toList, hfollows]
    constructor
    · rintro (⟨lookahead, hbegins, rfl⟩ | ⟨lookahead, hlater, rfl⟩)
      · exact ⟨lookahead, Or.inl hbegins, rfl⟩
      · exact ⟨lookahead, Or.inr ⟨herasable, hlater⟩, rfl⟩
    · rintro ⟨lookahead, hbegins | ⟨_, hlater⟩, rfl⟩
      · exact Or.inl ⟨lookahead, hbegins, rfl⟩
      · exact Or.inr ⟨lookahead, hlater, rfl⟩
  · have hnot : rhs.nullable = false := by
      rw [← Bool.not_eq_true, hempty]
      exact herasable
    refine ⟨_, by simp [claimsOf?, hrhs, hnot]; rfl, ?_⟩
    intro claim
    rw [hdirect]
    constructor
    · rintro ⟨lookahead, hbegins, rfl⟩
      exact ⟨lookahead, Or.inl hbegins, rfl⟩
    · rintro ⟨lookahead, hbegins | ⟨hno, _⟩, rfl⟩
      · exact ⟨lookahead, hbegins, rfl⟩
      · exact absurd hno herasable

/-- The claims are those of all productions under the lookaheads that predict them. -/
def Claimed (grammar : Grammar) (claims : List Claim) : Prop :=
  ∀ claim, claim ∈ claims ↔ ∃ production ∈ grammar.productions,
    ∃ lookahead, grammar.Predicts lookahead production ∧
      claim = ⟨⟨production.lhs, lookahead⟩, production.id⟩

theorem claims?_eq (hwell : grammar.WellFormed) {first : FirstSets} {follow : FollowSets}
    (hfirst : first.Exact grammar) (hfollow : follow.Exact grammar) :
    ∃ claims, claims? grammar first follow = some claims ∧ Claimed grammar claims := by
  suffices hall : ∀ productions ⊆ grammar.productions,
      ∃ lists, productions.mapM (claimsOf? first follow) = some lists ∧
        ∀ claim, claim ∈ lists.flatten ↔ ∃ production ∈ productions,
          ∃ lookahead, grammar.Predicts lookahead production ∧
            claim = ⟨⟨production.lhs, lookahead⟩, production.id⟩ by
    obtain ⟨lists, hlists, hclaims⟩ := hall _ (List.Subset.refl _)
    exact ⟨lists.flatten, by simp [claims?, hlists], hclaims⟩
  intro productions hsubset
  induction productions with
  | nil => exact ⟨[], rfl, by simp⟩
  | cons production rest ih =>
      obtain ⟨hmem, hrest⟩ := List.cons_subset.mp hsubset
      obtain ⟨own, hown, hownClaims⟩ := claimsOf?_eq hwell hfirst hfollow hmem
      obtain ⟨lists, hlists, hclaims⟩ := ih hrest
      refine ⟨own :: lists, by simp [List.mapM_cons, hown, hlists], ?_⟩
      intro claim
      rw [List.flatten_cons, List.mem_append, hownClaims, hclaims]
      simp only [List.mem_cons, exists_eq_or_imp]

section

variable {table : Table} {claimed : Claim} {cell : Cell}

/-- The conflict that a claim meets, if another production holds its cell. -/
def clash? (table : Table) (claimed : Claim) : Option Conflict :=
  match table.cells[claimed.cell]? with
  | none => none
  | some holder =>
      if holder = claimed.production then none
      else
        let (losing, winning) := table.policy.settle holder claimed.production
        some ⟨claimed.cell.nonterminal, claimed.cell.lookahead, losing, winning⟩

theorem policy_claim : (table.claim claimed).policy = table.policy := by
  unfold claim
  split
  · rfl
  · split <;> rfl

theorem policy_foldl_claim (claims : List Claim) :
    (claims.foldl claim table).policy = table.policy := by
  induction claims generalizing table with
  | nil => rfl
  | cons claimed rest ih => exact ih.trans policy_claim

/-- A claim appends the conflict that it meets. -/
theorem conflicts_claim_eq :
    (table.claim claimed).conflicts = table.conflicts ++ (table.clash? claimed).toList := by
  cases hholder : table.cells[claimed.cell]? with
  | none => simp [claim, clash?, hholder]
  | some holder =>
      by_cases hsame : holder = claimed.production
      · simp [claim, clash?, hholder, hsame]
      · cases hpolicy : table.policy <;>
          simp [claim, clash?, hholder, hsame, hpolicy, ConflictPolicy.settle]

theorem cells_claim_of_ne (hother : claimed.cell ≠ cell) :
    (table.claim claimed).cells[cell]? = table.cells[cell]? := by
  unfold claim
  split
  · simp [Std.ExtTreeMap.getElem?_insert, hother]
  · split
    · rfl
    · simp [Std.ExtTreeMap.getElem?_insert, hother]

/-- An empty cell goes to the claimant; otherwise the policy settles who wins it. -/
theorem cells_claim_self :
    (table.claim claimed).cells[claimed.cell]? =
      some (match table.cells[claimed.cell]? with
        | none => claimed.production
        | some holder => (table.policy.settle holder claimed.production).2) := by
  cases hholder : table.cells[claimed.cell]? with
  | none => simp [claim, hholder]
  | some holder =>
      by_cases hsame : holder = claimed.production
      · cases table.policy <;> simp [claim, hholder, hsame, ConflictPolicy.settle]
      · cases hpolicy : table.policy <;>
          simp [claim, hholder, hsame, hpolicy, ConflictPolicy.settle]

theorem clash?_eq_none_iff : table.clash? claimed = none ↔
    ∀ holder, table.cells[claimed.cell]? = some holder → holder = claimed.production := by
  unfold clash?
  cases hholder : table.cells[claimed.cell]? with
  | none => simp
  | some holder => by_cases hsame : holder = claimed.production <;> simp [hsame]

theorem cell_of_clash? {conflict : Conflict} (hclash : table.clash? claimed = some conflict) :
    (⟨conflict.nonterminal, conflict.lookahead⟩ : Cell) = claimed.cell := by
  unfold clash? at hclash
  split at hclash
  · cases hclash
  · split at hclash
    · cases hclash
    · rw [← Option.some.inj hclash]

/-- After a claim, a cell holds what it held before, or it has just been claimed. -/
theorem cells_claim {id : ProductionId}
    (hcell : (table.claim claimed).cells[cell]? = some id) :
    table.cells[cell]? = some id ∨ claimed.cell = cell ∧ claimed.production = id := by
  by_cases hsame : claimed.cell = cell
  · subst hsame
    rw [cells_claim_self] at hcell
    cases hholder : table.cells[claimed.cell]? with
    | none =>
        rw [hholder] at hcell
        exact Or.inr ⟨rfl, Option.some.inj hcell⟩
    | some holder =>
        rw [hholder, Option.some.injEq] at hcell
        rcases table.policy.settle_winner holder claimed.production with hkept | hnew
        · exact Or.inl (congrArg some (hkept.symm.trans hcell))
        · exact Or.inr ⟨rfl, hnew.symm.trans hcell⟩
  · exact Or.inl ((cells_claim_of_ne hsame).symm.trans hcell)

/-- A conflict has been recorded in the cell. -/
def Contested (table : Table) (cell : Cell) : Prop :=
  ∃ conflict ∈ table.conflicts, (⟨conflict.nonterminal, conflict.lookahead⟩ : Cell) = cell

theorem not_contested_of_isLl1 (hll1 : table.isLl1 = true) (cell : Cell) :
    ¬ table.Contested cell := by
  rintro ⟨conflict, hmem, _⟩
  rw [List.isEmpty_iff.mp hll1] at hmem
  exact absurd hmem List.not_mem_nil

/-- Where a claim is met without conflict, a filled cell stays as it is and a cell that is
claimed goes to the claimant. -/
theorem claim_of_not_contested (hfree : ¬ (table.claim claimed).Contested cell) :
    ¬ table.Contested cell ∧
      (claimed.cell = cell → (table.claim claimed).cells[cell]? = some claimed.production) ∧
        ∀ id : ProductionId, table.cells[cell]? = some id →
          (table.claim claimed).cells[cell]? = some id := by
  simp only [Contested, conflicts_claim_eq, List.mem_append, Option.mem_toList] at hfree
  have hbefore : ¬ table.Contested cell :=
    fun ⟨conflict, hmem, hcell⟩ => hfree ⟨conflict, Or.inl hmem, hcell⟩
  by_cases hsame : claimed.cell = cell
  · subst hsame
    have hnone : table.clash? claimed = none := by
      apply Option.eq_none_iff_forall_ne_some.mpr
      exact fun conflict hclash => hfree ⟨conflict, Or.inr hclash, cell_of_clash? hclash⟩
    have hown := clash?_eq_none_iff.mp hnone
    have htaken : (table.claim claimed).cells[claimed.cell]? = some claimed.production := by
      rw [cells_claim_self]
      cases hholder : table.cells[claimed.cell]? with
      | none => rfl
      | some holder =>
          rw [hown holder hholder]
          exact congrArg (some ·.2) (table.policy.settle_self claimed.production)
    exact ⟨hbefore, fun _ => htaken, fun id hcell => by rw [htaken, hown id hcell]⟩
  · exact ⟨hbefore, fun hcell => absurd hcell hsame,
      fun id hcell => (cells_claim_of_ne hsame).trans hcell⟩

/-- A claimed cell is filled, and filled cells stay filled. -/
theorem cells_claim_ne_none (hfilled : claimed.cell = cell ∨ table.cells[cell]? ≠ none) :
    (table.claim claimed).cells[cell]? ≠ none := by
  by_cases hsame : claimed.cell = cell
  · subst hsame
    rw [cells_claim_self]
    exact Option.some_ne_none _
  · rw [cells_claim_of_ne hsame]
    exact hfilled.resolve_left hsame

/-- A claim meets no conflict in a cell that is free or already its own. -/
theorem conflicts_claim
    (hagree : ∀ id, table.cells[claimed.cell]? = some id → id = claimed.production) :
    (table.claim claimed).conflicts = table.conflicts := by
  rw [conflicts_claim_eq, clash?_eq_none_iff.mpr hagree]
  exact List.append_nil table.conflicts

variable {allowed : Cell → ProductionId → Prop}

/-- A claim that is allowed brings in nothing else. -/
theorem Within.claim (hwithin : table.Within allowed)
    (hclaimed : allowed claimed.cell claimed.production) : (table.claim claimed).Within allowed where
  cells n lookahead id hcell := by
    rcases cells_claim hcell with hbefore | ⟨hsame, rfl⟩
    · exact hwithin.cells n lookahead id hbefore
    · exact hsame ▸ hclaimed
  conflicts conflict hconflict := by
    rw [conflicts_claim_eq, List.mem_append, Option.mem_toList] at hconflict
    rcases hconflict with hbefore | hclash
    · exact hwithin.conflicts conflict hbefore
    · unfold clash? at hclash
      split at hclash
      · cases hclash
      · rename_i holder hholder
        split at hclash
        · cases hclash
        · have hheld := hwithin.cells _ _ holder hholder
          obtain rfl := Option.some.inj hclash
          cases table.policy with
          | lastWins => exact ⟨hheld, hclaimed⟩
          | firstWins => exact ⟨hclaimed, hheld⟩

theorem Within.foldl_claim {claims : List Claim} (hwithin : table.Within allowed)
    (hclaims : ∀ claimed ∈ claims, allowed claimed.cell claimed.production) :
    (claims.foldl Table.claim table).Within allowed := by
  induction claims generalizing table with
  | nil => exact hwithin
  | cons claimed rest ih =>
      obtain ⟨hclaimed, hrest⟩ := List.forall_mem_cons.mp hclaims
      exact ih (hwithin.claim hclaimed) hrest

theorem Within.mono {more : Cell → ProductionId → Prop} (hwithin : table.Within allowed)
    (hmore : ∀ cell id, allowed cell id → more cell id) : table.Within more where
  cells n lookahead id hcell := hmore _ id (hwithin.cells n lookahead id hcell)
  conflicts conflict hconflict := by
    obtain ⟨hlosing, hwinning⟩ := hwithin.conflicts conflict hconflict
    exact ⟨hmore _ _ hlosing, hmore _ _ hwinning⟩

theorem within_empty (policy : ConflictPolicy) : (empty policy).Within allowed where
  cells _ _ _ hcell := by simp [empty, get?] at hcell
  conflicts _ hconflict := by cases hconflict

/-- The cells and the conflicts are made by claims. -/
theorem within_claims (claims : List Claim) (policy : ConflictPolicy) :
    (claims.foldl claim (.empty policy)).Within fun cell id =>
      ∃ claimed ∈ claims, claimed.cell = cell ∧ claimed.production = id :=
  (within_empty policy).foldl_claim fun claimed hclaimed => ⟨claimed, hclaimed, rfl, rfl⟩

end

theorem foldl_claim_of_not_contested {claims : List Claim} {table : Table} {cell : Cell}
    (hfree : ¬ (claims.foldl claim table).Contested cell) :
    ¬ table.Contested cell ∧
      (∀ id : ProductionId, table.cells[cell]? = some id →
        (claims.foldl claim table).cells[cell]? = some id) ∧
      ∀ claimed ∈ claims, claimed.cell = cell →
        (claims.foldl claim table).cells[cell]? = some claimed.production := by
  induction claims generalizing table with
  | nil => exact ⟨hfree, fun _ hcell => hcell, by simp⟩
  | cons claimed rest ih =>
      obtain ⟨hnext, hkept, hrest⟩ := ih hfree
      obtain ⟨hbefore, hown, hold⟩ := claim_of_not_contested hnext
      refine ⟨hbefore, fun id hcell => hkept id (hold id hcell), ?_⟩
      intro other hother hcell
      rcases List.mem_cons.mp hother with rfl | hlater
      · exact hkept _ (hown hcell)
      · exact hrest other hlater hcell

theorem foldl_claim_ne_none {claims : List Claim} {table : Table} {cell : Cell}
    (hfilled : table.cells[cell]? ≠ none ∨ ∃ claimed ∈ claims, claimed.cell = cell) :
    (claims.foldl claim table).cells[cell]? ≠ none := by
  induction claims generalizing table with
  | nil => simpa using hfilled
  | cons claimed rest ih =>
      apply ih
      rcases hfilled with hcell | ⟨other, hother, hcell⟩
      · exact Or.inl (cells_claim_ne_none (Or.inr hcell))
      · rcases List.mem_cons.mp hother with rfl | hlater
        · exact Or.inl (cells_claim_ne_none (Or.inl hcell))
        · exact Or.inr ⟨other, hlater, hcell⟩

/-- Where one policy meets no conflict, every policy fills the cell in the same way. -/
theorem cells_foldl_claim_eq {claims : List Claim} {policy : ConflictPolicy} {cell : Cell}
    (hfree : ¬ (claims.foldl claim (.empty policy)).Contested cell)
    (other : ConflictPolicy) :
    (claims.foldl claim (.empty other)).cells[cell]? =
      (claims.foldl claim (.empty policy)).cells[cell]? := by
  cases hcell : (claims.foldl claim (.empty other)).cells[cell]? with
  | some id =>
      obtain ⟨claimed, hclaimed, hsame, rfl⟩ := (within_claims claims other).cells _ _ id hcell
      exact ((foldl_claim_of_not_contested hfree).2.2 claimed hclaimed hsame).symm
  | none =>
      cases hcell' : (claims.foldl claim (.empty policy)).cells[cell]? with
      | none => rfl
      | some id =>
          obtain ⟨claimed, hclaimed, hsame, _⟩ := (within_claims claims policy).cells _ _ id hcell'
          exact absurd hcell (foldl_claim_ne_none (Or.inr ⟨claimed, hclaimed, hsame⟩))

/-- Claims that name one production per cell meet no conflict. -/
theorem conflicts_foldl_claim {all claims : List Claim}
    (hagree : ∀ left ∈ all, ∀ right ∈ all, left.cell = right.cell →
      left.production = right.production)
    (hsubset : claims ⊆ all) {table : Table}
    (hcells : ∀ (cell : Cell) (id : ProductionId), table.cells[cell]? = some id →
      ∃ claimed ∈ all, claimed.cell = cell ∧ claimed.production = id) :
    (claims.foldl claim table).conflicts = table.conflicts := by
  induction claims generalizing table with
  | nil => rfl
  | cons claimed rest ih =>
      obtain ⟨hmem, hrest⟩ := List.cons_subset.mp hsubset
      have hown : ∀ id, table.cells[claimed.cell]? = some id → id = claimed.production := by
        intro id hcell
        obtain ⟨holder, hholder, hsame, rfl⟩ := hcells _ id hcell
        exact hagree holder hholder claimed hmem hsame
      rw [List.foldl_cons, ih hrest, conflicts_claim hown]
      intro cell id hcell
      rcases cells_claim hcell with hold | hnew
      · exact hcells cell id hold
      · exact ⟨claimed, hmem, hnew⟩

section

variable {claims : List Claim} {policy : ConflictPolicy}

/-- What is in a cell or lost it is a production of the row that is predicted there. -/
theorem Claimed.within (hclaimed : Claimed grammar claims) :
    (claims.foldl claim (.empty policy)).Within fun cell id =>
      ∃ production ∈ grammar.productions, production.id = id ∧
        production.lhs = cell.nonterminal ∧ grammar.Predicts cell.lookahead production := by
  refine (within_claims claims policy).mono ?_
  rintro cell id ⟨claimed, hmem, rfl, rfl⟩
  obtain ⟨production, hproduction, lookahead, hpredicts, rfl⟩ := (hclaimed claimed).mp hmem
  exact ⟨production, hproduction, rfl, rfl, hpredicts⟩

theorem Claimed.declares_conflict (hclaimed : Claimed grammar claims)
    (hwell : grammar.WellFormed) {conflict : Conflict}
    (hmem : conflict ∈ (claims.foldl claim (.empty policy)).conflicts) :
    grammar.Declares (.nonterminal conflict.nonterminal) := by
  obtain ⟨⟨production, hproduction, _, hrow, _⟩, _⟩ := hclaimed.within.conflicts conflict hmem
  have hlhs : production.lhs = conflict.nonterminal := hrow
  rw [← hlhs]
  exact hwell.declares_lhs production hproduction

theorem Claimed.sound (hclaimed : Claimed grammar claims) (hwell : grammar.WellFormed) :
    (claims.foldl claim (.empty policy)).Sound grammar := by
  intro n lookahead id hcell
  obtain ⟨production, hproduction, rfl, hrow, hpredicts⟩ :=
    hclaimed.within.cells n lookahead id hcell
  exact ⟨production, hwell.production?_id production hproduction, hrow, hpredicts⟩

theorem Claimed.decides (hclaimed : Claimed grammar claims)
    (hll1 : (claims.foldl claim (.empty policy)).isLl1 = true) :
    (claims.foldl claim (.empty policy)).Decides grammar := by
  intro production hproduction lookahead hpredicts
  exact (foldl_claim_of_not_contested (not_contested_of_isLl1 hll1 _)).2.2 _
    ((hclaimed _).mpr ⟨production, hproduction, lookahead, hpredicts, rfl⟩) rfl

theorem Claimed.isLl1 (hclaimed : Claimed grammar claims)
    (hunrivalled : grammar.Unrivalled) :
    (claims.foldl claim (.empty policy)).isLl1 = true := by
  have hagree : ∀ left ∈ claims, ∀ right ∈ claims, left.cell = right.cell →
      left.production = right.production := by
    intro left hleft right hright hcell
    obtain ⟨production, hproduction, lookahead, hpredicts, rfl⟩ := (hclaimed left).mp hleft
    obtain ⟨production', hproduction', lookahead', hpredicts', rfl⟩ :=
      (hclaimed right).mp hright
    obtain ⟨hlhs, rfl⟩ := Cell.mk.inj hcell
    exact hunrivalled _ hproduction _ hproduction' hlhs _ hpredicts hpredicts'
  rw [Table.isLl1, conflicts_foldl_claim hagree (List.Subset.refl claims) (by simp [empty])]
  rfl

end

end Table

/-- A finished grammar has an analysis for either policy, by exact sets and by the same
claims. -/
theorem Analysis.exists_claims (hwell : grammar.WellFormed) :
    ∃ nullable first follow claims, nullable.Exact grammar ∧ first.Exact grammar ∧
      follow.Exact grammar ∧ Table.Claimed grammar claims ∧
      ∀ policy, ofGrammar? grammar policy =
        some ⟨grammar, nullable, first, follow, claims.foldl Table.claim (.empty policy)⟩ := by
  obtain ⟨nullable, first, follow, hnullable, hfirst, hfollow, hnullableExact, hfirstExact,
    hfollowExact⟩ := exists_exact_sets hwell
  obtain ⟨claims, hclaims, hclaimed⟩ := Table.claims?_eq hwell hfirstExact hfollowExact
  refine ⟨nullable, first, follow, claims, hnullableExact, hfirstExact, hfollowExact,
    hclaimed, ?_⟩
  intro policy
  simp [ofGrammar?, hnullable, hfirst, hfollow, Table.ofGrammar?, hclaims]

/-- The table of the analysis is exact. -/
theorem Analysis.ofGrammar?_exact (hwell : grammar.WellFormed) (policy : ConflictPolicy) :
    ∃ analysis, ofGrammar? grammar policy = some analysis ∧ analysis.grammar = grammar ∧
      analysis.table.Sound grammar ∧
      (analysis.table.isLl1 = true → analysis.table.Decides grammar) ∧
      (grammar.Unrivalled → analysis.table.isLl1 = true) := by
  obtain ⟨nullable, first, follow, claims, _, _, _, hclaimed, hanalysis⟩ := exists_claims hwell
  exact ⟨_, hanalysis policy, rfl, hclaimed.sound hwell, hclaimed.decides, hclaimed.isLl1⟩

/-- The grammar of expressions has no conflicts. -/
theorem Analysis.isLl1_expressions {policy : ConflictPolicy} {analysis : Analysis}
    (hanalysis : ofGrammar? .expressions policy = some analysis) :
    analysis.table.isLl1 = true := by
  have hevaluated : (ofGrammar? .expressions policy).map (·.table.isLl1) = some true := by
    cases policy with
    | lastWins => decide +kernel
    | firstWins => decide +kernel
  rw [hanalysis] at hevaluated
  exact Option.some.inj hevaluated

end Predictive
