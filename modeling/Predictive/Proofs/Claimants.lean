import Predictive.Proofs.LastEntry
import Predictive.Proofs.Table

/-!
Claimants of a cell.  The productions that claim a cell, in the order of declaration, say
what the cell holds and which conflicts are recorded in it.  If the last claim wins, every
claimant loses the cell to the next one and the last one keeps it; if the first one wins, all
others lose it to the first.  So a cell is filled, and contested, under both policies alike.
-/

namespace Predictive

namespace Production

variable {first : FirstSets} {follow : FollowSets} {production : Production}
  {lookahead : Lookahead}

/-- The lookahead is in FIRST of the right-hand side. -/
def ClaimsByFirst (first : FirstSets) (production : Production) (lookahead : Lookahead) :
    Prop :=
  ∃ rhs t, first.ofSequence? production.rhs = some rhs ∧ t ∈ rhs.terminals ∧
    lookahead = .terminal t

/-- The right-hand side is nullable and the lookahead is in FOLLOW of the left-hand side. -/
def ClaimsByFollow (first : FirstSets) (follow : FollowSets) (production : Production)
    (lookahead : Lookahead) : Prop :=
  ∃ rhs beyond, first.ofSequence? production.rhs = some rhs ∧ rhs.nullable = true ∧
    follow.follow? production.lhs = some beyond ∧ lookahead ∈ beyond

/-- The production claims the cell of its row under the lookahead. -/
def Claims (first : FirstSets) (follow : FollowSets) (production : Production)
    (lookahead : Lookahead) : Prop :=
  production.ClaimsByFirst first lookahead ∨ production.ClaimsByFollow first follow lookahead

/-- The lookaheads of the claims by FIRST, in the order in which they are made. -/
def underFirst (first : FirstSets) (production : Production) : List Lookahead :=
  match first.ofSequence? production.rhs with
  | some rhs => rhs.terminals.toList.map .terminal
  | none => []

/-- The lookaheads of the claims by FOLLOW, in the order in which they are made. -/
def underFollow (first : FirstSets) (follow : FollowSets) (production : Production) :
    List Lookahead :=
  match first.ofSequence? production.rhs, follow.follow? production.lhs with
  | some rhs, some beyond => if rhs.nullable then beyond.toList else []
  | _, _ => []

/-- The claim on the cell under a lookahead. -/
def claimOn (production : Production) (lookahead : Lookahead) : Claim :=
  ⟨⟨production.lhs, lookahead⟩, production.id⟩

/-- All claims of the production in order. -/
def claims (first : FirstSets) (follow : FollowSets) (production : Production) : List Claim :=
  (production.underFirst first ++ production.underFollow first follow).map production.claimOn

theorem mem_underFirst :
    lookahead ∈ production.underFirst first ↔ production.ClaimsByFirst first lookahead := by
  unfold underFirst ClaimsByFirst
  cases first.ofSequence? production.rhs with
  | none => simp
  | some rhs => simp [eq_comm]

theorem mem_underFollow :
    lookahead ∈ production.underFollow first follow ↔
      production.ClaimsByFollow first follow lookahead := by
  unfold underFollow ClaimsByFollow
  cases first.ofSequence? production.rhs with
  | none => simp
  | some rhs =>
      cases follow.follow? production.lhs with
      | none => simp
      | some beyond => by_cases hnullable : rhs.nullable = true <;> simp [hnullable]

theorem pairwise_underFirst : (production.underFirst first).Pairwise Lookahead.Precedes := by
  unfold underFirst
  split
  · rename_i rhs _
    refine List.pairwise_map.mpr (rhs.terminals.ordered_toList.imp ?_)
    exact fun hcompare => Nat.compare_eq_lt.mp hcompare
  · exact List.Pairwise.nil

theorem pairwise_underFollow :
    (production.underFollow first follow).Pairwise Lookahead.Precedes := by
  unfold underFollow
  split
  · rename_i rhs beyond _ _
    split
    · exact beyond.ordered_toList.imp Lookahead.compare_eq_lt_iff.mp
    · exact List.Pairwise.nil
  · exact List.Pairwise.nil

theorem mem_claims {claimed : Claim} :
    claimed ∈ production.claims first follow ↔
      ∃ lookahead, production.Claims first follow lookahead ∧
        production.claimOn lookahead = claimed := by
  simp only [claims, List.mem_map, List.mem_append, mem_underFirst, mem_underFollow, Claims]

theorem production_of_mem_claims {claimed : Claim}
    (hmem : claimed ∈ production.claims first follow) : claimed.production = production.id := by
  obtain ⟨lookahead, _, rfl⟩ := mem_claims.mp hmem
  rfl

end Production

/-- The claims of all productions, one production after the other. -/
def Grammar.claims (grammar : Grammar) (first : FirstSets) (follow : FollowSets) : List Claim :=
  grammar.productions.flatMap (Production.claims first follow)

namespace ConflictPolicy

variable {policy : ConflictPolicy} {ids : List ProductionId} {id losing winning : ProductionId}

/-- The production that keeps a cell, out of those that claim it in order. -/
def keeper? : ConflictPolicy → List ProductionId → Option ProductionId
  | lastWins, ids => ids.getLast?
  | firstWins, ids => ids.head?

/-- The pairs of a loser and a winner among the productions that claim a cell in order.  If the
last claim wins, each production loses to the next one; else all others lose to the first. -/
def Clash : ConflictPolicy → List ProductionId → ProductionId → ProductionId → Prop
  | lastWins, ids, losing, winning =>
      ∃ before after, ids = before ++ losing :: winning :: after
  | firstWins, ids, losing, winning => ∃ after, ids = winning :: after ∧ losing ∈ after

theorem keeper?_eq_none_iff : policy.keeper? ids = none ↔ ids = [] := by
  cases policy with
  | lastWins => exact List.getLast?_eq_none_iff
  | firstWins => exact List.head?_eq_none_iff

theorem mem_of_keeper? (hkeeper : policy.keeper? ids = some id) : id ∈ ids := by
  cases policy with
  | lastWins => exact List.mem_of_getLast? hkeeper
  | firstWins => exact List.mem_of_head? hkeeper

/-- A new claimant takes an empty cell, and otherwise the policy settles who keeps it. -/
theorem keeper?_concat :
    policy.keeper? (ids ++ [id]) =
      some (match policy.keeper? ids with
        | none => id
        | some holder => (policy.settle holder id).2) := by
  cases policy with
  | lastWins => cases h : lastWins.keeper? ids <;> simp [keeper?, settle]
  | firstWins => cases ids <;> simp [keeper?, settle]

/-- A new claimant clashes with the production that holds the cell, and with no other. -/
theorem clash_concat_iff :
    policy.Clash (ids ++ [id]) losing winning ↔ policy.Clash ids losing winning ∨
      ∃ holder, policy.keeper? ids = some holder ∧
        policy.settle holder id = (losing, winning) := by
  cases policy with
  | lastWins =>
      simp only [Clash, keeper?, settle, Prod.mk.injEq]
      constructor
      · rintro ⟨before, after, hsplit⟩
        rcases List.eq_nil_or_concat after with rfl | ⟨inner, last, rfl⟩
        · have hwhole : ids ++ [id] = (before ++ [losing]) ++ [winning] := by simpa using hsplit
          obtain ⟨rfl, hlast⟩ := List.append_inj' hwhole rfl
          exact Or.inr ⟨losing, by simp, rfl, List.singleton_inj.mp hlast⟩
        · have hwhole : ids ++ [id] = (before ++ losing :: winning :: inner) ++ [last] := by
            simpa using hsplit
          obtain ⟨rfl, _⟩ := List.append_inj' hwhole rfl
          exact Or.inl ⟨before, inner, rfl⟩
      · rintro (⟨before, after, rfl⟩ | ⟨holder, hholder, rfl, rfl⟩)
        · exact ⟨before, after ++ [id], by simp⟩
        · obtain ⟨before, rfl⟩ := List.getLast?_eq_some_iff.mp hholder
          exact ⟨before, [], by simp⟩
  | firstWins =>
      cases ids with
      | nil => simp [Clash, keeper?]
      | cons head rest =>
          simp only [Clash, keeper?, settle, List.cons_append, List.cons.injEq, List.head?_cons,
            Option.some.injEq, Prod.mk.injEq]
          constructor
          · rintro ⟨after, ⟨rfl, rfl⟩, hlosing⟩
            rcases List.mem_append.mp hlosing with hold | hnew
            · exact Or.inl ⟨rest, ⟨rfl, rfl⟩, hold⟩
            · exact Or.inr ⟨head, rfl, (List.mem_singleton.mp hnew).symm, rfl⟩
          · rintro (⟨after, ⟨rfl, rfl⟩, hold⟩ | ⟨holder, rfl, rfl, rfl⟩)
            · exact ⟨rest ++ [id], ⟨rfl, rfl⟩, List.mem_append_left _ hold⟩
            · exact ⟨rest ++ [id], ⟨rfl, rfl⟩, List.mem_concat_self⟩

/-- If the last claimant claims the cell again, nobody new wins, and the clash, if there is
one, is not new either. -/
theorem settle_getLast? (hlast : ids.getLast? = some id) :
    ∃ holder, policy.keeper? ids = some holder ∧ (policy.settle holder id).2 = holder ∧
      (holder ≠ id → policy.Clash ids (policy.settle holder id).1 holder) := by
  cases policy with
  | lastWins => exact ⟨id, hlast, rfl, fun hne => absurd rfl hne⟩
  | firstWins =>
      cases ids with
      | nil => cases hlast
      | cons head rest =>
          refine ⟨head, rfl, rfl, fun hne => ⟨rest, rfl, ?_⟩⟩
          rcases List.mem_cons.mp (List.mem_of_getLast? hlast) with rfl | hmem
          · exact absurd rfl hne
          · exact hmem

/-- Two claimants are needed for a clash, and they suffice. -/
theorem exists_clash_iff : (∃ losing winning, policy.Clash ids losing winning) ↔
    2 ≤ ids.length := by
  match ids with
  | [] => cases policy <;> simp [Clash]
  | [only] =>
      cases policy with
      | lastWins => simp [Clash, List.cons_eq_append_iff]
      | firstWins => simp [Clash]
  | left :: right :: rest =>
      refine iff_of_true ?_ (Nat.le_add_left 2 rest.length)
      cases policy with
      | lastWins => exact ⟨left, right, [], rest, rfl⟩
      | firstWins => exact ⟨right, left, right :: rest, rfl, List.mem_cons_self⟩

end ConflictPolicy

namespace Table

variable {table : Table} {claimed : Claim} {cell : Cell}

theorem claims_of_claimsOf? {first : FirstSets} {follow : FollowSets} {production : Production}
    {claims : List Claim} (hclaims : claimsOf? first follow production = some claims) :
    claims = production.claims first follow := by
  simp only [claimsOf?, Option.bind_eq_bind, Option.bind_eq_some_iff] at hclaims
  obtain ⟨rhs, hrhs, hclaims⟩ := hclaims
  have hdirect : production.underFirst first = rhs.terminals.toList.map .terminal := by
    simp [Production.underFirst, hrhs]
  rw [Production.claims, hdirect, List.map_append, List.map_map]
  split at hclaims
  · rename_i hnullable
    obtain ⟨beyond, hbeyond, hclaims⟩ := Option.bind_eq_some_iff.mp hclaims
    have hfollow : production.underFollow first follow = beyond.toList := by
      simp [Production.underFollow, hrhs, hbeyond, hnullable]
    rw [hfollow, ← Option.some.inj hclaims]
    rfl
  · rename_i hnullable
    have hfollow : production.underFollow first follow = [] := by
      unfold Production.underFollow
      split <;> simp_all
    rw [hfollow, ← Option.some.inj hclaims, List.map_nil, List.append_nil]
    rfl

/-- The cell and its conflicts are what the policy makes of the claimants in order. -/
structure Reflects (table : Table) (cell : Cell) (ids : List ProductionId) : Prop where
  cells_eq : table.cells[cell]? = table.policy.keeper? ids
  mem_conflicts_iff : ∀ losing winning,
    ⟨cell.nonterminal, cell.lookahead, losing, winning⟩ ∈ table.conflicts ↔
      table.policy.Clash ids losing winning

variable {ids : List ProductionId}

theorem clash?_eq_some_iff {losing winning : ProductionId} :
    table.clash? claimed = some ⟨cell.nonterminal, cell.lookahead, losing, winning⟩ ↔
      claimed.cell = cell ∧ ∃ holder, table.cells[claimed.cell]? = some holder ∧
        holder ≠ claimed.production ∧
        table.policy.settle holder claimed.production = (losing, winning) := by
  obtain ⟨⟨n, lookahead⟩, production⟩ := claimed
  unfold clash?
  cases hholder : table.cells[(⟨n, lookahead⟩ : Cell)]? with
  | none => simp
  | some holder =>
      by_cases hsame : holder = production
      · simp [hsame]
      · obtain ⟨m, other⟩ := cell
        simp [hsame, Prod.ext_iff, and_assoc]

/-- A claim on another cell changes nothing. -/
theorem Reflects.claim_other (hreflects : table.Reflects cell ids)
    (hother : claimed.cell ≠ cell) : (table.claim claimed).Reflects cell ids where
  cells_eq := by rw [cells_claim_of_ne hother, policy_claim, hreflects.cells_eq]
  mem_conflicts_iff losing winning := by
    rw [conflicts_claim_eq, List.mem_append, Option.mem_toList,
      clash?_eq_some_iff, policy_claim, hreflects.mem_conflicts_iff]
    simp [hother]

/-- A new claimant comes behind the others. -/
theorem Reflects.claim_new (hreflects : table.Reflects claimed.cell ids)
    (hnew : claimed.production ∉ ids) :
    (table.claim claimed).Reflects claimed.cell (ids ++ [claimed.production]) where
  cells_eq := by
    rw [cells_claim_self, policy_claim, hreflects.cells_eq]
    exact ConflictPolicy.keeper?_concat.symm
  mem_conflicts_iff losing winning := by
    rw [conflicts_claim_eq, List.mem_append, Option.mem_toList,
      clash?_eq_some_iff, policy_claim, hreflects.mem_conflicts_iff,
      ConflictPolicy.clash_concat_iff, hreflects.cells_eq]
    apply or_congr_right
    simp only [true_and]
    apply exists_congr
    intro holder
    apply and_congr_right
    intro hholder
    have hne : holder ≠ claimed.production := by
      rintro rfl
      exact hnew (ConflictPolicy.mem_of_keeper? hholder)
    simp [hne]

/-- The last claimant may claim the cell again. -/
theorem Reflects.claim_again (hreflects : table.Reflects claimed.cell ids)
    (hlast : ids.getLast? = some claimed.production) :
    (table.claim claimed).Reflects claimed.cell ids := by
  obtain ⟨holder, hkeeper, hwinner, hclash⟩ :=
    @ConflictPolicy.settle_getLast? table.policy _ _ hlast
  have hcell := hreflects.cells_eq.trans hkeeper
  constructor
  · rw [cells_claim_self, policy_claim, hcell, hkeeper]
    exact congrArg some hwinner
  · intro losing winning
    rw [conflicts_claim_eq, List.mem_append, Option.mem_toList, clash?_eq_some_iff,
      policy_claim, hreflects.mem_conflicts_iff]
    apply or_iff_left_of_imp
    rintro ⟨_, other, hother, hne, hsettled⟩
    obtain rfl := Option.some.inj (hcell.symm.trans hother)
    have hknown := hclash hne
    rwa [hsettled, ← hwinner, hsettled] at hknown

/-- Every claim of a later production comes behind the claims of the earlier ones. -/
def InOrder (claims : List Claim) : Prop :=
  claims.Pairwise fun left right => left.production.index ≤ right.production.index

/-- The productions that claim the cell, each one once, in the order of declaration. -/
structure Claimants (claims : List Claim) (cell : Cell) (ids : List ProductionId) : Prop where
  ascending : ids.Pairwise (·.index < ·.index)
  mem_iff : ∀ id, id ∈ ids ↔ ∃ claimed ∈ claims, claimed.cell = cell ∧ claimed.production = id

/-- A claimant that no other one comes after is the last one. -/
theorem Claimants.getLast? {claims : List Claim} (hclaimants : Claimants claims cell ids)
    {id : ProductionId} (hmem : id ∈ ids) (hlast : ∀ other ∈ ids, other.index ≤ id.index) :
    ids.getLast? = some id := by
  obtain ⟨before, after, rfl⟩ := List.append_of_mem hmem
  cases after with
  | nil => exact List.getLast?_concat
  | cons next rest =>
      have hlater := (List.pairwise_append.mp hclaimants.ascending).2.1
      have hnext := (List.pairwise_cons.mp hlater).1 next List.mem_cons_self
      have hback := hlast next (by simp)
      exact absurd hnext (Nat.not_lt.mpr hback)

/-- No claimant comes after the production of the next claim. -/
theorem Claimants.index_le {claims : List Claim} (hclaimants : Claimants claims cell ids)
    (horder : InOrder (claims ++ [claimed])) :
    ∀ id ∈ ids, id.index ≤ claimed.production.index := by
  obtain ⟨_, _, hbefore⟩ := List.pairwise_append.mp horder
  intro id hid
  obtain ⟨earlier, hearlier, _, rfl⟩ := (hclaimants.mem_iff id).mp hid
  exact hbefore earlier hearlier claimed (List.mem_singleton_self claimed)

theorem Claimants.concat_other {claims : List Claim} (hclaimants : Claimants claims cell ids)
    (hother : claimed.cell ≠ cell) : Claimants (claims ++ [claimed]) cell ids where
  ascending := hclaimants.ascending
  mem_iff id := by simp [hclaimants.mem_iff, or_and_right, exists_or, hother]

theorem Claimants.concat_again {claims : List Claim}
    (hclaimants : Claimants claims claimed.cell ids) (hagain : claimed.production ∈ ids) :
    Claimants (claims ++ [claimed]) claimed.cell ids where
  ascending := hclaimants.ascending
  mem_iff id := by
    simp only [List.mem_append, List.mem_singleton, or_and_right, exists_or, exists_eq_left,
      true_and, ← hclaimants.mem_iff]
    exact (or_iff_left_of_imp fun hsame => hsame ▸ hagain).symm

theorem Claimants.concat_new {claims : List Claim}
    (hclaimants : Claimants claims claimed.cell ids) (hnew : claimed.production ∉ ids)
    (hle : ∀ id ∈ ids, id.index ≤ claimed.production.index) :
    Claimants (claims ++ [claimed]) claimed.cell (ids ++ [claimed.production]) where
  ascending := by
    refine List.pairwise_append.mpr ⟨hclaimants.ascending, List.pairwise_singleton _ _, ?_⟩
    intro id hid other hother
    rw [List.mem_singleton.mp hother]
    apply lt_of_le_of_ne (hle id hid)
    exact fun hsame => hnew (ProductionId.index_injective hsame ▸ hid)
  mem_iff id := by
    simp only [List.mem_append, List.mem_singleton, or_and_right, exists_or, exists_eq_left,
      true_and, ← hclaimants.mem_iff, @eq_comm _ id]

/-- The claims on a cell have claimants, and under either policy the table reflects them. -/
theorem exists_claimants {claims : List Claim} (horder : InOrder claims) (cell : Cell) :
    ∃ ids, Claimants claims cell ids ∧
      ∀ policy, (claims.foldl claim (.empty policy)).Reflects cell ids := by
  -- From the end, since what a claim does depends on the claims before it.
  induction claims using List.reverseRecOn with
  | nil =>
      refine ⟨[], ⟨List.Pairwise.nil, by simp⟩, fun policy => ⟨?_, ?_⟩⟩
      · cases policy <;> simp [empty, ConflictPolicy.keeper?]
      · cases policy <;> simp [empty, ConflictPolicy.Clash]
  | append_singleton earlier claimed ih =>
      obtain ⟨ids, hclaimants, hreflects⟩ := ih (List.pairwise_append.mp horder).1
      have hle := hclaimants.index_le horder
      simp only [List.foldl_append, List.foldl_cons, List.foldl_nil]
      by_cases hcell : claimed.cell = cell
      · subst hcell
        by_cases hagain : claimed.production ∈ ids
        · exact ⟨ids, hclaimants.concat_again hagain, fun policy =>
            (hreflects policy).claim_again (hclaimants.getLast? hagain hle)⟩
        · exact ⟨ids ++ [claimed.production], hclaimants.concat_new hagain hle, fun policy =>
            (hreflects policy).claim_new hagain⟩
      · exact ⟨ids, hclaimants.concat_other hcell, fun policy =>
          (hreflects policy).claim_other hcell⟩

/-- A cell is contested if two productions claim it. -/
theorem Reflects.contested_iff (hreflects : table.Reflects cell ids) :
    table.Contested cell ↔ 2 ≤ ids.length := by
  rw [← table.policy.exists_clash_iff]
  simp only [← hreflects.mem_conflicts_iff]
  constructor
  · rintro ⟨⟨n, lookahead, losing, winning⟩, hmem, rfl⟩
    exact ⟨losing, winning, hmem⟩
  · rintro ⟨losing, winning, hmem⟩
    exact ⟨_, hmem, rfl⟩

/-- Which cells are contested does not depend on the policy. -/
theorem contested_iff_of_policy {claims : List Claim} (horder : InOrder claims)
    (left right : ConflictPolicy) (cell : Cell) :
    (claims.foldl claim (.empty left)).Contested cell ↔
      (claims.foldl claim (.empty right)).Contested cell := by
  obtain ⟨ids, _, hreflects⟩ := exists_claimants horder cell
  rw [(hreflects left).contested_iff, (hreflects right).contested_iff]

theorem rows_iff_of_policy {claims : List Claim} (horder : InOrder claims)
    (left right : ConflictPolicy) (row : NonTerminal) :
    (∃ conflict ∈ (claims.foldl claim (.empty left)).conflicts, conflict.nonterminal = row) ↔
      ∃ conflict ∈ (claims.foldl claim (.empty right)).conflicts,
        conflict.nonterminal = row := by
  have hcells : ∀ table : Table, (∃ conflict ∈ table.conflicts, conflict.nonterminal = row) ↔
      ∃ lookahead, table.Contested ⟨row, lookahead⟩ := by
    intro table
    simp [Contested]
  simp only [hcells, contested_iff_of_policy horder left right]

theorem isLl1_iff_not_contested : table.isLl1 = true ↔ ∀ cell, ¬ table.Contested cell := by
  refine ⟨not_contested_of_isLl1, fun hfree => ?_⟩
  apply List.isEmpty_iff.mpr
  apply List.eq_nil_iff_forall_not_mem.mpr
  exact fun conflict hmem => hfree _ ⟨conflict, hmem, rfl⟩

variable {grammar : Grammar} {first : FirstSets} {follow : FollowSets}

theorem claims?_eq_claims (hwell : grammar.WellFormed) (hfirst : first.Exact grammar)
    (hfollow : follow.Exact grammar) :
    claims? grammar first follow = some (grammar.claims first follow) := by
  have hclaims : ∀ production ∈ grammar.productions,
      claimsOf? first follow production = some (production.claims first follow) := by
    intro production hmem
    obtain ⟨claims, hclaims, _⟩ := claimsOf?_eq hwell hfirst hfollow hmem
    rw [hclaims, claims_of_claimsOf? hclaims]
  rw [claims?, mapM_eq_some_map hclaims]
  rfl

theorem inOrder_claims (hfinished : grammar.Finished) :
    InOrder (grammar.claims first follow) := by
  refine List.pairwise_flatMap.mpr ⟨?_, ?_⟩
  · intro production _
    apply List.pairwise_of_forall_mem_list
    intro left hleft right hright
    rw [Production.production_of_mem_claims hleft, Production.production_of_mem_claims hright]
  · refine hfinished.pairwise_productions.imp ?_
    intro left right hlt claimed hclaimed later hlater
    rw [Production.production_of_mem_claims hclaimed,
      Production.production_of_mem_claims hlater]
    exact Nat.le_of_lt hlt

/-- A claim on a cell is the claim of a production of the row. -/
theorem exists_claim_iff {n : NonTerminal} {lookahead : Lookahead} {id : ProductionId} :
    (∃ claimed ∈ grammar.claims first follow,
        claimed.cell = ⟨n, lookahead⟩ ∧ claimed.production = id) ↔
      ∃ production ∈ grammar.productions, production.id = id ∧ production.lhs = n ∧
        production.Claims first follow lookahead := by
  constructor
  · rintro ⟨claimed, hmem, hcell, rfl⟩
    obtain ⟨production, hproduction, hclaim⟩ := List.mem_flatMap.mp hmem
    obtain ⟨other, hclaims, rfl⟩ := Production.mem_claims.mp hclaim
    obtain ⟨hrow, rfl⟩ := Cell.mk.inj hcell
    exact ⟨production, hproduction, rfl, hrow, hclaims⟩
  · rintro ⟨production, hproduction, rfl, rfl, hclaims⟩
    refine ⟨production.claimOn lookahead, ?_, rfl, rfl⟩
    exact List.mem_flatMap.mpr
      ⟨production, hproduction, Production.mem_claims.mpr ⟨lookahead, hclaims, rfl⟩⟩

end Table

namespace Grammar

/-- A production of A claims the cell under b by FIRST and by FOLLOW, between two others. -/
def repeatedClaimRules : Draft := .ofRules
  [("S", [["A", "a", "A", "b"]]), ("A", [["a"], ["b"], ["B"], ["b"]]), ("B", [["b"], []])]

def repeatedClaim : Grammar := repeatedClaimRules.resolve "S"

theorem finished_repeatedClaim : repeatedClaim.Finished where
  finish_eq := ⟨repeatedClaimRules, "S", by decide +kernel⟩
  productions_lt := by decide +kernel
  nonterminals_lt := by decide +kernel
  terminals_lt := by decide +kernel

end Grammar

namespace Analysis

variable {grammar : Grammar}

/-- A finished grammar has an analysis for either policy, by the same sets and by the claims
of its productions in order. -/
theorem exists_tables (hfinished : grammar.Finished) :
    ∃ nullable first follow, Table.Claimed grammar (grammar.claims first follow) ∧
      ∀ policy, ofGrammar? grammar policy = some ⟨grammar, nullable, first, follow,
        (grammar.claims first follow).foldl Table.claim (.empty policy)⟩ := by
  have hwell := hfinished.wellFormed
  obtain ⟨nullable, first, follow, hnullable, hfirst, hfollow, _, hfirstExact, hfollowExact⟩ :=
    exists_exact_sets hwell
  have hlisted := Table.claims?_eq_claims hwell hfirstExact hfollowExact
  obtain ⟨claims, hclaims, hclaimed⟩ := Table.claims?_eq hwell hfirstExact hfollowExact
  obtain rfl := Option.some.inj (hlisted.symm.trans hclaims)
  refine ⟨nullable, first, follow, hclaimed, fun policy => ?_⟩
  simp [ofGrammar?, hnullable, hfirst, hfollow, Table.ofGrammar?, hclaims]

/-- A cell holds, of the productions that claim it, the one that keeps it under the policy,
and its conflicts are the clashes of these productions.  Which cells are filled, which are
contested, and whether there is any conflict does not depend on the policy. -/
theorem table_reflects_claimants (hfinished : grammar.Finished) :
    ∃ nullable first follow, ∃ table : ConflictPolicy → Table,
      (∀ policy, ofGrammar? grammar policy =
        some ⟨grammar, nullable, first, follow, table policy⟩) ∧
      (∀ n lookahead, ∃ ids : List ProductionId, ids.Pairwise (·.index < ·.index) ∧
        (∀ id, id ∈ ids ↔ ∃ production ∈ grammar.productions, production.id = id ∧
          production.lhs = n ∧ production.Claims first follow lookahead) ∧
        ∀ policy, (table policy).get? n lookahead = policy.keeper? ids ∧
          ((table policy).get? n lookahead = none ↔ ids = []) ∧
          ∀ losing winning, ⟨n, lookahead, losing, winning⟩ ∈ (table policy).conflicts ↔
            policy.Clash ids losing winning) ∧
      ∀ left right,
        (∀ n lookahead, (table left).get? n lookahead = none ↔
          (table right).get? n lookahead = none) ∧
        (∀ cell, (table left).Contested cell ↔ (table right).Contested cell) ∧
        (table left).isLl1 = (table right).isLl1 := by
  obtain ⟨nullable, first, follow, _, hanalysis⟩ := exists_tables hfinished
  have horder := @Table.inOrder_claims grammar first follow hfinished
  have hreflected := Table.exists_claimants horder
  refine ⟨nullable, first, follow, _, hanalysis, ?_, ?_⟩
  · intro n lookahead
    obtain ⟨ids, hclaimants, hreflects⟩ := hreflected ⟨n, lookahead⟩
    refine ⟨ids, hclaimants.ascending,
      fun id => (hclaimants.mem_iff id).trans Table.exists_claim_iff, fun policy => ?_⟩
    have hcell := (hreflects policy).cells_eq
    have hmem := (hreflects policy).mem_conflicts_iff
    rw [Table.policy_foldl_claim] at hcell hmem
    refine ⟨hcell, ?_, hmem⟩
    rw [Table.get?, hcell]
    exact ConflictPolicy.keeper?_eq_none_iff
  · intro left right
    have hcontested := Table.contested_iff_of_policy horder left right
    refine ⟨?_, hcontested, ?_⟩
    · intro n lookahead
      obtain ⟨ids, _, hreflects⟩ := hreflected ⟨n, lookahead⟩
      rw [Table.get?, Table.get?, (hreflects left).cells_eq, (hreflects right).cells_eq,
        ConflictPolicy.keeper?_eq_none_iff, ConflictPolicy.keeper?_eq_none_iff]
    · rw [Bool.eq_iff_iff, Table.isLl1_iff_not_contested, Table.isLl1_iff_not_contested]
      simp only [hcontested]

theorem conflicts_repeatedClaim (policy : ConflictPolicy) :
    (ofGrammar? .repeatedClaim policy).map (·.table.conflicts) = some (match policy with
      | .lastWins => [⟨⟨1⟩, .terminal ⟨1⟩, ⟨2⟩, ⟨3⟩⟩, ⟨⟨1⟩, .terminal ⟨0⟩, ⟨1⟩, ⟨3⟩⟩,
          ⟨⟨1⟩, .terminal ⟨1⟩, ⟨3⟩, ⟨4⟩⟩, ⟨⟨2⟩, .terminal ⟨1⟩, ⟨5⟩, ⟨6⟩⟩]
      | .firstWins => [⟨⟨1⟩, .terminal ⟨1⟩, ⟨3⟩, ⟨2⟩⟩, ⟨⟨1⟩, .terminal ⟨0⟩, ⟨3⟩, ⟨1⟩⟩,
          ⟨⟨1⟩, .terminal ⟨1⟩, ⟨3⟩, ⟨2⟩⟩, ⟨⟨1⟩, .terminal ⟨1⟩, ⟨4⟩, ⟨2⟩⟩,
          ⟨⟨2⟩, .terminal ⟨1⟩, ⟨6⟩, ⟨5⟩⟩]) := by
  cases policy <;> decide +kernel

/-- Three productions of A claim the cell under b, the one in the middle twice.  The last one
or the first one keeps it, and the repeated claim makes no clash of its own. -/
theorem table_reflects_claimants_repeatedClaim :
    Grammar.repeatedClaim.Finished ∧
    ∃ nullable first follow, ∃ table : ConflictPolicy → Table,
      (∀ policy, ofGrammar? .repeatedClaim policy =
        some ⟨.repeatedClaim, nullable, first, follow, table policy⟩) ∧
      (table .lastWins).get? ⟨1⟩ (.terminal ⟨1⟩) = some ⟨4⟩ ∧
      (table .firstWins).get? ⟨1⟩ (.terminal ⟨1⟩) = some ⟨2⟩ ∧
      ∃ ids : List ProductionId,
        (∀ id, id ∈ ids ↔ ∃ production ∈ Grammar.repeatedClaim.productions,
          production.id = id ∧ production.lhs = ⟨1⟩ ∧
            production.Claims first follow (.terminal ⟨1⟩)) ∧
        ids.getLast? = some ⟨4⟩ ∧ ids.head? = some ⟨2⟩ ∧
        (∀ losing winning, ConflictPolicy.lastWins.Clash ids losing winning ↔
          (losing, winning) ∈ [(⟨2⟩, ⟨3⟩), (⟨3⟩, ⟨4⟩)]) ∧
        ∀ losing winning, ConflictPolicy.firstWins.Clash ids losing winning ↔
          (losing, winning) ∈ [(⟨3⟩, ⟨2⟩), (⟨4⟩, ⟨2⟩)] := by
  obtain ⟨nullable, first, follow, table, hanalysis, hcells, _⟩ :=
    table_reflects_claimants Grammar.finished_repeatedClaim
  obtain ⟨ids, _, hids, hreflects⟩ := hcells ⟨1⟩ (.terminal ⟨1⟩)
  have hlast : (ofGrammar? .repeatedClaim .lastWins).map
      (·.table.get? ⟨1⟩ (.terminal ⟨1⟩)) = some (some ⟨4⟩) := by decide +kernel
  have hfirst : (ofGrammar? .repeatedClaim .firstWins).map
      (·.table.get? ⟨1⟩ (.terminal ⟨1⟩)) = some (some ⟨2⟩) := by decide +kernel
  have hconflicts := conflicts_repeatedClaim
  simp only [hanalysis, Option.map_some, Option.some.injEq] at hlast hfirst hconflicts
  obtain ⟨hkeptLast, _, hclashLast⟩ := hreflects .lastWins
  obtain ⟨hkeptFirst, _, hclashFirst⟩ := hreflects .firstWins
  refine ⟨Grammar.finished_repeatedClaim, nullable, first, follow, table, hanalysis, hlast,
    hfirst, ids, hids, hkeptLast.symm.trans hlast, hkeptFirst.symm.trans hfirst, ?_, ?_⟩
  · intro losing winning
    rw [← hclashLast, hconflicts]
    simp
  · intro losing winning
    rw [← hclashFirst, hconflicts]
    simp

end Analysis

end Predictive
