import Predictive.Proofs.Claimants

/-!
The order of the conflicts.  A claim meets a conflict if an earlier production claims the cell
too; but if the last claim wins, not where its own production has claimed the cell before.  So
the conflicts come in the order of their later productions, and those that a production meets
under FIRST come before those under FOLLOW.  Both parts ascend by lookahead, but a conflict
under FOLLOW may come too late, and if the first claim wins, it may be there already.
-/

namespace Predictive

variable {policy : ConflictPolicy} {grammar : Grammar} {first : FirstSets}
  {follow : FollowSets} {production : Production} {claims : List Claim} {claimed : Claim}

/-- An earlier production claims the cell too. -/
def Claim.Disputed (claimed : Claim) (claims : List Claim) : Prop :=
  ∃ earlier ∈ claims, earlier.cell = claimed.cell ∧
    earlier.production.index < claimed.production.index

instance : Decidable (claimed.Disputed claims) :=
  inferInstanceAs (Decidable (∃ earlier ∈ claims, _))

/-- A claim that comes last disputes no claim of an earlier production, nor itself. -/
theorem Claim.disputed_concat_iff {last : Claim}
    (hle : claimed.production.index ≤ last.production.index) :
    claimed.Disputed (claims ++ [last]) ↔ claimed.Disputed claims := by
  simp [Disputed, or_and_right, exists_or, hle]

/-- Claims by production, then by lookahead. -/
def Claim.Precedes (left right : Claim) : Prop :=
  left.production.index < right.production.index ∨
    left.production = right.production ∧ left.cell.lookahead.Precedes right.cell.lookahead

/-- The claims that can meet a conflict.  If the last claim wins, a repeated claim finds its
own production in the cell. -/
def ConflictPolicy.counted : ConflictPolicy → List Claim → List Claim
  | lastWins, claims => claims.eraseDups
  | firstWins, claims => claims

namespace Conflict

/-- The one of the two productions that is declared later. -/
def later (conflict : Conflict) : ProductionId :=
  if conflict.losing.index < conflict.winning.index then conflict.winning else conflict.losing

/-- The claim that met the conflict. -/
def claim (conflict : Conflict) : Claim :=
  ⟨⟨conflict.nonterminal, conflict.lookahead⟩, conflict.later⟩

/-- Conflicts by their later production, then by lookahead. -/
def Precedes (left right : Conflict) : Prop :=
  left.later.index < right.later.index ∨
    left.later = right.later ∧ left.lookahead.Precedes right.lookahead

end Conflict

instance (left right : Lookahead) : Decidable (left.Precedes right) :=
  decidable_of_iff _ Lookahead.compare_eq_lt_iff

instance (left right : Conflict) : Decidable (left.Precedes right) :=
  inferInstanceAs (Decidable (_ ∨ _ ∧ _))

namespace ConflictPolicy

theorem mem_counted_iff : claimed ∈ policy.counted claims ↔ claimed ∈ claims := by
  cases policy with
  | lastWins => exact List.mem_eraseDups
  | firstWins => exact Iff.rfl

theorem counted_concat : policy.counted (claims ++ [claimed]) =
    policy.counted claims ++
      if policy = .lastWins → claimed ∉ claims then [claimed] else [] := by
  cases policy with
  | lastWins => by_cases hmem : claimed ∈ claims <;>
      simp [counted, List.eraseDups_append, List.cons_removeAll, List.eraseDups_cons, hmem]
  | firstWins => simp [counted]

end ConflictPolicy

namespace Table

theorem Claimants.disputed_iff {ids : List ProductionId}
    (hclaimants : Claimants claims claimed.cell ids) :
    claimed.Disputed claims ↔ ∃ earlier ∈ ids, earlier.index < claimed.production.index := by
  simp [Claim.Disputed, hclaimants.mem_iff, and_assoc]

theorem Claimants.production_mem_iff {ids : List ProductionId}
    (hclaimants : Claimants claims claimed.cell ids) :
    claimed.production ∈ ids ↔ claimed ∈ claims := by
  rw [hclaimants.mem_iff]
  constructor
  · rintro ⟨⟨cell, id⟩, hclaimed, rfl, rfl⟩
    exact hclaimed
  · exact fun hclaimed => ⟨claimed, hclaimed, rfl, rfl⟩

/-- The next claim finds another production in the cell exactly if an earlier one claims the
cell and, where the last claim wins, its own has not claimed it yet. -/
theorem Claimants.ne_iff_of_keeper? {ids : List ProductionId} {holder : ProductionId}
    (hclaimants : Claimants claims claimed.cell ids) (horder : InOrder (claims ++ [claimed]))
    (hkeeper : policy.keeper? ids = some holder) :
    holder ≠ claimed.production ↔
      claimed.Disputed claims ∧ (policy = .lastWins → claimed ∉ claims) := by
  have hle := hclaimants.index_le horder
  have hholder := ConflictPolicy.mem_of_keeper? hkeeper
  rw [hclaimants.disputed_iff, ← hclaimants.production_mem_iff]
  constructor
  · intro hne
    have hlt : holder.index < claimed.production.index :=
      lt_of_le_of_ne (hle holder hholder) fun hsame => hne (ProductionId.index_injective hsame)
    refine ⟨⟨holder, hholder, hlt⟩, ?_⟩
    rintro rfl hmem
    exact hne (Option.some.inj (hkeeper.symm.trans (hclaimants.getLast? hmem hle)))
  · rintro ⟨⟨earlier, hearlier, hlt⟩, hnew⟩ rfl
    cases policy with
    | lastWins => exact hnew rfl hholder
    | firstWins =>
        obtain ⟨rest, rfl⟩ := List.head?_eq_some_iff.mp hkeeper
        rcases List.mem_cons.mp hearlier with rfl | hrest
        · exact Nat.lt_irrefl _ hlt
        · have hbehind := (List.pairwise_cons.mp hclaimants.ascending).1 earlier hrest
          exact Nat.lt_asymm hlt hbehind

/-- A conflict with an earlier holder names the claim that met it. -/
theorem claim_of_settle {holder : ProductionId}
    (hlt : holder.index < claimed.production.index) :
    Conflict.claim ⟨claimed.cell.nonterminal, claimed.cell.lookahead,
      (policy.settle holder claimed.production).1,
      (policy.settle holder claimed.production).2⟩ = claimed := by
  cases policy <;>
    simp [Conflict.claim, Conflict.later, ConflictPolicy.settle, hlt, Nat.lt_asymm hlt]

/-- The last claim meets a conflict exactly if it is disputed and counts. -/
theorem map_claim_clash? (horder : InOrder (claims ++ [claimed])) :
    (((claims.foldl claim (.empty policy)).clash? claimed).toList.map Conflict.claim) =
      if claimed.Disputed claims ∧ (policy = .lastWins → claimed ∉ claims)
      then [claimed] else [] := by
  obtain ⟨ids, hclaimants, hreflects⟩ :=
    exists_claimants (List.pairwise_append.mp horder).1 claimed.cell
  have hcell := (hreflects policy).cells_eq
  rw [policy_foldl_claim] at hcell
  rw [clash?, hcell, policy_foldl_claim]
  dsimp only [empty]
  cases hkeeper : policy.keeper? ids with
  | none =>
      obtain rfl := ConflictPolicy.keeper?_eq_none_iff.mp hkeeper
      simp [hclaimants.disputed_iff]
  | some holder =>
      have hne := hclaimants.ne_iff_of_keeper? horder hkeeper
      by_cases hsame : holder = claimed.production
      · rw [if_neg (fun hmeets => hne.mpr hmeets hsame)]
        simp [hsame]
      · have hle := hclaimants.index_le horder holder (ConflictPolicy.mem_of_keeper? hkeeper)
        have hlt := lt_of_le_of_ne hle fun heq => hsame (ProductionId.index_injective heq)
        rw [if_pos (hne.mp hsame)]
        simp [hsame, claim_of_settle hlt]

/-- The conflicts are those of the disputed claims, in the order of the claims. -/
theorem map_claim_conflicts (horder : InOrder claims) :
    (claims.foldl claim (.empty policy)).conflicts.map Conflict.claim =
      (policy.counted claims).filter (·.Disputed claims) := by
  induction claims using List.reverseRecOn with
  | nil => cases policy <;> rfl
  | append_singleton earlier claimed ih =>
      obtain ⟨hearlier, _, hbefore⟩ := List.pairwise_append.mp horder
      have hkept : (policy.counted earlier).filter (·.Disputed (earlier ++ [claimed])) =
          (policy.counted earlier).filter (·.Disputed earlier) := by
        apply List.filter_congr
        intro other hother
        have hmem := ConflictPolicy.mem_counted_iff.mp hother
        have hle := hbefore other hmem claimed (List.mem_singleton_self claimed)
        exact decide_eq_decide.mpr (Claim.disputed_concat_iff hle)
      simp only [List.foldl_append, List.foldl_cons, List.foldl_nil]
      rw [conflicts_claim_eq, List.map_append, ih hearlier, map_claim_clash? horder,
        ConflictPolicy.counted_concat, List.filter_append, hkept]
      congr 1
      by_cases hnew : policy = .lastWins → claimed ∉ earlier
      · simp only [if_pos hnew, and_iff_left hnew, List.filter_cons, List.filter_nil,
          decide_eq_true_eq, Claim.disputed_concat_iff (le_refl claimed.production.index)]
      · rw [if_neg (fun hmeets => hnew hmeets.2), if_neg hnew, List.filter_nil]

end Table

namespace ConflictPolicy

theorem eraseDups_of_nodup (hnodup : claims.Nodup) : claims.eraseDups = claims := by
  induction claims with
  | nil => rfl
  | cons head rest ih =>
      obtain ⟨hnew, hrest⟩ := List.nodup_cons.mp hnodup
      have hkept : rest.filter (fun other => !other == head) = rest := by
        apply List.filter_eq_self.mpr
        intro other hother
        have hne : other ≠ head := fun hsame => hnew (hsame ▸ hother)
        simpa using hne
      rw [List.eraseDups_cons, hkept, ih hrest]

/-- Of two sweeps, the claims of the first one count, and those of the second one that are new
where the last claim wins. -/
theorem counted_append {left right : List Claim} (hleft : left.Nodup)
    (hright : right.Nodup) : policy.counted (left ++ right) =
      left ++ right.filter (fun claimed => policy = .lastWins → claimed ∉ left) := by
  cases policy with
  | lastWins =>
      have hnew : right.removeAll left =
          right.filter (fun claimed => lastWins = .lastWins → claimed ∉ left) := by
        simp [List.removeAll]
      rw [counted, List.eraseDups_append, eraseDups_of_nodup hleft, hnew,
        eraseDups_of_nodup (hright.filter _)]
  | firstWins => simp [counted]

/-- No claim of a production repeats one of another production. -/
theorem counted_flatMap {productions : List Production}
    (hproductions : productions.Pairwise fun left right => left.id.index < right.id.index) :
    policy.counted (productions.flatMap (Production.claims first follow)) =
      productions.flatMap fun production =>
        policy.counted (production.claims first follow) := by
  cases policy with
  | firstWins => rfl
  | lastWins =>
      induction productions with
      | nil => rfl
      | cons production rest ih =>
          obtain ⟨hbefore, hrest⟩ := List.pairwise_cons.mp hproductions
          have hnew : (rest.flatMap (Production.claims first follow)).removeAll
              (production.claims first follow) =
                rest.flatMap (Production.claims first follow) := by
            apply List.filter_eq_self.mpr
            intro claimed hclaimed
            obtain ⟨later, hlater, hclaims⟩ := List.mem_flatMap.mp hclaimed
            have hne : claimed ∉ production.claims first follow := by
              intro hown
              have hlt := hbefore later hlater
              rw [← Production.production_of_mem_claims hown,
                ← Production.production_of_mem_claims hclaims] at hlt
              exact Nat.lt_irrefl _ hlt
            simpa using hne
          simp only [List.flatMap_cons, ← ih hrest]
          rw [counted, List.eraseDups_append, hnew]
          rfl

end ConflictPolicy

theorem Lookahead.not_precedes_self (lookahead : Lookahead) : ¬ lookahead.Precedes lookahead := by
  cases lookahead with
  | terminal t => exact Nat.lt_irrefl t.index
  | endMarker => exact not_false

theorem Claim.Precedes.ne {left right : Claim} (hprecedes : left.Precedes right) :
    left ≠ right := by
  rintro rfl
  rcases hprecedes with hlt | ⟨_, hlookahead⟩
  · exact Nat.lt_irrefl _ hlt
  · exact Lookahead.not_precedes_self _ hlookahead

namespace Production

theorem claimOn_injective : Function.Injective production.claimOn :=
  fun _ _ hsame => (Cell.mk.inj (Claim.mk.inj hsame).1).2

theorem precedes_claimOn_iff {left right : Lookahead} :
    (production.claimOn left).Precedes (production.claimOn right) ↔ left.Precedes right := by
  simp [Claim.Precedes, claimOn]

theorem pairwise_claims_underFirst :
    ((production.underFirst first).map production.claimOn).Pairwise Claim.Precedes :=
  List.pairwise_map.mpr (pairwise_underFirst.imp precedes_claimOn_iff.mpr)

theorem pairwise_claims_underFollow :
    ((production.underFollow first follow).map production.claimOn).Pairwise Claim.Precedes :=
  List.pairwise_map.mpr (pairwise_underFollow.imp precedes_claimOn_iff.mpr)

/-- A claim by FOLLOW that repeats one by FIRST does not count if the last claim wins. -/
theorem counted_claims : policy.counted (production.claims first follow) =
    (production.underFirst first).map production.claimOn ++
      ((production.underFollow first follow).map production.claimOn).filter fun claimed =>
        policy = .lastWins → claimed ∉ (production.underFirst first).map production.claimOn := by
  rw [claims, List.map_append]
  exact ConflictPolicy.counted_append (pairwise_claims_underFirst.imp Claim.Precedes.ne)
    (pairwise_claims_underFollow.imp Claim.Precedes.ne)

/-- The disputed claims of a production ascend if those by FIRST come before those by FOLLOW
that count. -/
theorem pairwise_counted_claims_iff :
    ((policy.counted (production.claims first follow)).filter
        (·.Disputed claims)).Pairwise Claim.Precedes ↔
      ∀ left right, production.ClaimsByFirst first left →
        production.ClaimsByFollow first follow right →
        (production.claimOn left).Disputed claims →
        (production.claimOn right).Disputed claims →
        (policy = .lastWins → ¬ production.ClaimsByFirst first right) →
        left.Precedes right := by
  rw [counted_claims, List.filter_append, List.pairwise_append,
    and_iff_right (pairwise_claims_underFirst.filter _),
    and_iff_right ((pairwise_claims_underFollow.filter _).filter _)]
  simp only [List.mem_filter, List.mem_map, decide_eq_true_eq, mem_underFirst, mem_underFollow]
  constructor
  · intro hcross left right hleft hright hdisputed hrival hnew
    apply precedes_claimOn_iff.mp
    refine hcross _ ⟨⟨left, hleft, rfl⟩, hdisputed⟩ _ ⟨⟨⟨right, hright, rfl⟩, ?_⟩, hrival⟩
    rintro hpolicy ⟨again, hagain, hsame⟩
    exact hnew hpolicy (claimOn_injective hsame ▸ hagain)
  · rintro hcross _ ⟨⟨left, hleft, rfl⟩, hdisputed⟩ _ ⟨⟨⟨right, hright, rfl⟩, hnew⟩, hrival⟩
    apply precedes_claimOn_iff.mpr
    refine hcross left right hleft hright hdisputed hrival fun hpolicy hagain => ?_
    exact hnew hpolicy ⟨right, hagain, rfl⟩

theorem production_of_mem_counted (hmem : claimed ∈
    (policy.counted (production.claims first follow)).filter (·.Disputed claims)) :
    claimed.production = production.id :=
  production_of_mem_claims (ConflictPolicy.mem_counted_iff.mp (List.mem_filter.mp hmem).1)

/-- If the last claim wins, no claim of a production counts twice. -/
theorem nodup_counted_claims :
    (ConflictPolicy.lastWins.counted (production.claims first follow)).Nodup := by
  rw [counted_claims]
  refine List.nodup_append.mpr ⟨pairwise_claims_underFirst.imp Claim.Precedes.ne,
    (pairwise_claims_underFollow.imp Claim.Precedes.ne).filter _, ?_⟩
  rintro left hleft right hright rfl
  have hnew := (List.mem_filter.mp hright).2
  exact of_decide_eq_true hnew rfl hleft

end Production

namespace Table

/-- Production by production, the conflicts are those of the disputed claims that count. -/
theorem map_claim_conflicts_eq_flatMap (hfinished : grammar.Finished) :
    ((grammar.claims first follow).foldl claim (.empty policy)).conflicts.map Conflict.claim =
      grammar.productions.flatMap fun production =>
        (policy.counted (production.claims first follow)).filter
          (·.Disputed (grammar.claims first follow)) := by
  have hcounted : policy.counted (grammar.claims first follow) =
      grammar.productions.flatMap fun production =>
        policy.counted (production.claims first follow) :=
    ConflictPolicy.counted_flatMap hfinished.pairwise_productions
  rw [map_claim_conflicts (inOrder_claims hfinished), hcounted, List.filter_flatMap]

/-- A relation that goes by the productions first is a matter of each production alone. -/
theorem pairwise_conflicts_iff (R : Claim → Claim → Prop) (hfinished : grammar.Finished)
    (hearlier : ∀ left right : Claim,
      left.production.index < right.production.index → R left right) :
    (((grammar.claims first follow).foldl claim (.empty policy)).conflicts.Pairwise
        fun left right => R left.claim right.claim) ↔
      ∀ production ∈ grammar.productions,
        ((policy.counted (production.claims first follow)).filter
          (·.Disputed (grammar.claims first follow))).Pairwise R := by
  rw [← List.pairwise_map, map_claim_conflicts_eq_flatMap hfinished, List.pairwise_flatMap]
  apply and_iff_left
  refine hfinished.pairwise_productions.imp ?_
  intro before after hlt left hleft right hright
  apply hearlier
  rwa [Production.production_of_mem_counted hleft, Production.production_of_mem_counted hright]

theorem pairwise_later_conflicts (hfinished : grammar.Finished) :
    ((grammar.claims first follow).foldl claim (.empty policy)).conflicts.Pairwise
      fun left right => left.later.index ≤ right.later.index := by
  apply (pairwise_conflicts_iff (fun left right =>
    left.production.index ≤ right.production.index) hfinished ?_).mpr
  · intro production _
    apply List.pairwise_of_forall_mem_list
    intro left hleft right hright
    rw [Production.production_of_mem_counted hleft, Production.production_of_mem_counted hright]
  · exact fun _ _ => Nat.le_of_lt

/-- If the last claim wins, no two conflicts are met by one claim. -/
theorem nodup_map_claim_conflicts (hfinished : grammar.Finished) :
    (((grammar.claims first follow).foldl claim (.empty .lastWins)).conflicts.map
      Conflict.claim).Nodup := by
  refine List.pairwise_map.mpr ((pairwise_conflicts_iff (· ≠ ·) hfinished ?_).mpr ?_)
  · rintro left _ hlt rfl
    exact Nat.lt_irrefl _ hlt
  · exact fun production _ => Production.nodup_counted_claims.filter _

end Table

namespace Grammar

/-- The last production of A claims the cell under b by FIRST and by FOLLOW, after another
one, and the cell under a by FOLLOW. -/
def doubleSweepRules : Draft := .ofRules
  [("S", [["A", "b", "A", "a"]]), ("A", [["b"], ["a"], ["B"]]), ("B", [["b"], []])]

def doubleSweep : Grammar := doubleSweepRules.resolve "S"

theorem finished_doubleSweep : doubleSweep.Finished where
  finish_eq := ⟨doubleSweepRules, "S", by decide +kernel⟩
  productions_lt := by decide +kernel
  nonterminals_lt := by decide +kernel
  terminals_lt := by decide +kernel

end Grammar

namespace Analysis

/-- Production by production, the conflicts are those of the disputed claims that count.  They
ascend by the later production and, if the last claim wins, none comes twice.  They ascend
strictly by that production and the lookahead exactly if, for every production, the disputed
lookaheads of FIRST come before those of FOLLOW that count. -/
theorem conflicts_ascending_iff (hfinished : grammar.Finished) :
    ∃ nullable first follow, ∀ policy, ∃ table,
      ofGrammar? grammar policy = some ⟨grammar, nullable, first, follow, table⟩ ∧
      (table.conflicts.map Conflict.claim = grammar.productions.flatMap fun production =>
        (policy.counted (production.claims first follow)).filter
          (·.Disputed (grammar.claims first follow))) ∧
      (table.conflicts.Pairwise fun left right => left.later.index ≤ right.later.index) ∧
      (policy = .lastWins → (table.conflicts.map Conflict.claim).Nodup) ∧
      (table.conflicts.Pairwise Conflict.Precedes ↔
        ∀ production ∈ grammar.productions, ∀ left right,
          production.ClaimsByFirst first left → production.ClaimsByFollow first follow right →
          (production.claimOn left).Disputed (grammar.claims first follow) →
          (production.claimOn right).Disputed (grammar.claims first follow) →
          (policy = .lastWins → ¬ production.ClaimsByFirst first right) →
          left.Precedes right) := by
  obtain ⟨nullable, first, follow, _, hanalysis⟩ := exists_tables hfinished
  refine ⟨nullable, first, follow, fun policy => ⟨_, hanalysis policy,
    Table.map_claim_conflicts_eq_flatMap hfinished, Table.pairwise_later_conflicts hfinished,
    fun hpolicy => hpolicy ▸ Table.nodup_map_claim_conflicts hfinished, ?_⟩⟩
  refine (Table.pairwise_conflicts_iff Claim.Precedes hfinished fun _ _ => Or.inl).trans ?_
  exact forall₂_congr fun _ _ => Production.pairwise_counted_claims_iff

/-- If the last claim wins, the conflicts of A under b and a ascend.  If the first one wins, the
repeated claim under b is listed twice. -/
theorem conflicts_ascending_iff_doubleSweep :
    Grammar.doubleSweep.Finished ∧
    ∃ nullable first follow, ∃ table : ConflictPolicy → Table,
      (∀ policy, ofGrammar? .doubleSweep policy =
        some ⟨.doubleSweep, nullable, first, follow, table policy⟩) ∧
      (table .lastWins).conflicts.map Conflict.claim =
        [⟨⟨⟨1⟩, .terminal ⟨0⟩⟩, ⟨3⟩⟩, ⟨⟨⟨1⟩, .terminal ⟨1⟩⟩, ⟨3⟩⟩,
          ⟨⟨⟨2⟩, .terminal ⟨0⟩⟩, ⟨5⟩⟩] ∧
      (table .firstWins).conflicts.map Conflict.claim =
        [⟨⟨⟨1⟩, .terminal ⟨0⟩⟩, ⟨3⟩⟩, ⟨⟨⟨1⟩, .terminal ⟨0⟩⟩, ⟨3⟩⟩,
          ⟨⟨⟨1⟩, .terminal ⟨1⟩⟩, ⟨3⟩⟩, ⟨⟨⟨2⟩, .terminal ⟨0⟩⟩, ⟨5⟩⟩] ∧
      (∀ production ∈ Grammar.doubleSweep.productions, ∀ left right,
        production.ClaimsByFirst first left → production.ClaimsByFollow first follow right →
        (production.claimOn left).Disputed (Grammar.doubleSweep.claims first follow) →
        (production.claimOn right).Disputed (Grammar.doubleSweep.claims first follow) →
        ¬ production.ClaimsByFirst first right → left.Precedes right) ∧
      ¬ (table .firstWins).conflicts.Pairwise Conflict.Precedes := by
  obtain ⟨nullable, first, follow, hpolicies⟩ :=
    conflicts_ascending_iff Grammar.finished_doubleSweep
  choose table hanalysis _ _ _ hascending using hpolicies
  have hlast : (ofGrammar? .doubleSweep .lastWins).map (·.table.conflicts) =
      some [⟨⟨1⟩, .terminal ⟨0⟩, ⟨1⟩, ⟨3⟩⟩, ⟨⟨1⟩, .terminal ⟨1⟩, ⟨2⟩, ⟨3⟩⟩,
        ⟨⟨2⟩, .terminal ⟨0⟩, ⟨4⟩, ⟨5⟩⟩] := by
    decide +kernel
  have hfirst : (ofGrammar? .doubleSweep .firstWins).map (·.table.conflicts) =
      some [⟨⟨1⟩, .terminal ⟨0⟩, ⟨3⟩, ⟨1⟩⟩, ⟨⟨1⟩, .terminal ⟨0⟩, ⟨3⟩, ⟨1⟩⟩,
        ⟨⟨1⟩, .terminal ⟨1⟩, ⟨3⟩, ⟨2⟩⟩, ⟨⟨2⟩, .terminal ⟨0⟩, ⟨5⟩, ⟨4⟩⟩] := by
    decide +kernel
  rw [hanalysis, Option.map_some, Option.some.injEq] at hlast hfirst
  refine ⟨Grammar.finished_doubleSweep, nullable, first, follow, table, hanalysis, ?_, ?_, ?_, ?_⟩
  · rw [hlast]
    decide
  · rw [hfirst]
    decide
  · intro production hmem left right hleft hright hdisputed hrival hnew
    refine (hascending .lastWins).mp ?_ production hmem left right hleft hright hdisputed hrival
      fun _ => hnew
    rw [hlast]
    decide
  · rw [hfirst]
    decide

/-- The conflicts of A under a and b are in the order of the sweeps, not of the lookaheads, and
if the first claim wins, the one under b is there twice. -/
theorem conflicts_not_ascending_repeatedClaim :
    Grammar.repeatedClaim.Finished ∧ ∀ policy, ∃ analysis,
      ofGrammar? .repeatedClaim policy = some analysis ∧
      ¬ analysis.table.conflicts.Pairwise Conflict.Precedes := by
  refine ⟨Grammar.finished_repeatedClaim, fun policy => ?_⟩
  obtain ⟨analysis, hanalysis, hconflicts⟩ :=
    Option.map_eq_some_iff.mp (conflicts_repeatedClaim policy)
  refine ⟨analysis, hanalysis, ?_⟩
  rw [hconflicts]
  cases policy <;> decide

end Analysis

end Predictive
