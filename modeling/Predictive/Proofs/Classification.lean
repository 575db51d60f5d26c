import Predictive.Proofs.Claimants

/-!
Classification is exact: a nonterminal is context-free exactly if a chain of mentions in
right-hand sides leads from it to a nonterminal whose row has a conflict.  So what an
LL(1) nonterminal mentions is LL(1), and its row has no conflict.  The classes are the same
under both policies, since the rows with conflicts are.
-/

namespace Predictive

namespace Grammar

/-- A right-hand side of the outer nonterminal mentions the inner one. -/
def Mentions (grammar : Grammar) (outer inner : NonTerminal) : Prop :=
  ∃ production ∈ grammar.productions,
    production.lhs = outer ∧ .nonterminal inner ∈ production.rhs

/-- Mentions lead from the nonterminal to one whose row has a conflict. -/
def Tainted (grammar : Grammar) (conflicts : List Conflict) (n : NonTerminal) : Prop :=
  ∃ conflict ∈ conflicts, Relation.ReflTransGen grammar.Mentions n conflict.nonterminal

variable {grammar : Grammar} {conflicts : List Conflict} {outer inner : NonTerminal}

theorem Tainted.of_mentions (hmentions : grammar.Mentions outer inner)
    (htainted : grammar.Tainted conflicts inner) : grammar.Tainted conflicts outer := by
  obtain ⟨conflict, hmem, hchain⟩ := htainted
  exact ⟨conflict, hmem, hchain.head hmentions⟩

/-- Only the rows of the conflicts count. -/
theorem tainted_iff_of_rows {others : List Conflict}
    (hrows : ∀ row, (∃ conflict ∈ conflicts, conflict.nonterminal = row) ↔
      ∃ conflict ∈ others, conflict.nonterminal = row) (n : NonTerminal) :
    grammar.Tainted conflicts n ↔ grammar.Tainted others n := by
  have hchain : ∀ list, grammar.Tainted list n ↔ ∃ row,
      (∃ conflict ∈ list, conflict.nonterminal = row) ∧
        Relation.ReflTransGen grammar.Mentions n row := by
    intro list
    simp [Tainted]
  simp only [hchain, hrows]

theorem pairwise_nonterminals (hlt : grammar.numNonterminals < 2 ^ 32) :
    grammar.nonterminals.Pairwise fun left right => compare left right = .lt := by
  refine List.pairwise_map.mpr (List.pairwise_lt_range.imp_of_mem ?_)
  intro left right hleft hright hless
  apply Nat.compare_eq_lt.mpr
  rwa [NonTerminal.index_ofIndex ((List.mem_range.mp hleft).trans hlt),
    NonTerminal.index_ofIndex ((List.mem_range.mp hright).trans hlt)]

end Grammar

/-- What a scan for a marked nonterminal finds. -/
theorem Marks.mentioned?_eq {marks : Marks} {symbols : List Symbol}
    (hsymbols : ∀ n, .nonterminal n ∈ symbols → n.index < marks.size) :
    ∃ found, marks.mentioned? symbols = some found ∧
      (found = true ↔ ∃ n, .nonterminal n ∈ symbols ∧ n ∈ marks.members) := by
  induction symbols with
  | nil => exact ⟨false, rfl, by simp⟩
  | cons symbol rest ih =>
      obtain ⟨found, hfound, hiff⟩ := ih fun n hn => hsymbols n (List.mem_cons_of_mem _ hn)
      cases symbol with
      | nonterminal n =>
          obtain ⟨marked, hmarked⟩ := exists_has? (hsymbols n List.mem_cons_self)
          have hsplit : (∃ m, .nonterminal m ∈ Symbol.nonterminal n :: rest ∧
                m ∈ marks.members) ↔
              n ∈ marks.members ∨ ∃ m, .nonterminal m ∈ rest ∧ m ∈ marks.members := by
            simp [or_and_right, exists_or]
          rw [hsplit]
          cases marked with
          | true =>
              exact ⟨true, by simp [mentioned?, hmarked], fun _ => Or.inl hmarked, fun _ => rfl⟩
          | false =>
              have hn : n ∉ marks.members := by simp [members, hmarked]
              exact ⟨found, by simp [mentioned?, hmarked, hfound], by simp [hiff, hn]⟩
      | terminal t => exact ⟨found, hfound, by simp [hiff]⟩
      | epsilon => exact ⟨found, hfound, by simp [hiff]⟩
      | endMarker => exact ⟨found, hfound, by simp [hiff]⟩

namespace Classification

variable {grammar : Grammar} {conflicts : List Conflict}

/-- Classification as a propagation of marks: a nonterminal is marked when one of its
right-hand sides mentions a marked one. -/
def rules : Propagation Marks Production Unit where
  holds marks _ := marks.members
  target production := production.lhs
  premise production _ set := ∃ n, .nonterminal n ∈ production.rhs ∧ n ∈ set
  premise_mono hsubset hpremise := by
    obtain ⟨n, hn, hmem⟩ := hpremise
    exact ⟨n, hn, hsubset hmem⟩

theorem governs (hwell : grammar.WellFormed) :
    rules.Governs (fun marks => marks.size = grammar.numNonterminals)
      grammar.productions visit? := by
  apply Marks.governs (fun _ _ => rfl) hwell.declares_lhs fun _ _ => rfl
  intro marks production hsize hmem
  apply Marks.mentioned?_eq
  intro n hn
  exact hsize ▸ hwell.declares_rhs production hmem n hn

/-- The nonterminals whose rows have conflicts are marked first. -/
theorem foldlM_markConflict?_eq {marks : Marks}
    (hconflicts : ∀ conflict ∈ conflicts, conflict.nonterminal.index < marks.size) :
    ∃ next, conflicts.foldlM markConflict? marks = some next ∧ next.size = marks.size ∧
      next.members = { n | n ∈ marks.members ∨
        ∃ conflict ∈ conflicts, conflict.nonterminal = n } := by
  induction conflicts generalizing marks with
  | nil => exact ⟨marks, rfl, rfl, by simp⟩
  | cons conflict rest ih =>
      obtain ⟨hrow, hrest⟩ := List.forall_mem_cons.mp hconflicts
      obtain ⟨marked, hmarked⟩ := Marks.exists_has? hrow
      obtain ⟨next, hnext, hsize, hmembers⟩ := @ih (marks.mark conflict.nonterminal)
        (by simpa using hrest)
      refine ⟨next, by simpa [markConflict?, hmarked] using hnext, by simpa using hsize, ?_⟩
      rw [hmembers, Marks.members_mark hrow]
      ext n
      simp only [Set.mem_ofPred_eq, List.mem_cons, exists_eq_or_imp, or_assoc, @eq_comm _ n]

theorem isLeast_tainted (grammar : Grammar) (conflicts : List Conflict) :
    IsLeast { set | { n | ∃ conflict ∈ conflicts, conflict.nonterminal = n } ⊆ set ∧
        rules.Closed grammar.productions () set }
      { n | grammar.Tainted conflicts n } := by
  refine ⟨⟨?_, ?_⟩, ?_⟩
  · rintro n ⟨conflict, hmem, rfl⟩
    exact ⟨conflict, hmem, Relation.ReflTransGen.refl⟩
  · rintro production hmem ⟨n, hn, htainted⟩
    exact Grammar.Tainted.of_mentions ⟨production, hmem, rfl, hn⟩ htainted
  · rintro set ⟨hrows, hclosed⟩ n ⟨conflict, hmem, hchain⟩
    induction hchain using Relation.ReflTransGen.head_induction_on with
    | refl => exact hrows ⟨conflict, hmem, rfl⟩
    | head hmentions _ ih =>
        obtain ⟨production, hproduction, rfl, hinner⟩ := hmentions
        exact hclosed production hproduction ⟨_, hinner, ih⟩

/-- The passes end with the tainted nonterminals marked. -/
theorem saturation?_eq (hwell : grammar.WellFormed)
    (hconflicts : ∀ conflict ∈ conflicts,
      grammar.Declares (.nonterminal conflict.nonterminal)) :
    ∃ result, saturation? grammar conflicts = some result ∧
      result.Complete ∧ result.passes ≤ grammar.numNonterminals + 1 ∧
      result.state.size = grammar.numNonterminals ∧
      result.state.members = { n | grammar.Tainted conflicts n } := by
  have hblank : (Marks.blank grammar.numNonterminals).size = grammar.numNonterminals := by
    simp [Marks.blank, Marks.size]
  obtain ⟨first, hfirst, hsize, hmembers⟩ :=
    @foldlM_markConflict?_eq conflicts (.blank grammar.numNonterminals)
      (by rw [hblank]; exact hconflicts)
  simp only [Marks.members_blank, Set.mem_empty_iff_false, false_or] at hmembers
  have hbelow : ∀ key, Propagation.Below grammar.numNonterminals (rules.holds first key) := by
    rintro key n hn
    change n ∈ first.members at hn
    rw [hmembers] at hn
    obtain ⟨conflict, hmem, rfl⟩ := hn
    exact hconflicts conflict hmem
  obtain ⟨result, hresult, hfinal, _, hpasses, hcomplete, hleast⟩ :=
    (governs hwell).saturate_isLeast hwell.declares_lhs (hsize.trans hblank) hbelow
      (Nat.lt_succ_of_le hwell.numNonterminals_le)
  have hholds := hleast ()
  change IsLeast { set | first.members ⊆ set ∧ _ } result.state.members at hholds
  rw [hmembers] at hholds
  exact ⟨result, by simp [saturation?, hfirst, hresult], hcomplete, hpasses, hfinal,
    hholds.unique (isLeast_tainted grammar conflicts)⟩

theorem mapM_classOf? {marks : Marks} {names : List NonTerminal}
    (hnames : ∀ n ∈ names, n.index < marks.size) :
    names.mapM (classOf? marks) = some (names.map fun n =>
      (n, if marks.has? n = some true then .contextFree else .ll1)) := by
  apply mapM_eq_some_map
  intro n hn
  obtain ⟨marked, hmarked⟩ := Marks.exists_has? (hnames n hn)
  simp [classOf?, hmarked]

open Classical in
/-- The class of a nonterminal that the conflicts call for. -/
noncomputable def classByTaint (grammar : Grammar) (conflicts : List Conflict)
    (n : NonTerminal) : NonTerminalClass :=
  if grammar.Tainted conflicts n then .contextFree else .ll1

theorem classByTaint_eq_iff {n : NonTerminal} :
    classByTaint grammar conflicts n = .contextFree ↔ grammar.Tainted conflicts n := by
  unfold classByTaint
  split <;> simp_all

theorem classByTaint_eq {n : NonTerminal} {found : NonTerminalClass}
    (hfound : found = .contextFree ↔ grammar.Tainted conflicts n) :
    found = classByTaint grammar conflicts n := by
  rw [← classByTaint_eq_iff] at hfound
  cases found <;> cases hclass : classByTaint grammar conflicts n <;> simp_all

/-- The classification that the conflicts call for. -/
noncomputable def ofTainted (grammar : Grammar) (conflicts : List Conflict) :
    Classification :=
  ⟨.ofList (grammar.nonterminals.map fun n => (n, classByTaint grammar conflicts n))⟩

theorem ofTainted_eq_of_rows {others : List Conflict}
    (hrows : ∀ row, (∃ conflict ∈ conflicts, conflict.nonterminal = row) ↔
      ∃ conflict ∈ others, conflict.nonterminal = row) :
    ofTainted grammar conflicts = ofTainted grammar others := by
  have hclasses : ∀ n, classByTaint grammar conflicts n = classByTaint grammar others n :=
    fun n => classByTaint_eq (classByTaint_eq_iff.trans (Grammar.tainted_iff_of_rows hrows n))
  simp only [ofTainted, hclasses]

theorem ofTable?_eq (hwell : grammar.WellFormed) {table : Table}
    (hconflicts : ∀ conflict ∈ table.conflicts,
      grammar.Declares (.nonterminal conflict.nonterminal)) :
    ofTable? grammar table = some (ofTainted grammar table.conflicts) := by
  obtain ⟨result, hresult, _, _, hsize, hmembers⟩ := saturation?_eq hwell hconflicts
  have hnames : ∀ n ∈ grammar.nonterminals, n.index < result.state.size := by
    intro n hn
    obtain ⟨index, hindex, rfl⟩ := List.mem_map.mp hn
    have hlt := List.mem_range.mp hindex
    rwa [hsize, NonTerminal.index_ofIndex (hlt.trans hwell.numNonterminals_lt)]
  have hmarked : ∀ n, result.state.has? n = some true ↔
      grammar.Tainted table.conflicts n := by
    intro n
    change n ∈ result.state.members ↔ _
    rw [hmembers, Set.mem_ofPred_eq]
  have hclasses : ∀ n, (if result.state.has? n = some true then .contextFree else .ll1) =
      classByTaint grammar table.conflicts n := by
    intro n
    apply classByTaint_eq
    rw [← hmarked n]
    split <;> simp_all
  simp [ofTable?, hresult, mapM_classOf? hnames, ofTainted, hclasses]

/-- Every nonterminal of the grammar has one entry. -/
theorem keys_ofTainted (hlt : grammar.numNonterminals < 2 ^ 32) :
    (ofTainted grammar conflicts).classes.keys = grammar.nonterminals := by
  have hless : ∀ {left right : NonTerminal},
      compare left right = .lt → left.index < right.index := Nat.compare_eq_lt.mp
  have hnodup : ∀ {names : List NonTerminal},
      names.Pairwise (fun left right => compare left right = .lt) → names.Nodup :=
    fun hpairwise => hpairwise.imp fun hcompare heq =>
      Nat.ne_of_lt (hless hcompare) (congrArg NonTerminal.index heq)
  have hkeys := (ofTainted grammar conflicts).classes.ordered_keys
  have hnames := Grammar.pairwise_nonterminals hlt
  apply List.Perm.eq_of_pairwise _ hkeys hnames
  · apply (List.perm_ext_iff_of_nodup (hnodup hkeys) (hnodup hnames)).mpr
    intro n
    rw [Std.ExtTreeMap.mem_keys]
    simp [ofTainted, Function.comp_def]
  · intro left right _ _ hcompare hback
    exact absurd (hless hback) (Nat.lt_asymm (hless hcompare))

theorem class?_ofTainted (hlt : grammar.numNonterminals < 2 ^ 32) {n : NonTerminal}
    (hn : grammar.Declares (.nonterminal n)) :
    ∃ found, (ofTainted grammar conflicts).class? n = some found ∧
      (found = .contextFree ↔ grammar.Tainted conflicts n) := by
  refine ⟨classByTaint grammar conflicts n, ?_, classByTaint_eq_iff⟩
  · apply Std.ExtTreeMap.getElem?_ofList_of_mem Std.ReflCmp.compare_self
    · rw [List.pairwise_map]
      refine (Grammar.pairwise_nonterminals hlt).imp ?_
      intro left right hless heq
      rw [hless] at heq
      cases heq
    · exact List.mem_map.mpr ⟨n, Grammar.mem_nonterminals hn, rfl⟩

/-- Every nonterminal of the grammar has a class, and it is context-free exactly if the
nonterminal is tainted. -/
theorem ofTable?_exact (hwell : grammar.WellFormed) {table : Table}
    (hconflicts : ∀ conflict ∈ table.conflicts,
      grammar.Declares (.nonterminal conflict.nonterminal)) :
    ∃ classification, ofTable? grammar table = some classification ∧
      ∀ n, grammar.Declares (.nonterminal n) → ∃ found, classification.class? n = some found ∧
        (found = .contextFree ↔ grammar.Tainted table.conflicts n) :=
  ⟨_, ofTable?_eq hwell hconflicts, fun _ hn => class?_ofTainted hwell.numNonterminals_lt hn⟩

end Classification

namespace Grammar

/-- Only C has a conflict; A and B mention each other, and B mentions C; D stands apart. -/
def chainToConflictRules : Draft := .ofRules
  [("S", [["A", "e"], ["D"]]), ("A", [["f", "B"]]), ("B", [["g", "A"], ["C"]]),
    ("C", [["c"], ["c", "d"]]), ("D", [["h", "D"], []])]

def chainToConflict : Grammar := chainToConflictRules.resolve "S"

theorem finished_chainToConflict : chainToConflict.Finished where
  finish_eq := ⟨chainToConflictRules, "S", by decide +kernel⟩
  productions_lt := by decide +kernel
  nonterminals_lt := by decide +kernel
  terminals_lt := by decide +kernel

end Grammar

namespace Analysis

variable {grammar : Grammar}

/-- Under both policies the passes end by themselves and lead to one classification, with one
entry for every nonterminal.  A nonterminal is context-free exactly if mentions lead from it to
one whose row has a conflict. -/
theorem classification?_eq_tainted (hfinished : grammar.Finished) :
    ∃ classification : Classification, classification.classes.keys = grammar.nonterminals ∧
      ∀ policy, ∃ analysis saturation, ofGrammar? grammar policy = some analysis ∧
        Classification.saturation? grammar analysis.table.conflicts = some saturation ∧
        saturation.Complete ∧ saturation.passes ≤ grammar.numNonterminals + 1 ∧
        analysis.classification? = some classification ∧
        ∀ n, grammar.Declares (.nonterminal n) →
          ∃ found, classification.class? n = some found ∧
            (found = .contextFree ↔ ∃ conflict ∈ analysis.table.conflicts,
              Relation.ReflTransGen grammar.Mentions n conflict.nonterminal) := by
  have hwell := hfinished.wellFormed
  have hlt := hwell.numNonterminals_lt
  obtain ⟨nullable, first, follow, hclaimed, hanalysis⟩ := exists_tables hfinished
  have horder := @Table.inOrder_claims grammar first follow hfinished
  generalize grammar.claims first follow = claims
    at hclaimed hanalysis horder
  have hdeclared : ∀ policy, ∀ conflict ∈ (claims.foldl Table.claim (.empty policy)).conflicts,
      grammar.Declares (.nonterminal conflict.nonterminal) :=
    fun _ _ hmem => hclaimed.declares_conflict hwell hmem
  have hsame : ∀ policy,
      Classification.ofTainted grammar
          (claims.foldl Table.claim (.empty policy)).conflicts =
        Classification.ofTainted grammar
          (claims.foldl Table.claim (.empty .lastWins)).conflicts :=
    fun policy => Classification.ofTainted_eq_of_rows
      (Table.rows_iff_of_policy horder policy .lastWins)
  refine ⟨Classification.ofTainted grammar
    (claims.foldl Table.claim (.empty .lastWins)).conflicts,
    Classification.keys_ofTainted hlt, fun policy => ?_⟩
  obtain ⟨saturation, hsaturation, hcomplete, hpasses, _⟩ :=
    Classification.saturation?_eq hwell (hdeclared policy)
  refine ⟨_, saturation, hanalysis policy, hsaturation, hcomplete, hpasses, ?_, ?_⟩
  · rw [← hsame policy]
    exact Classification.ofTable?_eq hwell (hdeclared policy)
  · intro n hn
    rw [← hsame policy]
    exact Classification.class?_ofTainted hlt hn

/-- The conflict of C reaches S by way of A and B, which mention each other, but not D. -/
theorem classification?_eq_tainted_chainToConflict :
    Grammar.chainToConflict.Finished ∧
    ∀ policy, ∃ analysis classification,
      ofGrammar? .chainToConflict policy = some analysis ∧
      analysis.classification? = some classification ∧
      classification.classes.toList = [(⟨0⟩, .contextFree), (⟨1⟩, .contextFree),
        (⟨2⟩, .contextFree), (⟨3⟩, .contextFree), (⟨4⟩, .ll1)] ∧
      (∃ conflict ∈ analysis.table.conflicts,
        Relation.ReflTransGen Grammar.chainToConflict.Mentions ⟨0⟩ conflict.nonterminal) ∧
      ¬ ∃ conflict ∈ analysis.table.conflicts,
        Relation.ReflTransGen Grammar.chainToConflict.Mentions ⟨4⟩ conflict.nonterminal := by
  obtain ⟨classification, _, hpolicies⟩ :=
    classification?_eq_tainted Grammar.finished_chainToConflict
  refine ⟨Grammar.finished_chainToConflict, fun policy => ?_⟩
  obtain ⟨analysis, _, hanalysis, _, _, _, hclassification, hclasses⟩ := hpolicies policy
  have hlist : ((ofGrammar? .chainToConflict policy).bind fun known =>
      known.classification?.map (·.classes.toList)) =
      some [(⟨0⟩, .contextFree), (⟨1⟩, .contextFree), (⟨2⟩, .contextFree),
        (⟨3⟩, .contextFree), (⟨4⟩, .ll1)] := by
    cases policy with
    | lastWins => decide +kernel
    | firstWins => decide +kernel
  rw [hanalysis, Option.bind_some, hclassification, Option.map_some, Option.some.injEq]
    at hlist
  have hnumber : Grammar.chainToConflict.numNonterminals = 5 := by decide +kernel
  have hclass : ∀ n found, (n, found) ∈ classification.classes.toList → n.index < 5 →
      (found = .contextFree ↔ ∃ conflict ∈ analysis.table.conflicts,
        Relation.ReflTransGen Grammar.chainToConflict.Mentions n conflict.nonterminal) := by
    intro n found hentry hn
    obtain ⟨other, hother, htainted⟩ := hclasses n (by
      change n.index < Grammar.chainToConflict.numNonterminals
      rwa [hnumber])
    rw [Std.ExtTreeMap.mem_toList_iff_getElem?_eq_some] at hentry
    obtain rfl := Option.some.inj (hentry.symm.trans hother)
    exact htainted
  refine ⟨analysis, classification, hanalysis, hclassification, hlist, ?_, ?_⟩
  · exact (hclass ⟨0⟩ .contextFree (by simp [hlist]) (by decide)).mp rfl
  · rw [← hclass ⟨4⟩ .ll1 (by simp [hlist]) (by decide)]
    exact NonTerminalClass.noConfusion

end Analysis

end Predictive
