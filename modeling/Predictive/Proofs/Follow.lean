import Predictive.Follow
import Predictive.Proofs.First

/-!
FOLLOW sets are exact: a lookahead is in FOLLOW of a nonterminal exactly if it can
come right after it.
-/

namespace Predictive

variable {grammar : Grammar}

theorem mem_occurrencesIn {lhs : NonTerminal} {symbols : List Symbol}
    {occurrence : Occurrence} :
    occurrence ∈ occurrencesIn lhs symbols ↔ occurrence.lhs = lhs ∧
      ∃ before, symbols = before ++ .nonterminal occurrence.nonterminal :: occurrence.rest := by
  induction symbols with
  | nil => simp [occurrencesIn]
  | cons symbol rest ih =>
      have hsplit : (∃ before, symbol :: rest =
            before ++ .nonterminal occurrence.nonterminal :: occurrence.rest) ↔
          (symbol = .nonterminal occurrence.nonterminal ∧ rest = occurrence.rest) ∨
            ∃ before, rest =
              before ++ .nonterminal occurrence.nonterminal :: occurrence.rest := by
        constructor
        · rintro ⟨before, hbefore⟩
          cases before with
          | nil => exact Or.inl (List.cons.inj hbefore)
          | cons _ before => exact Or.inr ⟨before, (List.cons.inj hbefore).2⟩
        · rintro (⟨rfl, rfl⟩ | ⟨before, rfl⟩)
          · exact ⟨[], rfl⟩
          · exact ⟨symbol :: before, rfl⟩
      rw [hsplit]
      cases symbol with
      | nonterminal n =>
          simp only [occurrencesIn, List.mem_cons, ih, Symbol.nonterminal.injEq]
          constructor
          · rintro (rfl | ⟨hlhs, hlater⟩)
            · exact ⟨rfl, Or.inl ⟨rfl, rfl⟩⟩
            · exact ⟨hlhs, Or.inr hlater⟩
          · rintro ⟨rfl, ⟨rfl, rfl⟩ | hlater⟩
            · exact Or.inl rfl
            · exact Or.inr ⟨rfl, hlater⟩
      | terminal t => simp [occurrencesIn, ih]
      | epsilon => simp [occurrencesIn, ih]
      | endMarker => simp [occurrencesIn, ih]

theorem Grammar.mem_occurrences {occurrence : Occurrence} :
    occurrence ∈ grammar.occurrences ↔
      ∃ production ∈ grammar.productions, occurrence.lhs = production.lhs ∧
        ∃ before, production.symbols =
          before ++ .nonterminal occurrence.nonterminal :: occurrence.rest := by
  simp only [Grammar.occurrences, List.mem_flatMap, mem_occurrencesIn]

theorem mem_lookaheads {terminals : Std.ExtTreeSet Terminal} {lookahead : Lookahead} :
    lookahead ∈ lookaheads terminals ↔ ∃ t, lookahead = .terminal t ∧ t ∈ terminals := by
  simp only [lookaheads, Std.ExtTreeSet.mem_ofList, List.contains_iff_mem, List.mem_map,
    Std.ExtTreeSet.mem_toList]
  constructor
  · rintro ⟨t, ht, rfl⟩
    exact ⟨t, rfl, ht⟩
  · rintro ⟨t, rfl, ht⟩
    exact ⟨t, ht, rfl⟩

namespace Grammar

theorem eraseEpsilon_eq {symbols : List Symbol}
    (hsymbols : ∀ symbol ∈ symbols, grammar.Declares symbol) :
    eraseEpsilon symbols = symbols := by
  rw [eraseEpsilon, List.filter_eq_self]
  intro symbol hsymbol
  have hdeclared := hsymbols symbol hsymbol
  cases symbol with
  | epsilon => exact hdeclared.elim
  | terminal t => rfl
  | nonterminal n => rfl
  | endMarker => rfl

/-- What symbols of the grammar begin with is one of them. -/
theorem WellFormed.declares_of_begins (hwell : grammar.WellFormed) {lookahead : Lookahead}
    {symbols : List Symbol} (hsymbols : ∀ symbol ∈ symbols, grammar.Declares symbol)
    (hbegins : grammar.Begins lookahead symbols) : grammar.Declares lookahead.symbol := by
  obtain ⟨depth, hleads⟩ := hbegins
  induction hleads with
  | symbol hsymbol rest => exact hsymbol ▸ hsymbols _ List.mem_cons_self
  | expand hmem _ _ ih => exact ih (hwell.declares_symbols _ hmem)
  | skip _ _ ih => exact ih fun other hother => hsymbols other (List.mem_cons_of_mem _ hother)

/-- The end of input begins nothing that the grammar's own symbols derive. -/
theorem WellFormed.not_begins_endMarker (hwell : grammar.WellFormed) {symbols : List Symbol}
    (hsymbols : ∀ symbol ∈ symbols, grammar.Declares symbol) :
    ¬ grammar.Begins .endMarker symbols :=
  hwell.declares_of_begins hsymbols

/-- The rest of a right-hand side consists of the grammar's symbols. -/
theorem WellFormed.declares_rest (hwell : grammar.WellFormed) {occurrence : Occurrence}
    (hmem : occurrence ∈ grammar.occurrences) :
    ∀ symbol ∈ occurrence.rest, grammar.Declares symbol := by
  obtain ⟨production, hproduction, _, before, hsplit⟩ := mem_occurrences.mp hmem
  intro symbol hsymbol
  apply hwell.declares_symbols production hproduction
  rw [hsplit]
  exact List.mem_append_right before (List.mem_cons_of_mem _ hsymbol)

theorem WellFormed.declares_occurrence (hwell : grammar.WellFormed) {occurrence : Occurrence}
    (hmem : occurrence ∈ grammar.occurrences) :
    grammar.Declares (.nonterminal occurrence.nonterminal) ∧
      grammar.Declares (.nonterminal occurrence.lhs) := by
  obtain ⟨production, hproduction, hlhs, before, hsplit⟩ := mem_occurrences.mp hmem
  constructor
  · apply hwell.declares_symbols production hproduction
    rw [hsplit]
    exact List.mem_append_right before List.mem_cons_self
  · rw [hlhs]
    exact hwell.declares_lhs production hproduction

end Grammar

namespace FollowSets

/-- FOLLOW as a propagation along the occurrences. -/
def rules (grammar : Grammar) : Propagation LookaheadSets Occurrence Lookahead where
  holds := Family.owners
  target occurrence := occurrence.nonterminal
  premise occurrence lookahead set :=
    grammar.Begins lookahead occurrence.rest ∨
      grammar.Erasable occurrence.rest ∧ occurrence.lhs ∈ set
  premise_mono hsubset hpremise :=
    hpremise.imp_right fun hboth => ⟨hboth.1, hsubset hboth.2⟩

theorem gained?_eq (hwell : grammar.WellFormed) {first : FirstSets}
    (hfirst : first.Exact grammar) {sets : LookaheadSets} {occurrence : Occurrence}
    (hmem : occurrence ∈ grammar.occurrences) (hlhs : occurrence.lhs ∈ sets) :
    ∃ gained, gained? first sets occurrence = some gained ∧
      ∀ lookahead, lookahead ∈ gained ↔
        (rules grammar).premise occurrence lookahead (Family.owners sets lookahead) := by
  have hrest := hwell.declares_rest hmem
  obtain ⟨rest, hsequence, hterminals, hempty⟩ :=
    hfirst.ofSequence? fun n hn => hrest _ hn
  rw [Grammar.eraseEpsilon_eq hrest] at hterminals hempty
  have hbegins : ∀ lookahead, lookahead ∈ lookaheads rest.terminals ↔
      grammar.Begins lookahead occurrence.rest := by
    intro lookahead
    rw [mem_lookaheads]
    cases lookahead with
    | terminal t => simp [hterminals]
    | endMarker => simpa using hwell.not_begins_endMarker hrest
  by_cases herasable : grammar.Erasable occurrence.rest
  · obtain ⟨inherited, hinherited, howner⟩ := Family.exists_getElem? hlhs
    refine ⟨lookaheads rest.terminals ∪ inherited, ?_, ?_⟩
    · simp [gained?, hsequence, hempty.mpr herasable, hinherited]
    · intro lookahead
      rw [Std.ExtTreeSet.mem_union_iff, hbegins, howner]
      exact or_congr_right ⟨fun hn => ⟨herasable, hn⟩, fun hboth => hboth.2⟩
  · have hnot : rest.nullable = false := by
      rw [← Bool.not_eq_true, hempty]
      exact herasable
    refine ⟨lookaheads rest.terminals, by simp [gained?, hsequence, hnot], ?_⟩
    intro lookahead
    rw [hbegins]
    exact ⟨Or.inl, fun hpremise => hpremise.resolve_right fun hboth => herasable hboth.1⟩

theorem governs (hwell : grammar.WellFormed) {first : FirstSets}
    (hfirst : first.Exact grammar) :
    (rules grammar).Governs
      (fun sets => ∀ n : NonTerminal, n.index < grammar.numNonterminals → n ∈ sets)
      grammar.occurrences (visit? first) := by
  apply Family.governs rfl
  intro sets occurrence hentries hmem
  have hlhs := hentries _ (hwell.declares_occurrence hmem).2
  obtain ⟨gained, hgained, hpremise⟩ := gained?_eq hwell hfirst hmem hlhs
  refine ⟨gained, ?_, hpremise⟩
  simp only [visit?, hgained]
  rfl

theorem owners_initial (grammar : Grammar) (lookahead : Lookahead) :
    Family.owners (initial grammar) lookahead =
      { n | lookahead = .endMarker ∧ n = grammar.start } := by
  ext n
  rw [initial, Family.owners_insert]
  by_cases heq : grammar.start = n
  · subst heq
    rw [Std.ExtTreeSet.singleton_eq_insert]
    simp only [Set.mem_ofPred_eq, ↓reduceIte, Std.ExtTreeSet.mem_insert,
      Std.compare_eq_iff_eq, Std.ExtTreeSet.not_mem_empty, or_false, and_true]
    exact eq_comm
  · have hblank : n ∉ Family.owners (.ofList (grammar.nonterminals.map
        (·, (∅ : Std.ExtTreeSet Lookahead)))) lookahead :=
      Family.not_mem_owners_ofList_empty grammar.nonterminals n lookahead
    have hne : n ≠ grammar.start := Ne.symm heq
    simp [heq, hne, hblank]

theorem isLeast_follows (grammar : Grammar) (lookahead : Lookahead) :
    IsLeast { set | Family.owners (initial grammar) lookahead ⊆ set ∧
        (rules grammar).Closed grammar.occurrences lookahead set }
      { n | grammar.Follows lookahead n } := by
  rw [owners_initial]
  refine ⟨⟨?_, ?_⟩, ?_⟩
  · rintro n ⟨hend, rfl⟩
    exact Grammar.Follows.start hend
  · rintro occurrence hmem hpremise
    obtain ⟨production, hproduction, hlhs, before, hsplit⟩ := Grammar.mem_occurrences.mp hmem
    rcases hpremise with hbegins | ⟨herasable, hfollows⟩
    · exact Grammar.Follows.first hproduction hsplit hbegins
    · exact Grammar.Follows.inherit hproduction hsplit herasable (hlhs ▸ hfollows)
  · rintro set ⟨hstart, hclosed⟩ n hn
    induction hn with
    | start hend => exact hstart ⟨hend, rfl⟩
    | @first production n before after hproduction hsplit hbegins =>
        apply hclosed ⟨production.lhs, n, after⟩
        · exact Grammar.mem_occurrences.mpr ⟨production, hproduction, rfl, before, hsplit⟩
        · exact Or.inl hbegins
    | @inherit production n before after hproduction hsplit herasable _ ih =>
        apply hclosed ⟨production.lhs, n, after⟩
        · exact Grammar.mem_occurrences.mpr ⟨production, hproduction, rfl, before, hsplit⟩
        · exact Or.inr ⟨herasable, ih⟩

/-- Every nonterminal has an entry, with the lookaheads that follow it. -/
structure Exact (follow : FollowSets) (grammar : Grammar) : Prop where
  mem_sets : ∀ n : NonTerminal, n.index < grammar.numNonterminals → n ∈ follow.sets
  owners_eq : ∀ lookahead, Family.owners follow.sets lookahead =
    { n | grammar.Follows lookahead n }

theorem Exact.follow? {follow : FollowSets} (hexact : follow.Exact grammar) {n : NonTerminal}
    (hn : grammar.Declares (.nonterminal n)) :
    ∃ set, follow.follow? n = some set ∧
      ∀ lookahead, lookahead ∈ set ↔ grammar.Follows lookahead n := by
  obtain ⟨set, hset, howner⟩ := Family.exists_getElem? (hexact.mem_sets n hn)
  refine ⟨set, hset, ?_⟩
  intro lookahead
  rw [howner, hexact.owners_eq, Set.mem_ofPred_eq]

/-- The passes end by themselves, with every set exact. -/
theorem saturation?_exact (hwell : grammar.WellFormed) {first : FirstSets}
    (hfirst : first.Exact grammar) :
    ∃ result, saturation? grammar first = some result ∧ result.Complete ∧
      1 ≤ result.passes ∧ result.passes ≤ grammar.numNonterminals + 1 ∧
      Exact ⟨result.state, result.passes⟩ grammar := by
  have hbelow : ∀ lookahead, Propagation.Below grammar.numNonterminals
      ((rules grammar).holds (initial grammar) lookahead) := by
    intro lookahead n hn
    change n ∈ Family.owners (initial grammar) lookahead at hn
    rw [owners_initial] at hn
    exact hn.2 ▸ hwell.declares_start
  have hbound : grammar.numNonterminals <
      (grammar.productions.length + grammar.rhsLength) * maxSize grammar first + 1 := by
    have hcount := hwell.numNonterminals_le
    apply Nat.lt_succ_of_le
    calc grammar.numNonterminals ≤ grammar.productions.length + grammar.rhsLength :=
          hcount.trans (Nat.le_add_right _ _)
      _ ≤ _ := Nat.le_mul_of_pos_right _ (Nat.succ_pos _)
  have hinitial : ∀ n : NonTerminal, n.index < grammar.numNonterminals →
      n ∈ initial grammar := by
    intro n hn
    apply Std.ExtTreeMap.mem_insert.mpr
    exact Or.inr (Family.mem_ofList_empty (Grammar.mem_nonterminals hn))
  obtain ⟨result, hresult, hentries, hpositive, hpasses, hcomplete, hleast⟩ :=
    (governs hwell hfirst).saturate_isLeast
      (fun occurrence hmem => (hwell.declares_occurrence hmem).1) hinitial hbelow hbound
  exact ⟨result, hresult, hcomplete, hpositive, hpasses, hentries,
    fun lookahead => (hleast lookahead).unique (isLeast_follows grammar lookahead)⟩

theorem ofGrammar?_exact (hwell : grammar.WellFormed) {first : FirstSets}
    (hfirst : first.Exact grammar) :
    ∃ follow, ofGrammar? grammar first = some follow ∧ follow.Exact grammar := by
  obtain ⟨result, hresult, _, _, _, hexact⟩ := saturation?_exact hwell hfirst
  exact ⟨⟨result.state, result.passes⟩, by simp [ofGrammar?, hresult], hexact⟩

end FollowSets

/-- The sets of a grammar, each computed from the ones before it, are exact. -/
theorem exists_exact_sets (hwell : grammar.WellFormed) :
    ∃ nullable first follow, Nullable.ofGrammar? grammar = some nullable ∧
      FirstSets.ofGrammar? grammar nullable = some first ∧
      FollowSets.ofGrammar? grammar first = some follow ∧
      nullable.Exact grammar ∧ first.Exact grammar ∧ follow.Exact grammar := by
  obtain ⟨nullable, hnullable, hexactNullable⟩ := Nullable.ofGrammar?_exact hwell
  obtain ⟨first, hfirst, hexactFirst⟩ := FirstSets.ofGrammar?_exact hwell hexactNullable
  obtain ⟨follow, hfollow, hexactFollow⟩ := FollowSets.ofGrammar?_exact hwell hexactFirst
  exact ⟨nullable, first, follow, hnullable, hfirst, hfollow, hexactNullable, hexactFirst,
    hexactFollow⟩

end Predictive
