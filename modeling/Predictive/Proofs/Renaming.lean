import Predictive.Proofs.Classification
import Predictive.Proofs.Naming
import Predictive.Proofs.Run

/-!
Spelling and history do not matter.  If two builders were given alternatives that correspond
name by name, then their grammars differ in no more than the names, however the calls were
grouped and whatever was interned when.  No phase of the analysis and no parse looks at names,
so their results are equal.
-/

namespace Predictive

/-- The alternative with other names. -/
def Alternative.rename (rename : String → String) (alternative : Alternative) :
    Alternative where
  lhs := rename alternative.lhs
  rhs := alternative.rhs.map rename

/-- A name that shares its new name with no other keeps its place. -/
theorem idxOf_map {rename : String → String} {names : List String} {name : String}
    (hrename : ∀ other ∈ names, rename other = rename name → other = name) :
    (names.map rename).idxOf (rename name) = names.idxOf name := by
  induction names with
  | nil => rfl
  | cons first rest ih =>
      have hrest := ih fun other hother => hrename other (List.mem_cons_of_mem _ hother)
      rw [List.map_cons, List.idxOf_cons, List.idxOf_cons, hrest]
      by_cases heq : first = name
      · rw [heq, beq_self_eq_true, beq_self_eq_true]
      · have hne : rename first ≠ rename name :=
          fun hsame => heq (hrename first List.mem_cons_self hsame)
        rw [beq_false_of_ne heq, beq_false_of_ne hne]

namespace Draft

variable {draft renamed : Draft} {rename : String → String}

/-- The alternatives of the two drafts correspond name by name, and different names stay
different. -/
structure Renames (rename : String → String) (draft renamed : Draft) : Prop where
  alternatives_eq : renamed.alternatives = draft.alternatives.map (·.rename rename)
  injOn : Set.InjOn rename (Alternative.namesIn draft.alternatives)

namespace Renames

variable (hrenames : Renames rename draft renamed)

include hrenames

theorem nonterminalNames_eq :
    renamed.nonterminalNames = draft.nonterminalNames.map rename := by
  have hlefts : renamed.alternatives.map (·.lhs) =
      (draft.alternatives.map (·.lhs)).map rename := by
    rw [hrenames.alternatives_eq, List.map_map, List.map_map]
    rfl
  rw [nonterminalNames, hlefts, distinctNames_map]
  · rfl
  · exact hrenames.injOn.mono fun name hname =>
      mem_namesIn_of_mem_nonterminalNames (mem_nonterminalNames_iff.mpr hname)

theorem mem_nonterminalNames_iff {name : String}
    (hname : name ∈ Alternative.namesIn draft.alternatives) :
    rename name ∈ renamed.nonterminalNames ↔ name ∈ draft.nonterminalNames := by
  rw [hrenames.nonterminalNames_eq, List.mem_map]
  constructor
  · rintro ⟨other, hother, hsame⟩
    obtain rfl := hrenames.injOn (mem_namesIn_of_mem_nonterminalNames hother) hname hsame
    exact hother
  · exact fun hmem => ⟨name, hmem, rfl⟩

theorem terminalNames_eq : renamed.terminalNames = draft.terminalNames.map rename := by
  have hrights : renamed.alternatives.flatMap (·.rhs) =
      (draft.alternatives.flatMap (·.rhs)).map rename := by
    rw [hrenames.alternatives_eq, List.flatMap_map, List.map_flatMap]
    rfl
  have hkept : (renamed.alternatives.flatMap (·.rhs)).filter
      (· ∉ renamed.nonterminalNames) =
        ((draft.alternatives.flatMap (·.rhs)).filter
          (· ∉ draft.nonterminalNames)).map rename := by
    rw [hrights, List.filter_map]
    congr 1
    apply List.filter_congr
    intro name hname
    obtain ⟨alternative, hmem, hrhs⟩ := List.mem_flatMap.mp hname
    have hiff := hrenames.mem_nonterminalNames_iff (Alternative.rhs_mem_namesIn hmem hrhs)
    simp only [Function.comp_apply, hiff]
  simp only [terminalNames, hkept]
  apply distinctNames_map
  apply hrenames.injOn.mono
  intro name hname
  obtain ⟨alternative, hmem, hrhs⟩ := List.mem_flatMap.mp (List.mem_filter.mp hname).1
  exact Alternative.rhs_mem_namesIn hmem hrhs

theorem idxOf_nonterminalNames {name : String}
    (hname : name ∈ Alternative.namesIn draft.alternatives) :
    renamed.nonterminalNames.idxOf (rename name) = draft.nonterminalNames.idxOf name := by
  rw [hrenames.nonterminalNames_eq]
  exact idxOf_map fun other hother =>
    hrenames.injOn (mem_namesIn_of_mem_nonterminalNames hother) hname

/-- A name and its new name stand for the same symbol. -/
theorem symbolOf_eq {name : String} (hname : name ∈ Alternative.namesIn draft.alternatives) :
    symbolOf renamed.nonterminalNames renamed.terminalNames (rename name) =
      symbolOf draft.nonterminalNames draft.terminalNames name := by
  have hterminal : renamed.terminalNames.idxOf (rename name) =
      draft.terminalNames.idxOf name := by
    rw [hrenames.terminalNames_eq]
    exact idxOf_map fun other hother =>
      hrenames.injOn (mem_namesIn_of_mem_terminalNames hother) hname
  simp only [symbolOf, hrenames.mem_nonterminalNames_iff hname,
    hrenames.idxOf_nonterminalNames hname, hterminal]

theorem production_eq {alternative : Alternative} (hmem : alternative ∈ draft.alternatives)
    (position : Nat) :
    production renamed.nonterminalNames renamed.terminalNames position
        (alternative.rename rename) =
      production draft.nonterminalNames draft.terminalNames position alternative := by
  have hlhs := hrenames.idxOf_nonterminalNames (Alternative.lhs_mem_namesIn hmem)
  have hrhs : (alternative.rhs.map rename).map
      (symbolOf renamed.nonterminalNames renamed.terminalNames) =
        alternative.rhs.map (symbolOf draft.nonterminalNames draft.terminalNames) := by
    rw [List.map_map]
    exact List.map_congr_left fun name hname =>
      hrenames.symbolOf_eq (Alternative.rhs_mem_namesIn hmem hname)
  simp only [Draft.production_eq, Alternative.rename, hlhs, hrhs, List.isEmpty_map]

theorem productions_eq (start other : String) :
    (renamed.resolve other).productions = (draft.resolve start).productions := by
  change renamed.alternatives.mapIdx _ = draft.alternatives.mapIdx _
  rw [hrenames.alternatives_eq]
  apply List.ext_getElem?
  intro position
  rw [List.getElem?_mapIdx, List.getElem?_mapIdx, List.getElem?_map]
  cases halternative : draft.alternatives[position]? with
  | none => rfl
  | some alternative =>
      have hmem := List.mem_of_getElem? halternative
      exact congrArg some (hrenames.production_eq hmem position)

end Renames

end Draft

namespace Grammar

variable {left right : Grammar}

/-- Grammars that differ in no more than the names of their symbols. -/
structure Alike (left right : Grammar) : Prop where
  productions : left.productions = right.productions
  start : left.start = right.start
  numNonterminals : left.numNonterminals = right.numNonterminals

theorem Alike.nonterminals_eq (halike : left.Alike right) :
    left.nonterminals = right.nonterminals := by
  rw [Grammar.nonterminals, Grammar.nonterminals, halike.numNonterminals]

theorem Alike.rhsLength_eq (halike : left.Alike right) : left.rhsLength = right.rhsLength := by
  rw [Grammar.rhsLength, Grammar.rhsLength, halike.productions]

theorem Alike.occurrences_eq (halike : left.Alike right) :
    left.occurrences = right.occurrences := by
  rw [Grammar.occurrences, Grammar.occurrences, halike.productions]

theorem Alike.nullable_eq (halike : left.Alike right) :
    Nullable.ofGrammar? left = Nullable.ofGrammar? right := by
  simp only [Nullable.ofGrammar?, Nullable.saturation?, halike.productions,
    halike.numNonterminals]

theorem Alike.first_eq (halike : left.Alike right) (nullable : Nullable) :
    FirstSets.ofGrammar? left nullable = FirstSets.ofGrammar? right nullable := by
  simp only [FirstSets.ofGrammar?, FirstSets.saturation?, FirstSets.initial,
    halike.productions, halike.rhsLength_eq, halike.nonterminals_eq]

theorem Alike.follow_eq (halike : left.Alike right) (first : FirstSets) :
    FollowSets.ofGrammar? left first = FollowSets.ofGrammar? right first := by
  simp only [FollowSets.ofGrammar?, FollowSets.saturation?, FollowSets.initial,
    FollowSets.maxSize, halike.productions, halike.rhsLength_eq, halike.nonterminals_eq,
    halike.occurrences_eq, halike.start]

theorem Alike.table_eq (halike : left.Alike right) (first : FirstSets) (follow : FollowSets)
    (policy : ConflictPolicy) :
    Table.ofGrammar? left first follow policy =
      Table.ofGrammar? right first follow policy := by
  simp only [Table.ofGrammar?, Table.claims?, halike.productions]

theorem Alike.classification_eq (halike : left.Alike right) (table : Table) :
    Classification.ofTable? left table = Classification.ofTable? right table := by
  simp only [Classification.ofTable?, Classification.saturation?, halike.productions,
    halike.numNonterminals, halike.nonterminals_eq]

/-- The analyses differ in the grammar only. -/
theorem Alike.analysis_eq (halike : left.Alike right) (policy : ConflictPolicy) :
    Analysis.ofGrammar? right policy =
      (Analysis.ofGrammar? left policy).map ({ · with grammar := right }) := by
  simp only [Analysis.ofGrammar?, halike.nullable_eq, halike.first_eq, halike.follow_eq,
    halike.table_eq,
    Option.bind_eq_bind, Option.map_bind, Option.pure_def, Function.comp_def, Option.map_some]

theorem Alike.move?_eq (halike : left.Alike right) (table : Table) (limit : StepLimit)
    (input : List Lookahead) (configuration : Configuration) :
    (⟨left, table, limit⟩ : Parser).move? input configuration =
      (⟨right, table, limit⟩ : Parser).move? input configuration := by
  simp only [Parser.move?, Grammar.production?, halike.productions]

theorem Alike.run?_eq (halike : left.Alike right) (table : Table) (limit : StepLimit)
    (input : List Lookahead) (bound : Nat) (configuration : Configuration)
    (past : List Step) :
    (⟨left, table, limit⟩ : Parser).run? input bound configuration past =
      (⟨right, table, limit⟩ : Parser).run? input bound configuration past := by
  induction bound generalizing configuration past with
  | zero => rfl
  | succ bound ih => simp only [Parser.run?, halike.move?_eq, ih]

theorem Alike.parse?_eq (halike : left.Alike right) (table : Table) (limit : StepLimit)
    (terminals : List Terminal) :
    (⟨left, table, limit⟩ : Parser).parse? terminals =
      (⟨right, table, limit⟩ : Parser).parse? terminals := by
  simp only [Parser.parse?, Parser.maxSteps, Parser.initial, halike.productions,
    halike.start, halike.run?_eq]

end Grammar

/-- Two analyses with equal results, also of classification and of every parse. -/
structure Analysis.SameResults (left right : Analysis) : Prop where
  nullable : left.nullable = right.nullable
  first : left.first = right.first
  follow : left.follow = right.follow
  table : left.table = right.table
  classification? : ∃ classification, left.classification? = some classification ∧
    right.classification? = some classification
  parse? : ∀ limit terminals, ∃ outcome, (left.parser limit).parse? terminals = some outcome ∧
    (right.parser limit).parse? terminals = some outcome

/-- Grammars that differ in names only have analyses with equal results. -/
theorem Grammar.Alike.exists_analyses {left right : Grammar} (halike : left.Alike right)
    (hfinished : left.Finished) (policy : ConflictPolicy) :
    ∃ analysis other, Analysis.ofGrammar? left policy = some analysis ∧
      Analysis.ofGrammar? right policy = some other ∧ analysis.SameResults other := by
  have hwell := hfinished.wellFormed
  obtain ⟨nullable, first, follow, claims, _, _, _, hclaimed, hanalysis⟩ :=
    Analysis.exists_claims hwell
  have hother := halike.analysis_eq policy
  rw [hanalysis policy, Option.map_some] at hother
  have hsound : (claims.foldl Table.claim (.empty policy)).Sound left := hclaimed.sound hwell
  obtain ⟨classification, hclassification, _⟩ :=
    Classification.ofTable?_exact hwell fun _ hmem => hclaimed.declares_conflict hwell hmem
  refine ⟨_, _, hanalysis policy, hother, rfl, rfl, rfl, rfl, ?_, ?_⟩
  · refine ⟨classification, hclassification, ?_⟩
    rw [← hclassification]
    exact (halike.classification_eq _).symm
  · intro limit terminals
    obtain ⟨_, _, _, _, hparse, _⟩ := @Parser.parse?_eq
      ⟨left, claims.foldl Table.claim (.empty policy), limit⟩ hsound terminals
    refine ⟨_, hparse, ?_⟩
    rw [← hparse]
    exact (halike.parse?_eq _ limit terminals).symm

namespace Draft

variable {draft renamed : Draft} {rename : String → String} {start : String}

/-- A draft's renaming makes a grammar that differs in names only. -/
theorem Renames.alike (hrenames : Renames rename draft renamed)
    (hstart : start ∈ draft.nonterminalNames) :
    (draft.resolve start).Alike (renamed.resolve (rename start)) where
  productions := (hrenames.productions_eq start (rename start)).symm
  start := by
    change NonTerminal.ofIndex _ = NonTerminal.ofIndex _
    rw [hrenames.idxOf_nonterminalNames (mem_namesIn_of_mem_nonterminalNames hstart)]
  numNonterminals := by
    change draft.nonterminalNames.length = renamed.nonterminalNames.length
    rw [hrenames.nonterminalNames_eq, List.length_map]

theorem Renames.resolve_eq (hrenames : Renames rename draft renamed)
    (hstart : start ∈ draft.nonterminalNames)
    (hfixed : ∀ name ∈ Alternative.namesIn draft.alternatives, rename name = name) :
    draft.resolve start = renamed.resolve (rename start) := by
  have hnonterminals : renamed.nonterminalNames = draft.nonterminalNames := by
    rw [hrenames.nonterminalNames_eq, List.map_congr_left fun name hname =>
      hfixed name (mem_namesIn_of_mem_nonterminalNames hname)]
    exact List.map_id _
  have hterminals : renamed.terminalNames = draft.terminalNames := by
    rw [hrenames.terminalNames_eq, List.map_congr_left fun name hname =>
      hfixed name (mem_namesIn_of_mem_terminalNames hname)]
    exact List.map_id _
  have halike := hrenames.alike hstart
  apply Grammar.ext halike.productions _ halike.start
  rw [resolve, resolve, hnonterminals, hterminals]

end Draft

namespace Builder

/-- Calls that add corresponding alternatives are finished to grammars that differ in names
only, so that all results about them are equal; if the names are the same, so are the
grammars. -/
theorem finish_renamed {left right : List BuilderCall} {rename : String → String}
    (hleft : BuilderCall.FromEmpty left) (hright : BuilderCall.FromEmpty right)
    (hadded : BuilderCall.added none right =
      (BuilderCall.added none left).map (·.rename rename))
    (hrename : Set.InjOn rename (Alternative.namesIn (BuilderCall.added none left)))
    (hproductions : (BuilderCall.added none left).length < 2 ^ 32)
    (hnames : (Alternative.namesIn (BuilderCall.added none left)).card < 2 ^ 32) :
    ∃ first second, empty.calls? left = some first ∧ empty.calls? right = some second ∧
      ∀ start grammar renamed, first.finish start = .ok grammar →
        second.finish (rename start) = .ok renamed →
          grammar.productions = renamed.productions ∧ grammar.start = renamed.start ∧
          (∀ policy, ∃ analysis other, Analysis.ofGrammar? grammar policy = some analysis ∧
            Analysis.ofGrammar? renamed policy = some other ∧ analysis.SameResults other) ∧
          ((∀ name ∈ Alternative.namesIn (BuilderCall.added none left), rename name = name) →
            grammar = renamed) := by
  obtain ⟨first, hfirst, hfirstAdded⟩ := exists_calls?_empty hleft
  obtain ⟨second, hsecond, hsecondAdded⟩ := exists_calls?_empty hright
  refine ⟨first, second, hfirst, hsecond, ?_⟩
  intro start grammar renamed hgrammar hrenamed
  rw [finish_eq_finish_draft] at hgrammar hrenamed
  have hrenames : Draft.Renames rename first.draft second.draft := by
    constructor
    · rw [hsecondAdded, hfirstAdded, hadded]
    · rw [hfirstAdded]
      exact hrename
  rw [← hfirstAdded] at hproductions hnames ⊢
  have hfinished := Draft.finished_of_finish hgrammar hproductions hnames
  obtain ⟨hstart, rfl⟩ := Draft.finish_eq_ok hgrammar
  obtain ⟨_, rfl⟩ := Draft.finish_eq_ok hrenamed
  have halike := hrenames.alike hstart
  exact ⟨halike.productions, halike.start, halike.exists_analyses hfinished,
    hrenames.resolve_eq hstart⟩

/-- A list of letters that may be empty, and what may end it. -/
def letters : List BuilderCall :=
  [.rule "S", .alternative ["a", "S"], .epsilon, .alternative ["T"], .rule "T",
    .alternative ["b"]]

/-- New names, in the reverse of the alphabetical order. -/
def reversed (name : String) : String :=
  match name with
  | "S" => "z"
  | "T" => "y"
  | "a" => "x"
  | "b" => "w"
  | other => other

/-- The same list under the new names.  A rule comes to nothing, and another one is opened
twice. -/
def reversedLetters : List BuilderCall :=
  [.rule "w", .rule "z", .alternative ["x", "z"], .rule "z", .epsilon, .alternative ["y"],
    .rule "y", .alternative ["w"]]

/-- The names are interned in different orders, and the results are equal. -/
theorem finish_renamed_reversed :
    ∃ first second grammar renamed, empty.calls? letters = some first ∧
      empty.calls? reversedLetters = some second ∧
      first.interner.names.map reversed ≠ second.interner.names ∧
      first.finish "S" = .ok grammar ∧ second.finish (reversed "S") = .ok renamed ∧
      grammar ≠ renamed ∧ grammar.productions = renamed.productions ∧
      grammar.start = renamed.start ∧
      ∀ policy, ∃ analysis other, Analysis.ofGrammar? grammar policy = some analysis ∧
        Analysis.ofGrammar? renamed policy = some other ∧ analysis.SameResults other := by
  have hinjective : ∀ left ∈ Alternative.namesIn (BuilderCall.added none letters),
      ∀ right ∈ Alternative.namesIn (BuilderCall.added none letters),
        reversed left = reversed right → left = right := by
    decide +kernel
  obtain ⟨first, second, hfirst, hsecond, hsame⟩ :=
    @finish_renamed letters reversedLetters reversed trivial trivial (by decide +kernel)
      (fun left hleft right hright => hinjective left hleft right hright)
      (by decide +kernel) (by decide +kernel)
  have hplain : (empty.calls? letters).map
      (fun builder => (builder.interner.names, builder.finish "S")) =
        some (["S", "a", "T", "b"],
          .ok (Draft.resolve ⟨BuilderCall.added none letters, none⟩ "S")) := by
    decide +kernel
  have hreversed : (empty.calls? reversedLetters).map
      (fun builder => (builder.interner.names, builder.finish (reversed "S"))) =
        some (["w", "z", "x", "y"],
          .ok (Draft.resolve ⟨BuilderCall.added none reversedLetters, none⟩ "z")) := by
    decide +kernel
  rw [hfirst, Option.map_some] at hplain
  rw [hsecond, Option.map_some] at hreversed
  obtain ⟨hfirstNames, hgrammar⟩ := Prod.mk.inj (Option.some.inj hplain)
  obtain ⟨hsecondNames, hrenamed⟩ := Prod.mk.inj (Option.some.inj hreversed)
  obtain ⟨hproductions, hstart, hanalyses, _⟩ := hsame "S" _ _ hgrammar hrenamed
  refine ⟨first, second, _, _, hfirst, hsecond, ?_, hgrammar, hrenamed, by decide +kernel,
    hproductions, hstart, hanalyses⟩
  rw [hfirstNames, hsecondNames]
  decide +kernel

end Builder

end Predictive
