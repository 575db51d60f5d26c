import Mathlib.Logic.Relation
import Predictive.Proofs.Journal
import Predictive.Proofs.Tokens
import Predictive.Session

/-!
What a session can rely on.  Whatever changes a session, its latest grammar is a finished one
and its latest analysis that of a finished grammar, which later grammars do not touch.  So
nothing but a missing grammar keeps a session from an analysis, and once there is an analysis
every source that can be read comes to an outcome.
-/

namespace Predictive

section

variable {Item Value Result Error : Type}

/-- What is done after something else succeeds if both do. -/
theorem bind_eq_ok_iff {attempt : Except Error Value} {next : Value → Except Error Result}
    {result : Result} :
    attempt >>= next = .ok result ↔ ∃ value, attempt = .ok value ∧ next value = .ok result := by
  cases attempt with
  | error error =>
      refine iff_of_false nofun ?_
      rintro ⟨_, hvalue, _⟩
      cases hvalue
  | ok value => exact ⟨fun hnext => ⟨value, rfl, hnext⟩, fun ⟨_, hvalue, hnext⟩ =>
      Except.ok.inj hvalue ▸ hnext⟩

/-- Every value in a list of results is that of an item. -/
theorem exists_of_mem_mapM {attempt : Item → Except Error Value} {items : List Item}
    {values : List Value} (hvalues : items.mapM attempt = .ok values) :
    ∀ value ∈ values, ∃ item ∈ items, attempt item = .ok value := by
  induction items generalizing values with
  | nil =>
      obtain rfl := Except.ok.inj hvalues
      exact List.forall_mem_nil _
  | cons item rest ih =>
      rw [List.mapM_cons] at hvalues
      obtain ⟨first, hfirst, hvalues⟩ := bind_eq_ok_iff.mp hvalues
      obtain ⟨others, hothers, hvalues⟩ := bind_eq_ok_iff.mp hvalues
      obtain rfl := Except.ok.inj hvalues
      refine List.forall_mem_cons.mpr ⟨⟨item, List.mem_cons_self, hfirst⟩, ?_⟩
      intro value hvalue
      obtain ⟨other, hmem, hother⟩ := ih hothers value hvalue
      exact ⟨other, List.mem_cons_of_mem _ hmem, hother⟩

end

theorem eq_ok_of_mapError {Cause Error Value : Type} {convert : Cause → Error}
    {attempt : Except Cause Value} {value : Value}
    (hvalue : attempt.mapError convert = .ok value) : attempt = .ok value := by
  cases attempt with
  | error cause => cases hvalue
  | ok other => exact congrArg _ (Except.ok.inj hvalue)

theorem Symbol.eq_terminal_of_asTerminal {symbol : Symbol} {t : Terminal}
    (hterminal : symbol.asTerminal = .ok t) : symbol = .terminal t := by
  cases symbol with
  | terminal other => exact congrArg _ (Except.ok.inj hterminal)
  | nonterminal n => cases hterminal
  | epsilon => cases hterminal
  | endMarker => cases hterminal

namespace Builder

variable {builder : Builder}

/-- The builder has so few alternatives and names that no number wraps. -/
structure Fits (builder : Builder) : Prop where
  numProductions_lt : builder.numProductions < 2 ^ 32
  size_lt : builder.interner.size < 2 ^ 32

/-- The names of the draft are among those that the builder has interned. -/
theorem namesIn_draft_subset :
    Alternative.namesIn builder.draft.alternatives ⊆ builder.interner.names.toFinset := by
  intro name hname
  obtain ⟨_, hmem, hnames⟩ := List.mem_flatMap.mp (List.mem_toFinset.mp hname)
  obtain ⟨alternative, halternative, rfl⟩ := List.mem_map.mp hmem
  have hindices := builder.alternatives_lt alternative halternative
  rw [List.mem_toFinset]
  rcases List.mem_cons.mp hnames with rfl | hrhs
  · exact Interner.name_mem (hindices _ List.mem_cons_self)
  · obtain ⟨index, hindex, rfl⟩ := List.mem_map.mp hrhs
    exact Interner.name_mem (hindices index (List.mem_cons_of_mem _ hindex))

theorem finished_of_finish (hfits : builder.Fits) {start : String} {grammar : Grammar}
    (hfinish : builder.finish start = .ok grammar) : grammar.Finished := by
  rw [finish_eq_finish_draft] at hfinish
  refine Draft.finished_of_finish hfinish ?_ ?_
  · rw [draft, List.length_map]
    exact hfits.numProductions_lt
  · calc (Alternative.namesIn builder.draft.alternatives).card
        ≤ builder.interner.names.toFinset.card := Finset.card_le_card namesIn_draft_subset
      _ ≤ builder.interner.size := List.toFinset_card_le _
      _ < 2 ^ 32 := hfits.size_lt

end Builder

/-- Only a symbol that is given directly can be foreign to the grammar. -/
def Reference.InRange (grammar : Grammar) : Reference → Prop
  | symbol s => s.InRange grammar
  | name _ => True

/-- No symbol that the source gives directly is foreign. -/
def Source.InRange (grammar : Grammar) : Source → Prop
  | characters _ | words _ => True
  | references rs => ∀ reference ∈ rs, reference.InRange grammar

section

variable {grammar : Grammar} (hfinished : grammar.Finished) {terminals : List Terminal}
include hfinished

theorem Grammar.Finished.terminal_lt {name : String} {t : Terminal}
    (hlookup : grammar.terminal? name = some t) : t.index < grammar.numTerminals := by
  have hname := (hfinished.terminal?_eq_some_iff name t).mp hlookup
  exact (List.getElem?_eq_some_iff.mp hname).1

theorem Grammar.Finished.readTokens_lt {tokens : List Text.Token}
    (hread : grammar.readTokens tokens = .ok terminals) :
    ∀ t ∈ terminals, t.index < grammar.numTerminals := by
  have hnames := (Grammar.readTokens_eq_ok_iff hfinished.terminal?_eq_some_iff).mp hread
  intro t ht
  have hnamed : grammar.nameOf? (.terminal t) ∈ tokens.map fun token => some token.text :=
    hnames ▸ List.mem_map_of_mem ht
  obtain ⟨token, _, hname⟩ := List.mem_map.mp hnamed
  exact (List.getElem?_eq_some_iff.mp hname.symm).1

/-- A terminal that is referred to by name is one of the grammar. -/
theorem Reference.resolve_lt {reference : Reference} (hrange : reference.InRange grammar)
    {t : Terminal} (hresolve : reference.resolve grammar.names = .ok (.terminal t)) :
    t.index < grammar.numTerminals := by
  cases reference with
  | symbol s =>
      obtain rfl := Except.ok.inj hresolve
      exact hrange
  | name n =>
      unfold resolve NameTable.symbol? at hresolve
      cases hnonterminal : grammar.names.nonterminal? n with
      | some _ => simp [hnonterminal] at hresolve
      | none =>
          cases hterminal : grammar.names.terminal? n with
          | none => simp [hnonterminal, hterminal] at hresolve
          | some found =>
              simp only [hnonterminal, hterminal, Option.map_some, Except.ok.injEq,
                Symbol.terminal.injEq] at hresolve
              exact hresolve ▸ hfinished.terminal_lt hterminal

/-- What is read from a text or by name is found in the grammar. -/
theorem Source.read_lt {source : Source} (hrange : source.InRange grammar)
    (hread : source.read grammar = .ok terminals) :
    ∀ t ∈ terminals, t.index < grammar.numTerminals := by
  cases source with
  | characters text => exact hfinished.readTokens_lt (eq_ok_of_mapError hread)
  | words text => exact hfinished.readTokens_lt (eq_ok_of_mapError hread)
  | references rs =>
      obtain ⟨symbols, hsymbols, hterminals⟩ := bind_eq_ok_iff.mp hread
      intro t ht
      obtain ⟨symbol, hsymbol, hterminal⟩ := exists_of_mem_mapM hterminals t ht
      obtain ⟨reference, hreference, hresolve⟩ := exists_of_mem_mapM hsymbols symbol hsymbol
      have hsame : symbol = .terminal t := Symbol.eq_terminal_of_asTerminal hterminal
      exact Reference.resolve_lt hfinished (hrange reference hreference) (hsame ▸ hresolve)

end

namespace Session

variable {session next : Session}

theorem getGrammar_eq_ok_iff {grammar : Grammar} :
    session.getGrammar = .ok grammar ↔ session.grammar = some grammar := by
  unfold getGrammar
  cases session.grammar <;> simp

theorem alternative_eq_ok {rhs : List String} (hadded : session.alternative rhs = .ok next) :
    ∃ draft, session.draft.alternative? rhs = some draft ∧ next = { session with draft } := by
  unfold alternative at hadded
  cases hdraft : session.draft.alternative? rhs with
  | none => simp [hdraft] at hadded
  | some draft => exact ⟨draft, rfl, by simpa [hdraft, eq_comm] using hadded⟩

/-- The draft is given up in any case, and the latest grammar only for a new one. -/
theorem finish_cases (session : Session) (start : String) :
    (∃ error, session.draft.finish start = .error error ∧
      session.finish start = (.error error, { session with draft := .empty })) ∨
    ∃ grammar, session.draft.finish start = .ok grammar ∧
      session.finish start =
        (.ok grammar, { session with draft := .empty, grammar := some grammar }) := by
  unfold finish
  cases session.draft.finish start with
  | error error => exact Or.inl ⟨error, rfl, rfl⟩
  | ok grammar => exact Or.inr ⟨grammar, rfl, rfl⟩

theorem analyze_eq_ok_iff {policy : ConflictPolicy} :
    session.analyze policy = .ok next ↔ ∃ grammar analysis, session.grammar = some grammar ∧
      Analysis.ofGrammar? grammar policy = some analysis ∧
      next = { session with analysis := some analysis } := by
  unfold analyze
  simp only [bind_eq_ok_iff, getGrammar_eq_ok_iff]
  refine exists_congr fun grammar => ?_
  cases Analysis.ofGrammar? grammar policy with
  | none =>
      refine iff_of_false (fun ⟨_, hrefused⟩ => nomatch hrefused) ?_
      rintro ⟨_, _, hnone, _⟩
      cases hnone
  | some analysis =>
      constructor
      · rintro ⟨hgrammar, hnext⟩
        exact ⟨analysis, hgrammar, rfl, (Except.ok.inj hnext).symm⟩
      · rintro ⟨_, hgrammar, hsame, rfl⟩
        obtain rfl := Option.some.inj hsame
        exact ⟨hgrammar, rfl⟩

theorem setLimit_eq_ok {limit : StepLimit} (hlimited : session.setLimit limit = .ok next) :
    next = { session with limit } := by
  obtain ⟨_, _, hnext⟩ := bind_eq_ok_iff.mp hlimited
  exact (Except.ok.inj hnext).symm

theorem parse_eq {analysis : Analysis} (hanalysis : session.analysis = some analysis)
    (source : Source) :
    session.parse source = (source.read analysis.grammar).map fun terminals =>
      (analysis, (analysis.parser session.limit).parse? terminals) := by
  rw [parse, getAnalysis, hanalysis]
  change (source.read analysis.grammar >>= _) = _
  cases source.read analysis.grammar with
  | error refusal => rfl
  | ok terminals => rfl

/-- A request that is not refused takes a session to the next one.  Builders are finished only
while no number wraps in them. -/
inductive Becomes : Session → Session → Prop where
  | rule (session : Session) (lhs : String) : Becomes session (session.rule lhs)
  | alternative {session next : Session} {rhs : List String}
      (hadded : session.alternative rhs = .ok next) : Becomes session next
  | finish {session : Session} (hfits : session.draft.Fits) (start : String) :
      Becomes session (session.finish start).2
  | analyze {session next : Session} {policy : ConflictPolicy}
      (hanalyzed : session.analyze policy = .ok next) : Becomes session next
  | setLimit {session next : Session} {limit : StepLimit}
      (hlimited : session.setLimit limit = .ok next) : Becomes session next

/-- A request replaces the latest grammar by one that is finished just then, or the latest
analysis by that of the latest grammar, or neither of them. -/
theorem Becomes.kept (hbecomes : session.Becomes next) :
    (next.grammar = session.grammar ∧ next.analysis = session.analysis) ∨
    (∃ start grammar, session.draft.Fits ∧ session.draft.finish start = .ok grammar ∧
      next.grammar = some grammar ∧ next.analysis = session.analysis) ∨
    ∃ policy grammar analysis, session.grammar = some grammar ∧
      Analysis.ofGrammar? grammar policy = some analysis ∧
      next.grammar = session.grammar ∧ next.analysis = some analysis := by
  cases hbecomes with
  | rule lhs => exact Or.inl ⟨rfl, rfl⟩
  | alternative hadded =>
      obtain ⟨_, _, rfl⟩ := alternative_eq_ok hadded
      exact Or.inl ⟨rfl, rfl⟩
  | finish hfits start =>
      obtain ⟨_, _, hfinish⟩ | ⟨grammar, hgrammar, hfinish⟩ := session.finish_cases start
      · rw [hfinish]
        exact Or.inl ⟨rfl, rfl⟩
      · rw [hfinish]
        exact Or.inr (Or.inl ⟨start, grammar, hfits, hgrammar, rfl, rfl⟩)
  | @analyze _ policy hanalyzed =>
      obtain ⟨grammar, analysis, hgrammar, hanalysis, rfl⟩ := analyze_eq_ok_iff.mp hanalyzed
      exact Or.inr (Or.inr ⟨policy, grammar, analysis, hgrammar, hanalysis, rfl, rfl⟩)
  | setLimit hlimited =>
      obtain rfl := setLimit_eq_ok hlimited
      exact Or.inl ⟨rfl, rfl⟩

/-- The latest grammar is finished, and the latest analysis is that of a finished grammar. -/
structure Sound (session : Session) : Prop where
  finished : ∀ grammar, session.grammar = some grammar → grammar.Finished
  analyzed : ∀ analysis, session.analysis = some analysis → analysis.grammar.Finished ∧
    ∃ policy, Analysis.ofGrammar? analysis.grammar policy = some analysis

theorem sound_empty : Sound .empty where
  finished := nofun
  analyzed := nofun

theorem Becomes.sound (hbecomes : session.Becomes next) (hsound : session.Sound) : next.Sound := by
  obtain ⟨hgrammar, hanalysis⟩ | ⟨start, grammar, hfits, hfinish, hgrammar, hanalysis⟩ |
    ⟨policy, grammar, analysis, hlatest, hanalyzed, hgrammar, hanalysis⟩ := hbecomes.kept
  · exact ⟨hgrammar ▸ hsound.finished, hanalysis ▸ hsound.analyzed⟩
  · refine ⟨?_, hanalysis ▸ hsound.analyzed⟩
    rintro _ hnew
    obtain rfl := Option.some.inj (hgrammar.symm.trans hnew)
    exact Builder.finished_of_finish hfits hfinish
  · refine ⟨hgrammar ▸ hsound.finished, ?_⟩
    rintro _ hnew
    obtain rfl := Option.some.inj (hanalysis.symm.trans hnew)
    -- what was analyzed is the latest grammar, and the analysis keeps it as its own
    have hfinished := hsound.finished grammar hlatest
    obtain ⟨_, hfound, hsame, _⟩ := Analysis.ofGrammar?_exact hfinished.wellFormed policy
    obtain rfl := Option.some.inj (hanalyzed.symm.trans hfound)
    exact ⟨hsame.symm ▸ hfinished, policy, hsame.symm ▸ hanalyzed⟩

theorem sound_of_reaches (hreaches : Relation.ReflTransGen Becomes empty session) :
    session.Sound := by
  induction hreaches with
  | refl => exact sound_empty
  | tail _ hbecomes ih => exact hbecomes.sound ih

theorem Becomes.isSome_analysis (hbecomes : session.Becomes next)
    (hanalysis : session.analysis.isSome) : next.analysis.isSome := by
  obtain ⟨_, hkept⟩ | ⟨_, _, _, _, _, hkept⟩ | ⟨_, _, _, _, _, _, hnew⟩ := hbecomes.kept
  · rwa [hkept]
  · rwa [hkept]
  · rw [hnew, Option.isSome_some]

/-- A session that has an analysis goes on having one. -/
theorem isSome_analysis_of_reaches (hreaches : Relation.ReflTransGen Becomes session next)
    (hanalysis : session.analysis.isSome) : next.analysis.isSome := by
  induction hreaches with
  | refl => exact hanalysis
  | tail _ hbecomes ih => exact hbecomes.isSome_analysis ih

/-- Nothing but a missing grammar keeps a session from an analysis. -/
theorem Sound.analyze_cases (hsound : session.Sound) (policy : ConflictPolicy) :
    (session.grammar = none ∧ session.analyze policy = .error .noGrammar) ∨
    ∃ grammar analysis, session.grammar = some grammar ∧
      Analysis.ofGrammar? grammar policy = some analysis ∧
      session.analyze policy = .ok { session with analysis := some analysis } := by
  obtain hnone | ⟨grammar, hgrammar⟩ := session.grammar.eq_none_or_eq_some
  · refine Or.inl ⟨hnone, ?_⟩
    rw [analyze, getGrammar, hnone]
    rfl
  · have hwell := (hsound.finished grammar hgrammar).wellFormed
    obtain ⟨analysis, hanalysis, _⟩ := Analysis.ofGrammar?_exact hwell policy
    refine Or.inr ⟨grammar, analysis, hgrammar, hanalysis, ?_⟩
    exact analyze_eq_ok_iff.mpr ⟨grammar, analysis, hgrammar, hanalysis, rfl⟩

/-- By a sound analysis every string of terminals comes to an outcome, and all of the parse can
be told if the source gives no foreign symbols. -/
theorem Sound.exists_outcome (hsound : session.Sound) {analysis : Analysis}
    (hanalysis : session.analysis = some analysis) {source : Source} {terminals : List Terminal}
    (hread : source.read analysis.grammar = .ok terminals) :
    ∃ outcome, session.parse source = .ok (analysis, some outcome) ∧
      (source.InRange analysis.grammar →
        ∃ entries, analysis.grammar.parseEntries? outcome = some entries) := by
  obtain ⟨hfinished, policy, hanalyzed⟩ := hsound.analyzed analysis hanalysis
  have hwell := hfinished.wellFormed
  obtain ⟨_, hfound, _, htable, _⟩ := Analysis.ofGrammar?_exact hwell policy
  obtain rfl := Option.some.inj (hanalyzed.symm.trans hfound)
  obtain ⟨outcome, hparse, _, htold⟩ :=
    @Parser.exists_parse?_inRange (analysis.parser session.limit) hwell htable.inRange terminals
  refine ⟨outcome, ?_, fun hrange => htold (Source.read_lt hfinished hrange hread)⟩
  rw [parse_eq hanalysis, hread, Except.map, hparse]

/-- After an analysis, whatever else is requested, a parse is refused only if the source cannot
be read, and it comes to an outcome otherwise. -/
theorem parse_after_analyze {policy : ConflictPolicy} {last : Session}
    (hreaches : Relation.ReflTransGen Becomes empty session)
    (hanalyzed : session.analyze policy = .ok next)
    (hlater : Relation.ReflTransGen Becomes next last) (source : Source) :
    ∃ analysis, last.analysis = some analysis ∧
      ((∃ refusal, source.read analysis.grammar = .error refusal ∧
          last.parse source = .error refusal) ∨
        ∃ terminals outcome, source.read analysis.grammar = .ok terminals ∧
          last.parse source = .ok (analysis, some outcome) ∧
          (source.InRange analysis.grammar →
            ∃ entries, analysis.grammar.parseEntries? outcome = some entries)) := by
  have hsound : last.Sound :=
    sound_of_reaches ((hreaches.tail (.analyze hanalyzed)).trans hlater)
  have hnext : next.analysis.isSome := by
    obtain ⟨_, _, _, _, rfl⟩ := analyze_eq_ok_iff.mp hanalyzed
    rfl
  obtain ⟨analysis, hanalysis⟩ :=
    Option.isSome_iff_exists.mp (isSome_analysis_of_reaches hlater hnext)
  refine ⟨analysis, hanalysis, ?_⟩
  cases hread : source.read analysis.grammar with
  | error refusal =>
      refine Or.inl ⟨refusal, rfl, ?_⟩
      rw [parse_eq hanalysis, hread, Except.map]
  | ok terminals =>
      obtain ⟨outcome, hparse, htold⟩ := hsound.exists_outcome hanalysis hread
      exact Or.inr ⟨terminals, outcome, rfl, hparse, htold⟩

/-- The second grammar is refused, and the source is parsed by the first one. -/
example : (do
    let opened ← (empty.rule "S").alternative ["a"]
    let analyzed ← (opened.finish "S").2.analyze .lastWins
    let (_, outcome) ← (analyzed.finish "S").2.parse (.characters "a")
    return outcome.map Outcome.isAccepted) = .ok (some true) := by
  rfl

end Session

end Predictive
