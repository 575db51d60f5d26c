import Predictive.Proofs.LeftContext

/-!
What the sets say about sentential forms.  A nonterminal, or a string, is found nullable if it
derives the empty string.  FIRST of a nonterminal, or of a string, holds the terminals that
come first in what it derives.  FOLLOW of a nonterminal holds the terminals that come right
after it in what some nonterminal derives, and the end of input if the nonterminal comes last
in what the start symbol derives.  Where every nonterminal is reached, that is what comes right
after it in the sentential forms of the start symbol, the end of input put behind them.
-/

namespace Predictive

namespace Grammar

variable {grammar : Grammar} {lookahead : Lookahead} {n : NonTerminal}

/-- What can begin right after a nonterminal, in a string in which all nonterminals were
followed by what comes after them, follows it. -/
theorem Derives.follows {first before after : List Symbol}
    (hderives : grammar.Derives first (before ++ .nonterminal n :: after))
    (hfirst : grammar.Followed first) (hbegins : grammar.Begins lookahead after) :
    grammar.Follows lookahead n :=
  (hderives.followed hfirst).of_append.1 lookahead hbegins

/-- A production takes its left-hand side to an occurrence in its right-hand side, and what
comes after the occurrence may go on deriving. -/
theorem derives_occurrence {production : Production} (hmem : production ∈ grammar.productions)
    {before after last : List Symbol}
    (hsplit : production.symbols = before ++ .nonterminal n :: after)
    (hafter : grammar.Derives after last) :
    grammar.Derives [.nonterminal production.lhs] (before ++ .nonterminal n :: last) := by
  have hstep := yields_symbols hmem
  rw [hsplit] at hstep
  have hrest := (hafter.append_left [.nonterminal n]).append_left before
  exact hrest.head hstep

/-- What a nonterminal derives may stand in its place. -/
theorem Derives.replace {first before after middle : List Symbol}
    (hderives : grammar.Derives first (before ++ .nonterminal n :: after))
    (hmiddle : grammar.Derives [.nonterminal n] middle) :
    grammar.Derives first (before ++ (middle ++ after)) :=
  hderives.trans ((hmiddle.append_right after).append_left before)

/-- A terminal that follows a nonterminal comes right after it in what the left-hand side
of some production derives. -/
theorem Follows.exists_derives (hwell : grammar.WellFormed) {t : Terminal}
    (hfollows : grammar.Follows (.terminal t) n) :
    ∃ m before after, grammar.Declares (.nonterminal m) ∧
      grammar.Derives [.nonterminal m] (before ++ .nonterminal n :: .terminal t :: after) := by
  -- A terminal of FIRST of the rest is next to `n` once the rest has derived it; an inherited
  -- one is next to the left-hand side, and so next to `n` once the rest is erased.
  induction hfollows with
  | start hend => cases hend
  | @first production n before after hmem hsplit hbegins =>
      obtain ⟨rest, hrest⟩ := (begins_iff_derives hwell).mp hbegins
      exact ⟨production.lhs, before, rest, hwell.declares_lhs production hmem,
        derives_occurrence hmem hsplit hrest⟩
  | @inherit production n before after hmem hsplit herasable _ ih =>
      obtain ⟨m, outer, below, hm, hderives⟩ := ih
      have herased := (erasable_iff_derives hwell).mp herasable
      have hinner := hderives.replace (derives_occurrence hmem hsplit herased)
      refine ⟨m, outer ++ before, below, hm, ?_⟩
      simpa only [List.append_assoc, List.cons_append, List.nil_append] using hinner

/-- A nonterminal that the end of input follows comes last in what the start symbol
derives. -/
theorem Follows.exists_derives_start (hwell : grammar.WellFormed)
    (hfollows : grammar.Follows .endMarker n) :
    ∃ before, grammar.Derives [.nonterminal grammar.start] (before ++ [.nonterminal n]) := by
  induction hfollows with
  | start => exact ⟨[], Relation.ReflTransGen.refl⟩
  | @first production n before after hmem hsplit hbegins =>
      have hafter : ∀ symbol ∈ after, grammar.Declares symbol := by
        intro symbol hsymbol
        apply hwell.declares_symbols production hmem
        rw [hsplit]
        exact List.mem_append_right before (List.mem_cons_of_mem _ hsymbol)
      exact (hwell.not_begins_endMarker hafter hbegins).elim
  | @inherit production n before after hmem hsplit herasable _ ih =>
      obtain ⟨outer, hderives⟩ := ih
      have herased := (erasable_iff_derives hwell).mp herasable
      have hinner := hderives.replace (derives_occurrence hmem hsplit herased)
      refine ⟨outer ++ before, ?_⟩
      simpa only [List.append_assoc, List.append_nil] using hinner

theorem follows_terminal_iff (hwell : grammar.WellFormed) {t : Terminal} :
    grammar.Follows (.terminal t) n ↔
      ∃ m before after, grammar.Declares (.nonterminal m) ∧
        grammar.Derives [.nonterminal m]
          (before ++ .nonterminal n :: .terminal t :: after) := by
  constructor
  · exact Follows.exists_derives hwell
  · rintro ⟨m, before, after, _, hderives⟩
    exact hderives.follows (followed_singleton m) (Begins.symbol after)

/-- What stands right after a nonterminal, in a form of the start symbol with the end of
input behind it, follows the nonterminal. -/
theorem Derives.follows_of_append_endMarker {form before after : List Symbol}
    (hderives : grammar.Derives [.nonterminal grammar.start] form)
    (hform : form ++ [.endMarker] =
      before ++ .nonterminal n :: lookahead.symbol :: after) :
    grammar.Follows lookahead n := by
  have hwhole := hderives.append_right [.endMarker]
  rw [hform] at hwhole
  exact hwhole.follows followed_start (Begins.symbol after)

theorem follows_endMarker_iff (hwell : grammar.WellFormed) :
    grammar.Follows .endMarker n ↔
      ∃ before, grammar.Derives [.nonterminal grammar.start]
        (before ++ [.nonterminal n]) := by
  constructor
  · exact Follows.exists_derives_start hwell
  · rintro ⟨before, hderives⟩
    exact hderives.follows_of_append_endMarker (List.append_assoc _ _ _)

/-- If every nonterminal is reached, only the forms of the start symbol count. -/
theorem follows_iff_of_reachable (hwell : grammar.WellFormed)
    (hreachable : ∀ m, grammar.Declares (.nonterminal m) → grammar.Reachable m) :
    grammar.Follows lookahead n ↔
      ∃ form before after, grammar.Derives [.nonterminal grammar.start] form ∧
        form ++ [.endMarker] =
          before ++ .nonterminal n :: lookahead.symbol :: after := by
  constructor
  · intro hfollows
    cases lookahead with
    | terminal t =>
        obtain ⟨m, before, after, hm, hderives⟩ := hfollows.exists_derives hwell
        obtain ⟨outer, below, houter⟩ := hreachable m hm
        have hwhole := houter.replace hderives
        refine ⟨_, outer ++ before, after ++ below ++ [.endMarker], hwhole, ?_⟩
        simp [Lookahead.symbol]
    | endMarker =>
        obtain ⟨before, hderives⟩ := hfollows.exists_derives_start hwell
        exact ⟨_, before, [], hderives, List.append_assoc _ _ _⟩
  · rintro ⟨form, before, after, hderives, hform⟩
    exact hderives.follows_of_append_endMarker hform

/-- S recurs on the left once A is gone, and A and B each begin with the other. -/
def erasableCycleRules : Draft := .ofRules
  [("S", [["A", "S", "x"], ["B"]]), ("A", [["B", "A"], []]), ("B", [["A", "y"], []])]

def erasableCycle : Grammar := erasableCycleRules.resolve "S"

theorem finished_erasableCycle : erasableCycle.Finished where
  finish_eq := ⟨erasableCycleRules, "S", by decide +kernel⟩
  productions_lt := by decide +kernel
  nonterminals_lt := by decide +kernel
  terminals_lt := by decide +kernel

/-- A string that no production of the cycle has, with ε inside. -/
def withEpsilon : List Symbol :=
  [.nonterminal ⟨1⟩, .epsilon, .nonterminal ⟨2⟩, .endMarker, .terminal ⟨0⟩]

theorem declares_withEpsilon (n : NonTerminal) (hn : .nonterminal n ∈ withEpsilon) :
    erasableCycle.Declares (.nonterminal n) := by
  have hnumber : erasableCycle.numNonterminals = 3 := by decide +kernel
  have hcases : n = ⟨1⟩ ∨ n = ⟨2⟩ := by simpa [withEpsilon] using hn
  change n.index < erasableCycle.numNonterminals
  rw [hnumber]
  rcases hcases with rfl | rfl <;> decide

end Grammar

variable {grammar : Grammar}

namespace Nullable

/-- A nonterminal is marked exactly if it derives the empty string.  The scan of a string that
asks for marks only and the one that collects FIRST on its way say the same of every string:
whether it derives the empty string, ε left out. -/
theorem iff_derives_nil (hfinished : grammar.Finished) :
    ∃ nullable first, ofGrammar? grammar = some nullable ∧
      FirstSets.ofGrammar? grammar nullable = some first ∧
      (∀ n, grammar.Declares (.nonterminal n) → ∃ answer, nullable.has? n = some answer ∧
        (answer = true ↔ grammar.Derives [.nonterminal n] [])) ∧
      ∀ symbols, (∀ n, .nonterminal n ∈ symbols → grammar.Declares (.nonterminal n)) →
        ∃ answer result, nullable.derivesEmpty? symbols = some answer ∧
          first.ofSequence? symbols = some result ∧ result.nullable = answer ∧
          (answer = true ↔ grammar.Derives (eraseEpsilon symbols) []) := by
  have hwell := hfinished.wellFormed
  obtain ⟨nullable, first, _, hnullable, hfirst, _, hexact, hexactFirst, _⟩ :=
    exists_exact_sets hwell
  refine ⟨nullable, first, hnullable, hfirst, ?_, ?_⟩
  · intro n hn
    obtain ⟨answer, hanswer, hiff⟩ := hexact n hn
    exact ⟨answer, hanswer, hiff.trans (Grammar.erasable_iff_derives hwell)⟩
  · intro symbols hsymbols
    obtain ⟨answer, hanswer, hiff⟩ := hexact.derivesEmpty? hsymbols
    obtain ⟨result, hresult, _, hempty⟩ := hexactFirst.ofSequence? hsymbols
    exact ⟨answer, result, hanswer, hresult, Bool.eq_iff_iff.mpr (hempty.trans hiff.symm),
      hiff.trans (Grammar.erasable_iff_derives hwell)⟩

/-- A and B derive the empty string, and so does the string of both with ε between them; the end
of input and a terminal at the end do not. -/
theorem iff_derives_nil_erasableCycle :
    Grammar.erasableCycle.Finished ∧
    ∃ nullable first, ofGrammar? .erasableCycle = some nullable ∧
      FirstSets.ofGrammar? .erasableCycle nullable = some first ∧
      nullable.has? ⟨1⟩ = some true ∧ Grammar.erasableCycle.Derives [.nonterminal ⟨1⟩] [] ∧
      nullable.derivesEmpty? (Grammar.withEpsilon.take 3) = some true ∧
      Grammar.erasableCycle.Derives [.nonterminal ⟨1⟩, .nonterminal ⟨2⟩] [] ∧
      nullable.derivesEmpty? Grammar.withEpsilon = some false ∧
      ¬ Grammar.erasableCycle.Derives
        [.nonterminal ⟨1⟩, .nonterminal ⟨2⟩, .endMarker, .terminal ⟨0⟩] [] := by
  obtain ⟨nullable, first, hnullable, hfirst, hmarks, hstrings⟩ :=
    iff_derives_nil Grammar.finished_erasableCycle
  have hA : Grammar.erasableCycle.Declares (.nonterminal ⟨1⟩) :=
    Grammar.declares_withEpsilon ⟨1⟩ (by decide)
  obtain ⟨marked, hmarked, hiff⟩ := hmarks ⟨1⟩ hA
  obtain ⟨short, _, hshort, _, _, hiffShort⟩ := hstrings (Grammar.withEpsilon.take 3)
    fun n hn => Grammar.declares_withEpsilon n (List.mem_of_mem_take hn)
  obtain ⟨long, _, hlong, _, _, hiffLong⟩ :=
    hstrings Grammar.withEpsilon Grammar.declares_withEpsilon
  have hanswers : ((ofGrammar? .erasableCycle).bind fun known => do
      let own ← known.has? ⟨1⟩
      let pair ← known.derivesEmpty? (Grammar.withEpsilon.take 3)
      let whole ← known.derivesEmpty? Grammar.withEpsilon
      return (own, pair, whole)) = some (true, true, false) := by
    decide +kernel
  rw [hnullable, Option.bind_some, hmarked, hshort, hlong] at hanswers
  obtain ⟨rfl, hpair⟩ := Prod.mk.inj (Option.some.inj hanswers)
  obtain ⟨rfl, rfl⟩ := Prod.mk.inj hpair
  refine ⟨Grammar.finished_erasableCycle, nullable, first, hnullable, hfirst, hmarked,
    hiff.mp rfl, hshort, hiffShort.mp rfl, hlong, ?_⟩
  intro hderives
  cases hiffLong.mpr hderives

end Nullable

namespace FirstSets

/-- FIRST of a nonterminal has the terminals with which a string derived from it starts, and
FIRST of a string of symbols has those with which a string derived from that one starts, ε
left out. -/
theorem mem_iff_derives_cons (hfinished : grammar.Finished) :
    ∃ nullable first, Nullable.ofGrammar? grammar = some nullable ∧
      ofGrammar? grammar nullable = some first ∧
      (∀ n, grammar.Declares (.nonterminal n) → ∃ set, first.first? n = some set ∧
        ∀ t, t ∈ set ↔ ∃ rest, grammar.Derives [.nonterminal n] (.terminal t :: rest)) ∧
      ∀ symbols, (∀ n, .nonterminal n ∈ symbols → grammar.Declares (.nonterminal n)) →
        ∃ result, first.ofSequence? symbols = some result ∧
          ∀ t, t ∈ result.terminals ↔
            ∃ rest, grammar.Derives (eraseEpsilon symbols) (.terminal t :: rest) := by
  have hwell := hfinished.wellFormed
  obtain ⟨nullable, first, _, hnullable, hfirst, _, _, hexact, _⟩ := exists_exact_sets hwell
  refine ⟨nullable, first, hnullable, hfirst, ?_, ?_⟩
  · intro n hn
    obtain ⟨set, hset, hmem⟩ := hexact.first? hn
    exact ⟨set, hset, fun t => (hmem t).trans (Grammar.begins_iff_derives hwell)⟩
  · intro symbols hsymbols
    obtain ⟨result, hresult, hmem, _⟩ := hexact.ofSequence? hsymbols
    exact ⟨result, hresult, fun t => (hmem t).trans (Grammar.begins_iff_derives hwell)⟩

/-- In the cycle of erasable nonterminals, y begins what A derives only once A itself is
gone, and the end of input hides what comes after it. -/
theorem mem_iff_derives_cons_erasableCycle :
    Grammar.erasableCycle.Finished ∧
    ∃ nullable first, Nullable.ofGrammar? .erasableCycle = some nullable ∧
      ofGrammar? .erasableCycle nullable = some first ∧
      (∀ t, (∃ rest, Grammar.erasableCycle.Derives [.nonterminal ⟨0⟩] (.terminal t :: rest)) ↔
        t ∈ [⟨0⟩, ⟨1⟩]) ∧
      ∀ t, (∃ rest, Grammar.erasableCycle.Derives
          [.nonterminal ⟨1⟩, .nonterminal ⟨2⟩, .endMarker, .terminal ⟨0⟩]
          (.terminal t :: rest)) ↔ t ∈ [⟨1⟩] := by
  obtain ⟨nullable, first, hnullable, hfirst, hsets, hsequences⟩ :=
    mem_iff_derives_cons Grammar.finished_erasableCycle
  have hstart : Grammar.erasableCycle.Declares (.nonterminal ⟨0⟩) := by
    change 0 < Grammar.erasableCycle.numNonterminals
    decide +kernel
  obtain ⟨set, hset, hmem⟩ := hsets ⟨0⟩ hstart
  obtain ⟨result, hresult, hmem'⟩ := hsequences Grammar.withEpsilon Grammar.declares_withEpsilon
  have hlists : ((Nullable.ofGrammar? .erasableCycle).bind fun known =>
      (ofGrammar? .erasableCycle known).bind fun sets => do
        let own ← sets.first? ⟨0⟩
        let whole ← sets.ofSequence? Grammar.withEpsilon
        return (own.toList, whole.terminals.toList)) = some ([⟨0⟩, ⟨1⟩], [⟨1⟩]) := by
    decide +kernel
  rw [hnullable, Option.bind_some, hfirst, Option.bind_some, hset, hresult] at hlists
  obtain ⟨hset', hresult'⟩ := Prod.mk.inj (Option.some.inj hlists)
  refine ⟨Grammar.finished_erasableCycle, nullable, first, hnullable, hfirst, ?_, ?_⟩
  · intro t
    rw [← hmem, ← hset', Std.ExtTreeSet.mem_toList]
  · intro t
    rw [← hresult', Std.ExtTreeSet.mem_toList]
    exact (hmem' t).symm

end FirstSets

namespace FollowSets

/-- FOLLOW of a nonterminal has the terminals that come right after it in a string derived
from some nonterminal, and the end of input if the nonterminal ends a string derived from the
start symbol. -/
theorem mem_iff_derives_adjacent (hfinished : grammar.Finished) :
    ∃ nullable first follow, Nullable.ofGrammar? grammar = some nullable ∧
      FirstSets.ofGrammar? grammar nullable = some first ∧
      ofGrammar? grammar first = some follow ∧
      ∀ n, grammar.Declares (.nonterminal n) → ∃ set, follow.follow? n = some set ∧
        (∀ t, .terminal t ∈ set ↔ ∃ m before after, grammar.Declares (.nonterminal m) ∧
          grammar.Derives [.nonterminal m]
            (before ++ .nonterminal n :: .terminal t :: after)) ∧
        (.endMarker ∈ set ↔ ∃ before, grammar.Derives [.nonterminal grammar.start]
          (before ++ [.nonterminal n])) ∧
        ((∀ m, grammar.Declares (.nonterminal m) → grammar.Reachable m) →
          ∀ lookahead, lookahead ∈ set ↔ ∃ form before after,
            grammar.Derives [.nonterminal grammar.start] form ∧
              form ++ [.endMarker] =
                before ++ .nonterminal n :: lookahead.symbol :: after) := by
  have hwell := hfinished.wellFormed
  obtain ⟨nullable, first, follow, hnullable, hfirst, hfollow, _, _, hexact⟩ :=
    exists_exact_sets hwell
  refine ⟨nullable, first, follow, hnullable, hfirst, hfollow, ?_⟩
  intro n hn
  obtain ⟨set, hset, hmem⟩ := hexact.follow? hn
  refine ⟨set, hset, ?_, ?_, ?_⟩
  · exact fun t => (hmem _).trans (Grammar.follows_terminal_iff hwell)
  · exact (hmem _).trans (Grammar.follows_endMarker_iff hwell)
  · exact fun hreachable lookahead =>
      (hmem lookahead).trans (Grammar.follows_iff_of_reachable hwell hreachable)

/-- In expressions, every operator and the end of input come right after a factor, and so
does a closing parenthesis. -/
theorem mem_iff_derives_adjacent_expressions :
    Grammar.expressions.Finished ∧
    ∃ nullable first follow, Nullable.ofGrammar? .expressions = some nullable ∧
      FirstSets.ofGrammar? .expressions nullable = some first ∧
      ofGrammar? .expressions first = some follow ∧
      ∀ lookahead : Lookahead, (∃ form before after,
          Grammar.expressions.Derives [.nonterminal Grammar.expressions.start] form ∧
            form ++ [.endMarker] =
              before ++ .nonterminal ⟨4⟩ :: lookahead.symbol :: after) ↔
        lookahead ∈ [.terminal ⟨0⟩, .terminal ⟨1⟩, .terminal ⟨3⟩, .endMarker] := by
  obtain ⟨nullable, first, follow, hnullable, hfirst, hfollow, hsets⟩ :=
    mem_iff_derives_adjacent Grammar.finished_expressions
  have hfactor : Grammar.expressions.Declares (.nonterminal ⟨4⟩) := by
    change 4 < Grammar.expressions.numNonterminals
    decide +kernel
  obtain ⟨set, hset, _, _, hreached⟩ := hsets ⟨4⟩ hfactor
  have hlist : ((Nullable.ofGrammar? .expressions).bind fun known =>
      (FirstSets.ofGrammar? .expressions known).bind fun sets =>
        (ofGrammar? .expressions sets).bind fun last =>
          (last.follow? ⟨4⟩).map (·.toList)) =
      some [.terminal ⟨0⟩, .terminal ⟨1⟩, .terminal ⟨3⟩, .endMarker] := by
    decide +kernel
  rw [hnullable, Option.bind_some, hfirst, Option.bind_some, hfollow, Option.bind_some, hset]
    at hlist
  refine ⟨Grammar.finished_expressions, nullable, first, follow, hnullable, hfirst, hfollow, ?_⟩
  intro lookahead
  rw [← Option.some.inj hlist, Std.ExtTreeSet.mem_toList]
  exact (hreached Grammar.reachable_expressions lookahead).symm

end FollowSets

end Predictive
