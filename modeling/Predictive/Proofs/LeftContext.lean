import Predictive.Proofs.Spelling
import Predictive.Proofs.Table

/-!
What the absence of conflicts says about derivations.  A table looks at what can follow
a nonterminal anywhere; a derivation meets the nonterminal in one left context at a time.
In a grammar whose nonterminals all take part in deriving terminals the two come to the
same: two productions clash in the table exactly if some left context leaves it open
which of them comes next.
-/

namespace Predictive

namespace Grammar

/-- A leftmost derivation leads to the nonterminal, the terminals before it and the
symbols after it. -/
def LeftContext (grammar : Grammar) (before : List Terminal) (n : NonTerminal)
    (after : List Symbol) : Prop :=
  ∃ ids, grammar.DerivesLeftmost ids [.nonterminal grammar.start]
    (sentence before ++ .nonterminal n :: after)

/-- In a left context of their common left-hand side, both of two productions lead to a
string that starts with the lookahead, the end of input put behind it. -/
structure Undecided (grammar : Grammar) (before : List Terminal) (after : List Symbol)
    (lookahead : Lookahead) (left right : Production) : Prop where
  left_mem : left ∈ grammar.productions
  right_mem : right ∈ grammar.productions
  lhs_eq : left.lhs = right.lhs
  id_ne : left.id ≠ right.id
  context : grammar.LeftContext before left.lhs after
  left_derives : ∃ rest, grammar.Derives (left.symbols ++ (after ++ [.endMarker]))
    (lookahead.symbol :: rest)
  right_derives : ∃ rest, grammar.Derives (right.symbols ++ (after ++ [.endMarker]))
    (lookahead.symbol :: rest)

variable {grammar : Grammar} {ids : List ProductionId} {n : NonTerminal}
  {lookahead : Lookahead}

theorem DerivesLeftmost.sentence_append {first last : List Symbol} (before : List Terminal)
    (hderives : grammar.DerivesLeftmost ids first last) :
    grammar.DerivesLeftmost ids (sentence before ++ first) (sentence before ++ last) := by
  induction before with
  | nil => exact hderives
  | cons t before ih => exact ih.cons_terminal t

/-- A string derives terminals if each of its symbols does. -/
theorem exists_derives_sentence {symbols : List Symbol}
    (hsymbols : ∀ symbol ∈ symbols, ∃ terminals, grammar.Derives [symbol] (sentence terminals)) :
    ∃ terminals, grammar.Derives symbols (sentence terminals) := by
  induction symbols with
  | nil => exact ⟨[], Relation.ReflTransGen.refl⟩
  | cons symbol rest ih =>
      obtain ⟨hsymbol, hrest⟩ := List.forall_mem_cons.mp hsymbols
      obtain ⟨terminals, hfirst⟩ := hsymbol
      obtain ⟨terminals', hlater⟩ := ih hrest
      have hboth := hfirst.append hlater
      rw [← sentence_append] at hboth
      exact ⟨terminals ++ terminals', hboth⟩

theorem Declares.exists_derives
    (hproductive : ∀ n, grammar.Declares (.nonterminal n) → grammar.Productive n)
    {symbol : Symbol} (hdeclared : grammar.Declares symbol) :
    ∃ terminals, grammar.Derives [symbol] (sentence terminals) := by
  cases symbol with
  | terminal t => exact ⟨[t], Relation.ReflTransGen.refl⟩
  | nonterminal n => exact hproductive n hdeclared
  | epsilon => exact hdeclared.elim
  | endMarker => exact hdeclared.elim

/-- An occurrence in a right-hand side takes over the left context of the left-hand side,
once what stands before it has been derived to terminals. -/
theorem LeftContext.inside (hwell : grammar.WellFormed)
    (hproductive : ∀ n, grammar.Declares (.nonterminal n) → grammar.Productive n)
    {production : Production} (hmem : production ∈ grammar.productions)
    {inner rest : List Symbol} (hsplit : production.symbols = inner ++ .nonterminal n :: rest)
    {before : List Terminal} {after : List Symbol}
    (hcontext : grammar.LeftContext before production.lhs after) :
    ∃ before', grammar.LeftContext before' n (rest ++ after) := by
  obtain ⟨ids, hderives⟩ := hcontext
  have hinner : ∀ symbol ∈ inner, ∃ terminals, grammar.Derives [symbol] (sentence terminals) := by
    intro symbol hsymbol
    apply Declares.exists_derives hproductive
    apply hwell.declares_symbols production hmem
    rw [hsplit]
    exact List.mem_append_left _ hsymbol
  obtain ⟨terminals, hterminals⟩ := exists_derives_sentence hinner
  obtain ⟨ids', hspells⟩ := hterminals.exists_spells hwell
  have hexpand : grammar.YieldsLeftmost production.id
      (sentence before ++ .nonterminal production.lhs :: after)
      (sentence before ++ (inner ++ .nonterminal n :: (rest ++ after))) := by
    have hstep := YieldsLeftmost.step (hwell.production?_id production hmem) before after
    simpa only [hsplit, List.append_assoc, List.cons_append] using hstep
  have hfinish : grammar.DerivesLeftmost ids'
      (sentence before ++ (inner ++ .nonterminal n :: (rest ++ after)))
      (sentence (before ++ terminals) ++ .nonterminal n :: (rest ++ after)) := by
    rw [Predictive.sentence_append, List.append_assoc]
    exact (hspells.derivesLeftmost.append_right _).sentence_append before
  exact ⟨before ++ terminals, _, hderives.trans (DerivesLeftmost.head hexpand hfinish)⟩

/-- Every nonterminal that is reached is reached by a leftmost derivation. -/
theorem Reachable.exists_leftContext (hwell : grammar.WellFormed)
    (hproductive : ∀ n, grammar.Declares (.nonterminal n) → grammar.Productive n)
    (hreachable : grammar.Reachable n) :
    ∃ before after, grammar.LeftContext before n after := by
  obtain ⟨left, right, hderives⟩ := hreachable
  suffices hall : ∀ form, grammar.Derives [.nonterminal grammar.start] form →
      ∀ m, .nonterminal m ∈ form → ∃ before after, grammar.LeftContext before m after from
    hall _ hderives n (List.mem_append_right left List.mem_cons_self)
  intro form hform
  induction hform with
  | refl =>
      intro m hm
      obtain rfl : m = grammar.start := by simpa using hm
      exact ⟨[], [], [], DerivesLeftmost.refl _⟩
  | tail _ hstep ih =>
      obtain ⟨hmem, before, after⟩ := hstep
      intro m hm
      rw [List.append_assoc, List.mem_append, List.mem_append] at hm
      rcases hm with hbefore | hnew | hafter
      · exact ih m (List.mem_append_left _ hbefore)
      · obtain ⟨inner, rest, hsplit⟩ := List.append_of_mem hnew
        obtain ⟨outer, below, hcontext⟩ :=
          ih _ (List.mem_append_right before List.mem_cons_self)
        obtain ⟨outer', hinside⟩ := hcontext.inside hwell hproductive hmem hsplit
        exact ⟨outer', _, hinside⟩
      · exact ih m (List.mem_append_right before (List.mem_cons_of_mem _ hafter))

/-- What follows a nonterminal follows it in some left context. -/
theorem Follows.exists_leftContext (hwell : grammar.WellFormed)
    (hproductive : ∀ n, grammar.Declares (.nonterminal n) → grammar.Productive n)
    (hreachable : ∀ n, grammar.Declares (.nonterminal n) → grammar.Reachable n)
    (hfollows : grammar.Follows lookahead n) :
    ∃ before after, grammar.LeftContext before n after ∧
      grammar.Begins lookahead (after ++ [.endMarker]) := by
  induction hfollows with
  | start hend =>
      rw [hend]
      exact ⟨[], [], ⟨[], DerivesLeftmost.refl _⟩, Begins.symbol []⟩
  | @first production n inner rest hmem hsplit hbegins =>
      have hlhs := hreachable _ (hwell.declares_lhs production hmem)
      obtain ⟨before, after, hcontext⟩ := hlhs.exists_leftContext hwell hproductive
      obtain ⟨before', hinside⟩ := hcontext.inside hwell hproductive hmem hsplit
      refine ⟨before', rest ++ after, hinside, ?_⟩
      rw [List.append_assoc]
      exact hbegins.append_right _
  | @inherit production n inner rest hmem hsplit herasable _ ih =>
      obtain ⟨before, after, hcontext, hbegins⟩ := ih
      obtain ⟨before', hinside⟩ := hcontext.inside hwell hproductive hmem hsplit
      refine ⟨before', rest ++ after, hinside, ?_⟩
      rw [List.append_assoc]
      exact herasable.begins_append hbegins

theorem Predicts.begins_append {production : Production} {below : List Symbol}
    (hpredicts : grammar.Predicts lookahead production)
    (hbelow : grammar.Begins lookahead below) :
    grammar.Begins lookahead (production.symbols ++ below) :=
  begins_append_iff.mpr (hpredicts.imp_right fun hboth => ⟨hboth.1, hbelow⟩)

/-- Two productions that clash in the table clash in some left context. -/
theorem exists_undecided (hwell : grammar.WellFormed)
    (hproductive : ∀ n, grammar.Declares (.nonterminal n) → grammar.Productive n)
    (hreachable : ∀ n, grammar.Declares (.nonterminal n) → grammar.Reachable n)
    {left right : Production} (hleft : left ∈ grammar.productions)
    (hright : right ∈ grammar.productions) (hlhs : left.lhs = right.lhs)
    (hid : left.id ≠ right.id) (hpredicts : grammar.Predicts lookahead left)
    (hpredicts' : grammar.Predicts lookahead right) :
    ∃ before after, grammar.Undecided before after lookahead left right := by
  obtain ⟨before, after, hcontext, hbegins, hbegins'⟩ :
      ∃ before after, grammar.LeftContext before left.lhs after ∧
        grammar.Begins lookahead (left.symbols ++ (after ++ [.endMarker])) ∧
        grammar.Begins lookahead (right.symbols ++ (after ++ [.endMarker])) := by
    by_cases hfollows : grammar.Follows lookahead left.lhs
    · obtain ⟨before, after, hcontext, hbelow⟩ :=
        hfollows.exists_leftContext hwell hproductive hreachable
      exact ⟨before, after, hcontext, hpredicts.begins_append hbelow,
        hpredicts'.begins_append hbelow⟩
    · have hfirst := hpredicts.resolve_right fun hboth => hfollows hboth.2
      have hfirst' := hpredicts'.resolve_right fun hboth => hfollows (hlhs ▸ hboth.2)
      have hlhsReachable := hreachable _ (hwell.declares_lhs left hleft)
      obtain ⟨before, after, hcontext⟩ :=
        hlhsReachable.exists_leftContext hwell hproductive
      exact ⟨before, after, hcontext, hfirst.append_right _, hfirst'.append_right _⟩
  exact ⟨before, after, hleft, hright, hlhs, hid, hcontext,
    (begins_iff_derives hwell).mp hbegins, (begins_iff_derives hwell).mp hbegins'⟩

/-- In a left context nothing comes after the nonterminal but what follows it. -/
theorem LeftContext.followed {before : List Terminal} {after : List Symbol}
    (hcontext : grammar.LeftContext before n after) :
    grammar.Followed (.nonterminal n :: (after ++ [.endMarker])) := by
  obtain ⟨ids, hderives⟩ := hcontext
  have hfollowed := (hderives.derives.append_right [.endMarker]).followed followed_start
  rw [List.append_assoc] at hfollowed
  exact hfollowed.of_append

/-- Where no productions clash in the table, none clash in a left context. -/
theorem Unrivalled.not_undecided (hwell : grammar.WellFormed)
    (hunrivalled : grammar.Unrivalled) {before : List Terminal} {after : List Symbol}
    {left right : Production} : ¬ grammar.Undecided before after lookahead left right := by
  intro hundecided
  have hfollowed := hundecided.context.followed
  have hpredicts : grammar.Predicts lookahead left :=
    hfollowed.predicts ((begins_iff_derives hwell).mpr hundecided.left_derives)
  rw [hundecided.lhs_eq] at hfollowed
  have hpredicts' : grammar.Predicts lookahead right :=
    hfollowed.predicts ((begins_iff_derives hwell).mpr hundecided.right_derives)
  exact hundecided.id_ne (hunrivalled left hundecided.left_mem right hundecided.right_mem
    hundecided.lhs_eq lookahead hpredicts hpredicts')

/-- What stands in a right-hand side is reached with the left-hand side. -/
theorem Reachable.inside {production : Production} (hmem : production ∈ grammar.productions)
    (hreachable : grammar.Reachable production.lhs)
    (hn : .nonterminal n ∈ production.symbols) : grammar.Reachable n := by
  obtain ⟨before, after, hderives⟩ := hreachable
  obtain ⟨inner, rest, hsplit⟩ := List.append_of_mem hn
  have hstep := hderives.tail (Yields.step hmem before after)
  rw [hsplit, List.append_assoc, List.append_assoc, List.cons_append,
    ← List.append_assoc] at hstep
  exact ⟨before ++ inner, rest ++ after, hstep⟩

theorem productive_lhs {production : Production} (hmem : production ∈ grammar.productions)
    (hsymbols : ∀ symbol ∈ production.symbols,
      ∃ terminals, grammar.Derives [symbol] (sentence terminals)) :
    grammar.Productive production.lhs := by
  obtain ⟨terminals, hderives⟩ := exists_derives_sentence hsymbols
  exact ⟨terminals, hderives.head (yields_symbols hmem)⟩

theorem nonterminals_expressions : expressions.nonterminals = [⟨0⟩, ⟨1⟩, ⟨2⟩, ⟨3⟩, ⟨4⟩] := by
  decide +kernel

theorem productions_expressions : expressions.productions =
    [⟨⟨0⟩, ⟨0⟩, [.nonterminal ⟨2⟩, .nonterminal ⟨1⟩]⟩,
      ⟨⟨1⟩, ⟨1⟩, [.terminal ⟨0⟩, .nonterminal ⟨2⟩, .nonterminal ⟨1⟩]⟩, ⟨⟨2⟩, ⟨1⟩, [.epsilon]⟩,
      ⟨⟨3⟩, ⟨2⟩, [.nonterminal ⟨4⟩, .nonterminal ⟨3⟩]⟩,
      ⟨⟨4⟩, ⟨3⟩, [.terminal ⟨1⟩, .nonterminal ⟨4⟩, .nonterminal ⟨3⟩]⟩, ⟨⟨5⟩, ⟨3⟩, [.epsilon]⟩,
      ⟨⟨6⟩, ⟨4⟩, [.terminal ⟨2⟩, .nonterminal ⟨0⟩, .terminal ⟨3⟩]⟩,
      ⟨⟨7⟩, ⟨4⟩, [.terminal ⟨4⟩]⟩] := by
  decide +kernel

theorem reachable_expressions (n : NonTerminal)
    (hn : expressions.Declares (.nonterminal n)) : expressions.Reachable n := by
  have hinside : ∀ production ∈ expressions.productions,
      expressions.Reachable production.lhs → ∀ m, .nonterminal m ∈ production.symbols →
        expressions.Reachable m :=
    fun _ hmem hreachable _ hm => hreachable.inside hmem hm
  rw [productions_expressions] at hinside
  simp only [List.forall_mem_cons] at hinside
  obtain ⟨hsum, _, _, hproduct, _⟩ := hinside
  have hE : expressions.Reachable ⟨0⟩ := ⟨[], [], Relation.ReflTransGen.refl⟩
  have hT := hsum hE ⟨2⟩ (by decide)
  have hX := hsum hE ⟨1⟩ (by decide)
  have hF := hproduct hT ⟨4⟩ (by decide)
  have hY := hproduct hT ⟨3⟩ (by decide)
  have hall : ∀ m ∈ expressions.nonterminals, expressions.Reachable m := by
    rw [nonterminals_expressions]
    simp [hE, hX, hT, hY, hF]
  exact hall n (mem_nonterminals hn)

theorem productive_expressions (n : NonTerminal)
    (hn : expressions.Declares (.nonterminal n)) : expressions.Productive n := by
  have hlhs : ∀ production ∈ expressions.productions,
      (∀ symbol ∈ production.symbols,
        ∃ terminals, expressions.Derives [symbol] (sentence terminals)) →
      expressions.Productive production.lhs :=
    fun _ hmem hsymbols => productive_lhs hmem hsymbols
  have hsingle : ∃ terminals, expressions.Derives [.terminal ⟨4⟩] (sentence terminals) :=
    ⟨[⟨4⟩], Relation.ReflTransGen.refl⟩
  rw [productions_expressions] at hlhs
  simp only [List.forall_mem_cons] at hlhs
  obtain ⟨hsum, _, hnoSum, hproduct, _, hnoProduct, _, hletter, _⟩ := hlhs
  have hF : expressions.Productive ⟨4⟩ :=
    hletter (List.forall_mem_cons.mpr ⟨hsingle, List.forall_mem_nil _⟩)
  have hY : expressions.Productive ⟨3⟩ := hnoProduct (List.forall_mem_nil _)
  have hX : expressions.Productive ⟨1⟩ := hnoSum (List.forall_mem_nil _)
  have hT : expressions.Productive ⟨2⟩ :=
    hproduct (List.forall_mem_cons.mpr ⟨hF, List.forall_mem_cons.mpr ⟨hY, List.forall_mem_nil _⟩⟩)
  have hE : expressions.Productive ⟨0⟩ :=
    hsum (List.forall_mem_cons.mpr ⟨hT, List.forall_mem_cons.mpr ⟨hX, List.forall_mem_nil _⟩⟩)
  have hall : ∀ m ∈ expressions.nonterminals, expressions.Productive m := by
    rw [nonterminals_expressions]
    simp [hE, hX, hT, hY, hF]
  exact hall n (mem_nonterminals hn)

end Grammar

variable {grammar : Grammar}

theorem Table.Decides.unrivalled {table : Table} (hdecides : table.Decides grammar) :
    grammar.Unrivalled := by
  intro left hleft right hright hlhs lookahead hpredicts hpredicts'
  have hcell := hdecides left hleft lookahead hpredicts
  rw [hlhs, hdecides right hright lookahead hpredicts'] at hcell
  exact (Option.some.inj hcell).symm

namespace Analysis

/-- In a grammar of reachable and productive nonterminals, there are no conflicts exactly
if no left context leaves it open which of two productions comes next. -/
theorem isLl1_iff_not_undecided (hfinished : grammar.Finished)
    (hreachable : ∀ n, grammar.Declares (.nonterminal n) → grammar.Reachable n)
    (hproductive : ∀ n, grammar.Declares (.nonterminal n) → grammar.Productive n)
    (policy : ConflictPolicy) :
    ∃ analysis, ofGrammar? grammar policy = some analysis ∧
      (analysis.table.isLl1 = true ↔ ∀ before after lookahead left right,
        ¬ grammar.Undecided before after lookahead left right) := by
  have hwell := hfinished.wellFormed
  obtain ⟨analysis, hanalysis, _, _, hdecides, hunrivalled⟩ := ofGrammar?_exact hwell policy
  refine ⟨analysis, hanalysis, ?_⟩
  constructor
  · intro hll1 before after lookahead left right
    exact (hdecides hll1).unrivalled.not_undecided hwell
  · intro hnone
    apply hunrivalled
    intro left hleft right hright hlhs lookahead hpredicts hpredicts'
    by_contra hid
    obtain ⟨before, after, hundecided⟩ := Grammar.exists_undecided hwell hproductive hreachable
      hleft hright hlhs hid hpredicts hpredicts'
    exact hnone before after lookahead left right hundecided

/-- In no left context do expressions leave it open how to go on. -/
theorem isLl1_iff_not_undecided_expressions :
    Grammar.expressions.Finished ∧
    (∀ n, Grammar.expressions.Declares (.nonterminal n) → Grammar.expressions.Reachable n) ∧
    (∀ n, Grammar.expressions.Declares (.nonterminal n) → Grammar.expressions.Productive n) ∧
    ∃ analysis, ofGrammar? .expressions .firstWins = some analysis ∧
      analysis.table.isLl1 = true ∧ ∀ before after lookahead left right,
        ¬ Grammar.expressions.Undecided before after lookahead left right := by
  obtain ⟨analysis, hanalysis, hiff⟩ :=
    isLl1_iff_not_undecided Grammar.finished_expressions Grammar.reachable_expressions
      Grammar.productive_expressions .firstWins
  have hll1 := isLl1_expressions hanalysis
  exact ⟨Grammar.finished_expressions, Grammar.reachable_expressions,
    Grammar.productive_expressions, analysis, hanalysis, hll1, hiff.mp hll1⟩

end Analysis

end Predictive
