import Predictive.Proofs.Language
import Predictive.Proofs.LeftContext
import Predictive.Proofs.LeftCorner

/-!
Left recursion shows as a conflict.  Without conflicts the machine has no choice: under a
lookahead that begins the stack, a nonterminal on top gives way to every nonterminal that
it exposes, as long as the lookahead still begins the stack then.  Around a cycle of
exposures there is a lookahead for which that is so at every step, a terminal that begins
the nonterminals of the cycle or, if they derive the empty string only, whatever comes
after them.  The machine would go round for ever without consuming it.
-/

namespace Predictive

namespace Grammar

/-- The inner nonterminal comes to the front of a right-hand side of the outer one, and
begins whatever lies below with a lookahead that the outer one begins it with. -/
def GivesWay (grammar : Grammar) (lookahead : Lookahead) (outer inner : NonTerminal) : Prop :=
  ∃ production ∈ grammar.productions, ∃ before after, production.lhs = outer ∧
    production.symbols = before ++ .nonterminal inner :: after ∧ grammar.Erasable before ∧
    ∀ below, grammar.Begins lookahead (.nonterminal outer :: below) →
      grammar.Begins lookahead (.nonterminal inner :: (after ++ below))

/-- No terminal begins the string. -/
def Silent (grammar : Grammar) (symbols : List Symbol) : Prop :=
  ∀ t, ¬ grammar.Begins (.terminal t) symbols

variable {grammar : Grammar} {lookahead : Lookahead} {n outer inner : NonTerminal}

theorem Fronts.exists_split {symbols : List Symbol} (hfronts : grammar.Fronts n symbols) :
    ∃ before after, symbols = before ++ .nonterminal n :: after ∧ grammar.Erasable before := by
  induction symbols with
  | nil => exact hfronts.elim
  | cons symbol rest ih =>
      rcases hfronts with hsymbol | ⟨herasable, hrest⟩
      · exact ⟨[], rest, hsymbol ▸ rfl, Erasable.nil⟩
      · obtain ⟨before, after, hsplit, hbefore⟩ := ih hrest
        refine ⟨symbol :: before, after, by rw [hsplit, List.cons_append], ?_⟩
        exact erasable_cons_iff.mpr ⟨herasable, hbefore⟩

theorem Exposes.exists_split (hexposes : grammar.Exposes outer inner) :
    ∃ production ∈ grammar.productions, ∃ before after, production.lhs = outer ∧
      production.symbols = before ++ .nonterminal inner :: after ∧
      grammar.Erasable before := by
  obtain ⟨production, hmem, hlhs, hfronts⟩ := hexposes
  obtain ⟨before, after, hsplit, hbefore⟩ := hfronts.exists_split
  exact ⟨production, hmem, before, after, hlhs, hsplit, hbefore⟩

/-- What begins an exposed nonterminal begins the one that exposes it. -/
theorem Exposes.begins (hexposes : grammar.Exposes outer inner)
    (hbegins : grammar.Begins lookahead [.nonterminal inner]) :
    grammar.Begins lookahead [.nonterminal outer] := by
  obtain ⟨production, hmem, before, after, rfl, hsplit, hbefore⟩ := hexposes.exists_split
  have hinner := hbefore.begins_append (hbegins.append_right after)
  apply Begins.expand hmem
  rwa [hsplit]

theorem Exposes.givesWay (hexposes : grammar.Exposes outer inner)
    (hbegins : grammar.Begins lookahead [.nonterminal inner]) :
    grammar.GivesWay lookahead outer inner := by
  obtain ⟨production, hmem, before, after, hlhs, hsplit, hbefore⟩ := hexposes.exists_split
  exact ⟨production, hmem, before, after, hlhs, hsplit, hbefore,
    fun below _ => hbegins.append_right (after ++ below)⟩

/-- All along a chain of exposures nonterminals give way under what begins the last one. -/
theorem transGen_givesWay_of_begins (hchain : Relation.TransGen grammar.Exposes outer inner)
    (hbegins : grammar.Begins lookahead [.nonterminal inner]) :
    Relation.TransGen (grammar.GivesWay lookahead) outer inner := by
  suffices hboth : Relation.TransGen (grammar.GivesWay lookahead) outer inner ∧
      grammar.Begins lookahead [.nonterminal outer] from hboth.1
  induction hchain using Relation.TransGen.head_induction_on with
  | single hexposes =>
      exact ⟨Relation.TransGen.single (hexposes.givesWay hbegins), hexposes.begins hbegins⟩
  | head hexposes _ ih =>
      obtain ⟨hlater, hmiddle⟩ := ih
      exact ⟨hlater.head (hexposes.givesWay hmiddle), hexposes.begins hmiddle⟩

theorem Silent.of_erasable_append {left right : List Symbol}
    (hsilent : grammar.Silent (left ++ right)) (herasable : grammar.Erasable left) :
    grammar.Silent right :=
  fun t hbegins => hsilent t (herasable.begins_append hbegins)

theorem Silent.of_append {left right : List Symbol}
    (hsilent : grammar.Silent (left ++ right)) : grammar.Silent left :=
  fun t hbegins => hsilent t (hbegins.append_right right)

theorem Silent.symbols {production : Production} (hmem : production ∈ grammar.productions)
    (hsilent : grammar.Silent [.nonterminal production.lhs]) :
    grammar.Silent production.symbols :=
  fun t hbegins => hsilent t (hbegins.expand hmem [])

/-- What derives terminals, but none that it begins with, can be erased. -/
theorem Silent.erasable (hwell : grammar.WellFormed) {symbols : List Symbol}
    (hsilent : grammar.Silent symbols)
    (hderives : ∃ terminals, grammar.Derives symbols (sentence terminals)) :
    grammar.Erasable symbols := by
  obtain ⟨terminals, hterminals⟩ := hderives
  obtain ⟨ids, hspells⟩ := hterminals.exists_spells hwell
  cases terminals with
  | nil => exact hspells.erasable
  | cons t rest => exact absurd hspells.begins (hsilent t)

/-- What a silent nonterminal exposes is silent, and gives it back the lookahead of
whatever lies below. -/
theorem Exposes.givesWay_of_silent (hwell : grammar.WellFormed)
    (hproductive : ∀ n, grammar.Declares (.nonterminal n) → grammar.Productive n)
    (hexposes : grammar.Exposes outer inner) (hsilent : grammar.Silent [.nonterminal outer]) :
    grammar.GivesWay lookahead outer inner ∧ grammar.Silent [.nonterminal inner] := by
  obtain ⟨production, hmem, before, after, rfl, hsplit, hbefore⟩ := hexposes.exists_split
  have hsymbols := hsilent.symbols hmem
  rw [hsplit] at hsymbols
  have hrest : grammar.Silent (.nonterminal inner :: after) :=
    hsymbols.of_erasable_append hbefore
  have hinner : grammar.Silent [.nonterminal inner] :=
    @Silent.of_append grammar [.nonterminal inner] after hrest
  refine ⟨⟨production, hmem, before, after, rfl, hsplit, hbefore, ?_⟩, hinner⟩
  have hderives : ∃ terminals, grammar.Derives (.nonterminal inner :: after)
      (sentence terminals) := by
    apply exists_derives_sentence
    intro symbol hsymbol
    apply Declares.exists_derives hproductive
    apply hwell.declares_symbols production hmem
    rw [hsplit]
    exact List.mem_append_right before hsymbol
  have herasable := hrest.erasable hwell hderives
  intro below hbegins
  rcases begins_cons_iff.mp hbegins with houter | ⟨_, hbelow⟩
  · cases lookahead with
    | terminal t => exact absurd houter (hsilent t)
    | endMarker =>
        have hdeclared : ∀ symbol ∈ [Symbol.nonterminal production.lhs],
            grammar.Declares symbol := by
          intro symbol hsymbol
          rw [List.mem_singleton.mp hsymbol]
          exact hwell.declares_lhs production hmem
        exact absurd houter (hwell.not_begins_endMarker hdeclared)
  · exact herasable.begins_append hbelow

theorem transGen_givesWay_of_silent (hwell : grammar.WellFormed)
    (hproductive : ∀ n, grammar.Declares (.nonterminal n) → grammar.Productive n)
    (hchain : Relation.TransGen grammar.Exposes outer inner)
    (hsilent : grammar.Silent [.nonterminal outer]) :
    Relation.TransGen (grammar.GivesWay lookahead) outer inner := by
  suffices hboth : Relation.TransGen (grammar.GivesWay lookahead) outer inner ∧
      grammar.Silent [.nonterminal inner] from hboth.1
  induction hchain with
  | single hexposes =>
      obtain ⟨hgives, hinner⟩ := hexposes.givesWay_of_silent hwell hproductive hsilent
      exact ⟨Relation.TransGen.single hgives, hinner⟩
  | tail _ hexposes ih =>
      obtain ⟨hearlier, hmiddle⟩ := ih
      obtain ⟨hgives, hinner⟩ := hexposes.givesWay_of_silent hwell hproductive hmiddle
      exact ⟨hearlier.tail hgives, hinner⟩

/-- A derivation goes from the grammar's symbols to the grammar's symbols. -/
theorem Derives.declares (hwell : grammar.WellFormed) {first last : List Symbol}
    (hderives : grammar.Derives first last)
    (hfirst : ∀ symbol ∈ first, grammar.Declares symbol) :
    ∀ symbol ∈ last, grammar.Declares symbol := by
  induction hderives with
  | refl => exact hfirst
  | tail _ hstep ih =>
      obtain ⟨hmem, before, after⟩ := hstep
      intro symbol hsymbol
      rw [List.append_assoc, List.mem_append, List.mem_append] at hsymbol
      rcases hsymbol with hbefore | hnew | hafter
      · exact ih symbol (List.mem_append_left _ hbefore)
      · exact hwell.declares_symbols _ hmem symbol hnew
      · exact ih symbol (List.mem_append_right before (List.mem_cons_of_mem _ hafter))

/-- What comes after a nonterminal in a left context derives terminals. -/
theorem LeftContext.exists_derives_after (hwell : grammar.WellFormed)
    (hproductive : ∀ n, grammar.Declares (.nonterminal n) → grammar.Productive n)
    {before : List Terminal} {after : List Symbol}
    (hcontext : grammar.LeftContext before n after) :
    ∃ terminals, grammar.Derives after (sentence terminals) := by
  obtain ⟨ids, hderives⟩ := hcontext
  apply exists_derives_sentence
  intro symbol hsymbol
  apply Declares.exists_derives hproductive
  apply hderives.derives.declares hwell
  · intro first hfirst
    rw [List.mem_singleton.mp hfirst]
    exact hwell.declares_start
  · exact List.mem_append_right _ (List.mem_cons_of_mem _ hsymbol)

theorem LeftRecursive.declares (hwell : grammar.WellFormed)
    (hrecursive : grammar.LeftRecursive n) : grammar.Declares (.nonterminal n) := by
  have hcycle := (leftRecursive_iff hwell).mp hrecursive
  obtain ⟨_, ⟨production, hmem, rfl, _⟩, _⟩ := Relation.TransGen.head'_iff.mp hcycle
  exact hwell.declares_lhs production hmem

/-- In its left context a left-recursive nonterminal gives way to itself under some
lookahead that begins the stack. -/
theorem LeftRecursive.exists_givesWay (hwell : grammar.WellFormed)
    (hproductive : ∀ n, grammar.Declares (.nonterminal n) → grammar.Productive n)
    (hrecursive : grammar.LeftRecursive n) {before : List Terminal} {after : List Symbol}
    (hcontext : grammar.LeftContext before n after) :
    ∃ lookahead, Relation.TransGen (grammar.GivesWay lookahead) n n ∧
      grammar.Begins lookahead (.nonterminal n :: (after ++ [.endMarker])) := by
  have hcycle := (leftRecursive_iff hwell).mp hrecursive
  by_cases hspeaks : ∃ t, grammar.Begins (.terminal t) [.nonterminal n]
  · obtain ⟨t, hbegins⟩ := hspeaks
    exact ⟨.terminal t, transGen_givesWay_of_begins hcycle hbegins, hbegins.append_right _⟩
  · have hsilent : grammar.Silent [.nonterminal n] := not_exists.mp hspeaks
    have herasable := hsilent.erasable hwell (hproductive n (hrecursive.declares hwell))
    obtain ⟨terminals, hderives⟩ := hcontext.exists_derives_after hwell hproductive
    obtain ⟨ids, hspells⟩ := hderives.exists_spells hwell
    have hinput : 0 < (Parser.inputOf ([] ++ terminals)).length := by simp [Parser.inputOf]
    have hbegins := hspells.begins_bottom (List.getElem?_eq_getElem hinput)
    exact ⟨_, transGen_givesWay_of_silent hwell hproductive hcycle hsilent,
      herasable.begins_append hbegins⟩

/-- Under a lookahead that begins what comes after it, an erasable string has only
nonterminals that the lookahead follows. -/
theorem Followed.follows_of_erasable {before rest : List Symbol}
    (hfollowed : grammar.Followed (before ++ rest)) (herasable : grammar.Erasable before)
    (hbegins : grammar.Begins lookahead rest) :
    ∀ n, .nonterminal n ∈ before → grammar.Follows lookahead n := by
  induction herasable with
  | nil => simp
  | @cons production later _ _ hlater _ ih =>
      intro n hn
      rcases List.mem_cons.mp hn with hsame | hinner
      · obtain rfl := Symbol.nonterminal.inj hsame
        exact hfollowed.1 lookahead (hlater.begins_append hbegins)
      · exact ih hfollowed.2 n hinner

end Grammar

namespace Parser

namespace Ll1

variable {parser : Parser} {input : List Lookahead} {lookahead : Lookahead}
  {position : Nat} {n outer inner : NonTerminal} {below : List Symbol}

/-- The machine brings the inner nonterminal to the top of the stack. -/
theorem givesWay_moves (hll1 : parser.Ll1) (hlookahead : input[position]? = some lookahead)
    (hgives : parser.grammar.GivesWay lookahead outer inner)
    (hfollowed : parser.grammar.Followed (.nonterminal outer :: below))
    (hbegins : parser.grammar.Begins lookahead (.nonterminal outer :: below)) :
    ∃ steps after, parser.Moves input ⟨.nonterminal outer :: below, position⟩ steps
        ⟨.nonterminal inner :: after, position⟩ ∧ 0 < steps.length ∧
      parser.grammar.Begins lookahead (.nonterminal inner :: after) := by
  obtain ⟨production, hmem, before, after, rfl, hsplit, hbefore, hkeeps⟩ := hgives
  have hnext := hkeeps below hbegins
  have hwhole : production.symbols ++ below =
      before ++ .nonterminal inner :: (after ++ below) := by
    rw [hsplit, List.append_assoc, List.cons_append]
  have hsymbols : parser.grammar.Begins lookahead (production.symbols ++ below) := by
    rw [hwhole]
    exact hbefore.begins_append hnext
  have hgoes := hll1.goes_expand hmem (hfollowed.predicts hsymbols) hlookahead below
  have hfollows := hfollowed.expand hmem
  rw [hwhole] at hgoes hfollows
  obtain ⟨ids, hspells⟩ := hbefore.exists_spells hll1.wellFormed
  obtain ⟨steps, hmoves, _⟩ := hll1.erase_moves hspells hlookahead
    (hfollows.follows_of_erasable hbefore hnext) (.nonterminal inner :: (after ++ below))
  exact ⟨_, after ++ below, Moves.head hgoes hmoves, Nat.succ_pos _, hnext⟩

theorem transGen_givesWay_moves (hll1 : parser.Ll1)
    (hlookahead : input[position]? = some lookahead)
    (hchain : Relation.TransGen (parser.grammar.GivesWay lookahead) outer inner)
    (hfollowed : parser.grammar.Followed (.nonterminal outer :: below))
    (hbegins : parser.grammar.Begins lookahead (.nonterminal outer :: below)) :
    ∃ steps after, parser.Moves input ⟨.nonterminal outer :: below, position⟩ steps
        ⟨.nonterminal inner :: after, position⟩ ∧ 0 < steps.length ∧
      parser.grammar.Begins lookahead (.nonterminal inner :: after) := by
  induction hchain with
  | single hgives => exact hll1.givesWay_moves hlookahead hgives hfollowed hbegins
  | tail _ hgives ih =>
      obtain ⟨steps, after, hmoves, hsome, hmiddle⟩ := ih
      have hfollowed' := hmoves.followed hll1.sound hfollowed
      obtain ⟨steps', after', hmoves', _, hlast⟩ :=
        hll1.givesWay_moves hlookahead hgives hfollowed' hmiddle
      refine ⟨steps ++ steps', after', hmoves.trans hmoves', ?_, hlast⟩
      rw [List.length_append]
      omega

/-- A nonterminal that gives way to itself comes back to the top of the stack as often as
one likes. -/
theorem exists_moves_of_cycle (hll1 : parser.Ll1)
    (hlookahead : input[position]? = some lookahead)
    (hcycle : Relation.TransGen (parser.grammar.GivesWay lookahead) n n)
    (hfollowed : parser.grammar.Followed (.nonterminal n :: below))
    (hbegins : parser.grammar.Begins lookahead (.nonterminal n :: below)) (count : Nat) :
    ∃ steps after, parser.Moves input ⟨.nonterminal n :: below, position⟩ steps
        ⟨.nonterminal n :: after, position⟩ ∧ count ≤ steps.length ∧
      parser.grammar.Begins lookahead (.nonterminal n :: after) := by
  induction count with
  | zero => exact ⟨[], below, Moves.refl _, Nat.zero_le _, hbegins⟩
  | succ count ih =>
      obtain ⟨steps, after, hmoves, hcount, hagain⟩ := ih
      have hfollowed' := hmoves.followed hll1.sound hfollowed
      obtain ⟨steps', after', hmoves', hsome, hlast⟩ :=
        hll1.transGen_givesWay_moves hlookahead hcycle hfollowed' hagain
      refine ⟨steps ++ steps', after', hmoves.trans hmoves', ?_, hlast⟩
      rw [List.length_append]
      omega

/-- Since every run without conflicts ends, no nonterminal gives way to itself. -/
theorem not_transGen_givesWay (hll1 : parser.Ll1)
    (hfollowed : parser.grammar.Followed (.nonterminal n :: below))
    (hbegins : parser.grammar.Begins lookahead (.nonterminal n :: below)) :
    ¬ Relation.TransGen (parser.grammar.GivesWay lookahead) n n := by
  intro hcycle
  have hlookahead : [lookahead][0]? = some lookahead := rfl
  obtain ⟨cost, hcost⟩ := Grammar.exists_erasesWithin hll1.wellFormed
  obtain ⟨steps, last, ending, hmoves, hstops, _⟩ :=
    @haltsWithin parser [lookahead] 0 cost hll1 hcost _ hfollowed
  obtain ⟨steps', after, hmoves', hlonger, _⟩ :=
    hll1.exists_moves_of_cycle hlookahead hcycle hfollowed hbegins (steps.length + 1)
  obtain ⟨rest, hsteps, _⟩ := hmoves.exists_rest hstops hmoves'
  rw [hsteps, List.length_append] at hlonger
  omega

end Ll1

end Parser

namespace Grammar

/-- S is x, or another S with b after it and, perhaps, a before it. -/
def hiddenRecursionRules : Draft := .ofRules
  [("S", [["A", "S", "b"], ["x"]]), ("A", [["a"], []])]

def hiddenRecursion : Grammar := hiddenRecursionRules.resolve "S"

theorem finished_hiddenRecursion : hiddenRecursion.Finished where
  finish_eq := ⟨hiddenRecursionRules, "S", by decide +kernel⟩
  productions_lt := by decide +kernel
  nonterminals_lt := by decide +kernel
  terminals_lt := by decide +kernel

theorem productions_hiddenRecursion : hiddenRecursion.productions =
    [⟨⟨0⟩, ⟨0⟩, [.nonterminal ⟨1⟩, .nonterminal ⟨0⟩, .terminal ⟨0⟩]⟩,
      ⟨⟨1⟩, ⟨0⟩, [.terminal ⟨1⟩]⟩, ⟨⟨2⟩, ⟨1⟩, [.terminal ⟨2⟩]⟩, ⟨⟨3⟩, ⟨1⟩, [.epsilon]⟩] := by
  decide +kernel

theorem nonterminals_hiddenRecursion : hiddenRecursion.nonterminals = [⟨0⟩, ⟨1⟩] := by
  decide +kernel

theorem reachable_hiddenRecursion (n : NonTerminal)
    (hn : hiddenRecursion.Declares (.nonterminal n)) : hiddenRecursion.Reachable n := by
  have hS : hiddenRecursion.Reachable ⟨0⟩ := ⟨[], [], Relation.ReflTransGen.refl⟩
  have hA : hiddenRecursion.Reachable ⟨1⟩ := by
    have hmem : (⟨⟨0⟩, ⟨0⟩, [.nonterminal ⟨1⟩, .nonterminal ⟨0⟩, .terminal ⟨0⟩]⟩ : Production) ∈
        hiddenRecursion.productions := by
      rw [productions_hiddenRecursion]
      exact List.mem_cons_self
    exact Reachable.inside hmem hS (by decide)
  have hmem := mem_nonterminals hn
  rw [nonterminals_hiddenRecursion] at hmem
  simp only [List.mem_cons, List.not_mem_nil, or_false] at hmem
  rcases hmem with rfl | rfl
  · exact hS
  · exact hA

theorem productive_hiddenRecursion (n : NonTerminal)
    (hn : hiddenRecursion.Declares (.nonterminal n)) : hiddenRecursion.Productive n := by
  have hlhs : ∀ production ∈ hiddenRecursion.productions,
      (∀ symbol ∈ production.symbols,
        ∃ terminals, hiddenRecursion.Derives [symbol] (sentence terminals)) →
      hiddenRecursion.Productive production.lhs :=
    fun _ hmem hsymbols => productive_lhs hmem hsymbols
  have hsingle : ∃ terminals, hiddenRecursion.Derives [.terminal ⟨1⟩] (sentence terminals) :=
    ⟨[⟨1⟩], Relation.ReflTransGen.refl⟩
  rw [productions_hiddenRecursion] at hlhs
  simp only [List.forall_mem_cons] at hlhs
  obtain ⟨_, hx, _, hnone, _⟩ := hlhs
  have hS : hiddenRecursion.Productive ⟨0⟩ :=
    hx (List.forall_mem_cons.mpr ⟨hsingle, List.forall_mem_nil _⟩)
  have hA : hiddenRecursion.Productive ⟨1⟩ := hnone (List.forall_mem_nil _)
  have hmem := mem_nonterminals hn
  rw [nonterminals_hiddenRecursion] at hmem
  simp only [List.mem_cons, List.not_mem_nil, or_false] at hmem
  rcases hmem with rfl | rfl
  · exact hS
  · exact hA

/-- The recursion is hidden behind a nonterminal that may be erased. -/
theorem leftRecursive_hiddenRecursion :
    hiddenRecursion.LeftRecursive hiddenRecursion.start := by
  have hrecursive : (⟨⟨0⟩, ⟨0⟩, [.nonterminal ⟨1⟩, .nonterminal ⟨0⟩, .terminal ⟨0⟩]⟩ :
      Production) ∈ hiddenRecursion.productions := by
    rw [productions_hiddenRecursion]
    decide
  have hempty : (⟨⟨3⟩, ⟨1⟩, [.epsilon]⟩ : Production) ∈ hiddenRecursion.productions := by
    rw [productions_hiddenRecursion]
    decide
  have herasable : hiddenRecursion.Erasable [.nonterminal ⟨1⟩] :=
    Erasable.cons hempty Erasable.nil Erasable.nil
  have hexposes : hiddenRecursion.Exposes ⟨0⟩ ⟨0⟩ :=
    ⟨_, hrecursive, rfl, Or.inr ⟨herasable, Or.inl rfl⟩⟩
  exact (leftRecursive_iff finished_hiddenRecursion.wellFormed).mpr
    (Relation.TransGen.single hexposes)

end Grammar

namespace Analysis

variable {grammar : Grammar}

/-- In a grammar of reachable and productive nonterminals, left recursion makes for a
conflict, whatever the policy. -/
theorem conflicts_ne_nil_of_leftRecursive (hfinished : grammar.Finished)
    (hreachable : ∀ n, grammar.Declares (.nonterminal n) → grammar.Reachable n)
    (hproductive : ∀ n, grammar.Declares (.nonterminal n) → grammar.Productive n)
    {n : NonTerminal} (hrecursive : grammar.LeftRecursive n) (policy : ConflictPolicy) :
    ∃ analysis, ofGrammar? grammar policy = some analysis ∧ analysis.table.conflicts ≠ [] := by
  have hwell := hfinished.wellFormed
  obtain ⟨analysis, hanalysis, rfl, hparser⟩ := exists_ll1 hfinished policy
  refine ⟨analysis, hanalysis, ?_⟩
  intro hnone
  have hll1 := hparser (List.isEmpty_iff.mpr hnone) .auto
  have hreached := hreachable n (hrecursive.declares hwell)
  obtain ⟨before, after, hcontext⟩ := hreached.exists_leftContext hwell hproductive
  obtain ⟨lookahead, hgives, hbegins⟩ :=
    hrecursive.exists_givesWay hwell hproductive hcontext
  exact hll1.not_transGen_givesWay hcontext.followed hbegins hgives

/-- Recursion behind a nonterminal that may be erased makes for a conflict, too. -/
theorem conflicts_ne_nil_of_leftRecursive_hiddenRecursion :
    Grammar.hiddenRecursion.Finished ∧
    (∀ n, Grammar.hiddenRecursion.Declares (.nonterminal n) →
      Grammar.hiddenRecursion.Reachable n) ∧
    (∀ n, Grammar.hiddenRecursion.Declares (.nonterminal n) →
      Grammar.hiddenRecursion.Productive n) ∧
    Grammar.hiddenRecursion.LeftRecursive Grammar.hiddenRecursion.start ∧
    ∀ policy, ∃ analysis, ofGrammar? .hiddenRecursion policy = some analysis ∧
      analysis.table.conflicts ≠ [] :=
  ⟨Grammar.finished_hiddenRecursion, Grammar.reachable_hiddenRecursion,
    Grammar.productive_hiddenRecursion, Grammar.leftRecursive_hiddenRecursion,
    conflicts_ne_nil_of_leftRecursive Grammar.finished_hiddenRecursion
      Grammar.reachable_hiddenRecursion Grammar.productive_hiddenRecursion
      Grammar.leftRecursive_hiddenRecursion⟩

end Analysis

end Predictive
