import Predictive.Proofs.Classification
import Predictive.Proofs.Run

/-!
The conflict policy plays no part where the start symbol is LL(1).  Two tables may differ
in the rows that have conflicts, but no nonterminal of such a row is mentioned, at however
many removes, by an LL(1) start symbol.  So none of them ever comes onto the stack, and the
machine goes the same way by either table.
-/

namespace Predictive

/-- The nonterminals on the stack are all in the set. -/
def Configuration.Within (configuration : Configuration) (rows : Set NonTerminal) : Prop :=
  ∀ n, .nonterminal n ∈ configuration.stack → n ∈ rows

/-- The tables have the same cells in the rows. -/
def Table.AgreesOn (left right : Table) (rows : Set NonTerminal) : Prop :=
  ∀ n ∈ rows, ∀ lookahead, left.get? n lookahead = right.get? n lookahead

/-- What a nonterminal of the set mentions is in the set. -/
def Grammar.ClosedUnderMentions (grammar : Grammar) (rows : Set NonTerminal) : Prop :=
  ∀ outer ∈ rows, ∀ inner, grammar.Mentions outer inner → inner ∈ rows

theorem Grammar.closedUnderMentions_not_tainted (grammar : Grammar)
    (conflicts : List Conflict) :
    grammar.ClosedUnderMentions { n | ¬ grammar.Tainted conflicts n } :=
  fun _ houter _ hmentions hinner => houter (hinner.of_mentions hmentions)

/-- Tables of the same claims agree on the rows without conflicts in one of them. -/
theorem Table.agreesOn_of_claims (claims : List Claim) (policy left right : ConflictPolicy)
    {rows : Set NonTerminal}
    (hrows : ∀ conflict ∈ (claims.foldl Table.claim (.empty policy)).conflicts,
      conflict.nonterminal ∉ rows) :
    (claims.foldl Table.claim (.empty left)).AgreesOn
      (claims.foldl Table.claim (.empty right)) rows := by
  intro n hn lookahead
  have hfree : ¬ (claims.foldl Table.claim (.empty policy)).Contested ⟨n, lookahead⟩ := by
    rintro ⟨conflict, hmem, hcell⟩
    obtain ⟨hrow, _⟩ := Cell.mk.inj hcell
    exact hrows conflict hmem (hrow ▸ hn)
  have hleft := Table.cells_foldl_claim_eq hfree left
  have hright := Table.cells_foldl_claim_eq hfree right
  exact hleft.trans hright.symm

namespace Parser

variable {grammar : Grammar} {left right : Table} {limit : StepLimit}
  {rows : Set NonTerminal} {input : List Lookahead} {configuration next : Configuration}

/-- The move depends on no row but that of the nonterminal on top. -/
theorem move?_eq_of_agreesOn (hagree : left.AgreesOn right rows)
    (hwithin : configuration.Within rows) :
    (⟨grammar, left, limit⟩ : Parser).move? input configuration =
      (⟨grammar, right, limit⟩ : Parser).move? input configuration := by
  obtain ⟨stack, position⟩ := configuration
  cases stack with
  | nil => rfl
  | cons top below =>
      cases hlookahead : input[position]? with
      | none => simp [move?, hlookahead]
      | some lookahead =>
          cases top with
          | nonterminal n =>
              have hn := hagree n (hwithin n List.mem_cons_self) lookahead
              simp only [move?, hlookahead, hn]
          | terminal t => simp [move?, hlookahead]
          | epsilon => simp [move?, hlookahead]
          | endMarker => simp [move?, hlookahead]

/-- A step keeps the stack within a set that is closed under mentions. -/
theorem Goes.within {parser : Parser} (hsound : parser.table.Sound parser.grammar)
    (hclosed : parser.grammar.ClosedUnderMentions rows) {action : Action}
    (hgoes : parser.Goes input configuration action next)
    (hwithin : configuration.Within rows) : next.Within rows := by
  cases hgoes with
  | @expand n lookahead id production position _ hcell hproduction below =>
      obtain ⟨rfl, _⟩ := hsound.of_production? hcell hproduction
      intro m hm
      rcases List.mem_append.mp hm with hnew | hold
      · have hmentions : parser.grammar.Mentions production.lhs m :=
          ⟨production, List.mem_of_getElem? hproduction, rfl, Production.mem_rhs hnew⟩
        exact hclosed _ (hwithin _ List.mem_cons_self) m hmentions
      · exact hwithin m (List.mem_cons_of_mem _ hold)
  | consume _ below => exact fun m hm => hwithin m (List.mem_cons_of_mem _ hm)

/-- Tables that agree on a closed set of rows make the same run. -/
theorem run?_eq_of_agreesOn (hsound : right.Sound grammar)
    (hagree : left.AgreesOn right rows) (hclosed : grammar.ClosedUnderMentions rows)
    (hwithin : configuration.Within rows) (bound : Nat) (past : List Step) :
    (⟨grammar, left, limit⟩ : Parser).run? input bound configuration past =
      (⟨grammar, right, limit⟩ : Parser).run? input bound configuration past := by
  induction bound generalizing configuration past with
  | zero => rfl
  | succ bound ih =>
      rw [run?, run?, move?_eq_of_agreesOn hagree hwithin]
      rcases @goes_or_stops ⟨grammar, right, limit⟩ input hsound.inRange configuration with
        ⟨action, next, hgoes⟩ | ⟨ending, hstops⟩
      · rw [hgoes.move?_eq]
        exact ih (hgoes.within hsound hclosed hwithin) _
      · rw [hstops.move?_eq]

theorem parse?_eq_of_agreesOn (hsound : right.Sound grammar)
    (hagree : left.AgreesOn right rows) (hclosed : grammar.ClosedUnderMentions rows)
    (hstart : grammar.start ∈ rows) (terminals : List Terminal) :
    (⟨grammar, left, limit⟩ : Parser).parse? terminals =
      (⟨grammar, right, limit⟩ : Parser).parse? terminals := by
  have hwithin : (⟨grammar, right, limit⟩ : Parser).initial.Within rows := by
    intro n hn
    obtain rfl : n = grammar.start := by simpa [initial] using hn
    exact hstart
  have hrun := @run?_eq_of_agreesOn grammar left right limit rows (inputOf terminals) _
    hsound hagree hclosed hwithin
    ((⟨grammar, right, limit⟩ : Parser).maxSteps terminals.length) []
  simp only [parse?]
  exact congrArg (Option.bind · _) hrun

end Parser

namespace Grammar

/-- Words of as that b ends; a second nonterminal, with a conflict, is mentioned nowhere. -/
def strayConflictRules : Draft := .ofRules
  [("S", [["a", "S"], ["b"]]), ("D", [["c"], ["c", "S"]])]

def strayConflict : Grammar := strayConflictRules.resolve "S"

theorem finished_strayConflict : strayConflict.Finished where
  finish_eq := ⟨strayConflictRules, "S", by decide +kernel⟩
  productions_lt := by decide +kernel
  nonterminals_lt := by decide +kernel
  terminals_lt := by decide +kernel

end Grammar

namespace Analysis

variable {grammar : Grammar}

/-- If the start symbol is LL(1), whatever the policy of the table that says so, then the
tables of both policies lead to the same outcome of every parse. -/
theorem parse?_eq_of_start_ll1 (hfinished : grammar.Finished) (policy : ConflictPolicy) :
    ∃ analysis classification, ofGrammar? grammar policy = some analysis ∧
      analysis.classification? = some classification ∧
      (classification.class? grammar.start = some .ll1 →
        ∃ last first, ofGrammar? grammar .lastWins = some last ∧
          ofGrammar? grammar .firstWins = some first ∧
          ∀ limit terminals, ∃ outcome,
            (last.parser limit).parse? terminals = some outcome ∧
            (first.parser limit).parse? terminals = some outcome) := by
  have hwell := hfinished.wellFormed
  obtain ⟨nullable, first, follow, claims, _, _, _, hclaimed, hanalysis⟩ :=
    exists_claims hwell
  have hdeclared : ∀ conflict ∈ (claims.foldl Table.claim (.empty policy)).conflicts,
      grammar.Declares (.nonterminal conflict.nonterminal) :=
    fun _ hmem => hclaimed.declares_conflict hwell hmem
  obtain ⟨classification, hclassification, hexact⟩ :=
    Classification.ofTable?_exact hwell hdeclared
  refine ⟨_, classification, hanalysis policy, hclassification, ?_⟩
  intro hll1
  refine ⟨_, _, hanalysis .lastWins, hanalysis .firstWins, ?_⟩
  intro limit terminals
  have hstart : ¬ grammar.Tainted (claims.foldl Table.claim (.empty policy)).conflicts
      grammar.start := by
    obtain ⟨found, hfound, htainted⟩ := hexact grammar.start hwell.declares_start
    obtain rfl := Option.some.inj (hfound.symm.trans hll1)
    rw [← htainted]
    exact NonTerminalClass.noConfusion
  have hagree : (claims.foldl Table.claim (.empty .lastWins)).AgreesOn
      (claims.foldl Table.claim (.empty .firstWins))
      { n | ¬ grammar.Tainted (claims.foldl Table.claim (.empty policy)).conflicts n } := by
    apply Table.agreesOn_of_claims claims policy
    exact fun conflict hmem hrow => hrow ⟨conflict, hmem, Relation.ReflTransGen.refl⟩
  have hsound : (claims.foldl Table.claim (.empty .firstWins)).Sound grammar :=
    hclaimed.sound hwell
  obtain ⟨_, _, _, _, hparse, _⟩ :=
    @Parser.parse?_eq ⟨grammar, claims.foldl Table.claim (.empty .firstWins), limit⟩ hsound
      terminals
  refine ⟨_, ?_, hparse⟩
  rw [← hparse]
  exact Parser.parse?_eq_of_agreesOn hsound hagree
    (grammar.closedUnderMentions_not_tainted _) hstart terminals

/-- The stray conflict makes the tables differ, but not the parses. -/
theorem parse?_eq_of_start_ll1_strayConflict :
    Grammar.strayConflict.Finished ∧
    ∃ analysis classification last first,
      ofGrammar? .strayConflict .firstWins = some analysis ∧
      analysis.classification? = some classification ∧
      classification.class? Grammar.strayConflict.start = some .ll1 ∧
      ofGrammar? .strayConflict .lastWins = some last ∧
      ofGrammar? .strayConflict .firstWins = some first ∧
      last.table.cells ≠ first.table.cells ∧
      ∀ limit terminals, ∃ outcome, (last.parser limit).parse? terminals = some outcome ∧
        (first.parser limit).parse? terminals = some outcome := by
  obtain ⟨analysis, classification, hanalysis, hclassification, hsame⟩ :=
    parse?_eq_of_start_ll1 Grammar.finished_strayConflict .firstWins
  have hclass : ((ofGrammar? .strayConflict .firstWins).bind fun known =>
      known.classification?.bind (·.class? Grammar.strayConflict.start)) = some .ll1 := by
    decide +kernel
  rw [hanalysis, Option.bind_some, hclassification, Option.bind_some] at hclass
  obtain ⟨last, first, hlast, hfirst, houtcomes⟩ := hsame hclass
  have hcells : (ofGrammar? .strayConflict .lastWins).map (·.table.cells) ≠
      (ofGrammar? .strayConflict .firstWins).map (·.table.cells) := by
    decide +kernel
  rw [hlast, hfirst] at hcells
  exact ⟨Grammar.finished_strayConflict, analysis, classification, last, first, hanalysis,
    hclassification, hclass, hlast, hfirst, fun heq => hcells (congrArg some heq), houtcomes⟩

end Analysis

end Predictive
