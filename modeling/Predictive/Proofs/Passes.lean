import Predictive.Proofs.Follow

/-!
How many passes the sets of a grammar take.  Whatever terminal or lookahead is searched for,
every pass finds a nonterminal more that has it, until there is none left; the searches do not
depend on each other.  So the number of nonterminals alone bounds the passes, with one more for
the last pass, which changes nothing.
-/

namespace Predictive

namespace Grammar

/-- Each nonterminal hands on what the next one derives, which is declared only later. -/
def relayRules : Draft := .ofRules
  [("S", [["A"]]), ("A", [["B"]]), ("B", [["C"]]), ("C", [["c"], []])]

def relay : Grammar := relayRules.resolve "S"

theorem finished_relay : relay.Finished where
  finish_eq := ⟨relayRules, "S", by decide +kernel⟩
  productions_lt := by decide +kernel
  nonterminals_lt := by decide +kernel
  terminals_lt := by decide +kernel

end Grammar

namespace Analysis

variable {grammar : Grammar}

/-- The passes for nullability, FIRST and FOLLOW end without any bound, and there are no more of
them than nonterminals and one. -/
theorem passes_le_numNonterminals (hfinished : grammar.Finished) :
    ∃ marked firsts follows nullable first follow,
      Saturates (sweep Nullable.visit? · grammar.productions)
        (.blank grammar.numNonterminals) marked ∧
      nullable = ⟨marked.state, marked.passes⟩ ∧
      Nullable.ofGrammar? grammar = some nullable ∧
      Saturates (sweep (FirstSets.visit? nullable) · grammar.productions)
        (FirstSets.initial grammar) firsts ∧
      first = ⟨firsts.state, nullable, firsts.passes⟩ ∧
      FirstSets.ofGrammar? grammar nullable = some first ∧
      Saturates (sweep (FollowSets.visit? first) · grammar.occurrences)
        (FollowSets.initial grammar) follows ∧
      follow = ⟨follows.state, follows.passes⟩ ∧
      FollowSets.ofGrammar? grammar first = some follow ∧
      ∀ passes ∈ [nullable.passes, first.passes, follow.passes],
        1 ≤ passes ∧ passes ≤ grammar.numNonterminals + 1 := by
  have hwell := hfinished.wellFormed
  obtain ⟨marked, hmarked, hmarkedEnd, hmarkedPositive, hmarkedPasses, hnullable⟩ :=
    Nullable.saturation?_exact hwell
  obtain ⟨firsts, hfirsts, hfirstsEnd, hfirstsPositive, hfirstsPasses, hfirst⟩ :=
    FirstSets.saturation?_exact hwell hnullable
  obtain ⟨follows, hfollows, hfollowsEnd, hfollowsPositive, hfollowsPasses, _⟩ :=
    FollowSets.saturation?_exact hwell hfirst
  refine ⟨marked, firsts, follows, _, _, _, hmarkedEnd.saturates hmarked, rfl, ?_,
    hfirstsEnd.saturates hfirsts, rfl, ?_, hfollowsEnd.saturates hfollows, rfl, ?_, ?_⟩
  · rw [Nullable.ofGrammar?, hmarked, Option.map_some]
  · rw [FirstSets.ofGrammar?, hfirsts, Option.map_some]
  · rw [FollowSets.ofGrammar?, hfollows, Option.map_some]
  · simp only [List.forall_mem_cons]
    exact ⟨⟨hmarkedPositive, hmarkedPasses⟩, ⟨hfirstsPositive, hfirstsPasses⟩,
      ⟨hfollowsPositive, hfollowsPasses⟩, List.forall_mem_nil _⟩

/-- The relay takes as many passes for nullability and for FIRST as are ever possible. -/
theorem passes_le_numNonterminals_relay :
    Grammar.relay.Finished ∧ Grammar.relay.numNonterminals = 4 ∧
    ∃ nullable first follow, Nullable.ofGrammar? .relay = some nullable ∧
      FirstSets.ofGrammar? .relay nullable = some first ∧
      FollowSets.ofGrammar? .relay first = some follow ∧
      nullable.passes = 5 ∧ first.passes = 5 ∧ follow.passes = 2 ∧
      ∀ passes ∈ [nullable.passes, first.passes, follow.passes],
        1 ≤ passes ∧ passes ≤ Grammar.relay.numNonterminals + 1 := by
  obtain ⟨_, _, _, nullable, first, follow, _, _, hnullable, _, _, hfirst, _, _, hfollow,
    hpasses⟩ := passes_le_numNonterminals Grammar.finished_relay
  have hcounts : ((Nullable.ofGrammar? .relay).bind fun nullable =>
      (FirstSets.ofGrammar? .relay nullable).bind fun first =>
        (FollowSets.ofGrammar? .relay first).map fun follow =>
          (nullable.passes, first.passes, follow.passes)) = some (5, 5, 2) := by
    decide +kernel
  rw [hnullable, Option.bind_some, hfirst, Option.bind_some, hfollow, Option.map_some,
    Option.some.injEq, Prod.mk.injEq, Prod.mk.injEq] at hcounts
  obtain ⟨hnullablePasses, hfirstPasses, hfollowPasses⟩ := hcounts
  exact ⟨Grammar.finished_relay, by decide +kernel, nullable, first, follow, hnullable, hfirst,
    hfollow, hnullablePasses, hfirstPasses, hfollowPasses, hpasses⟩

end Analysis

end Predictive
