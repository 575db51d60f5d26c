import Mathlib.Data.Finset.Card
import Mathlib.Order.Interval.Finset.Nat
import Mathlib.Order.Lattice.Nat
import Predictive.Proofs.Lookahead

/-!
How deep a lookahead lies.  The depth of a nonterminal under a lookahead is the
least number of productions nested in front of the lookahead.  A nonterminal of
some depth has one of the depth just below it in a right-hand side, so every depth
up to its own is taken, and none is greater than the number of nonterminals.
-/

namespace Predictive.Grammar

variable {grammar : Grammar} {lookahead : Lookahead}

/-- The least depth at which the lookahead begins the nonterminal. -/
noncomputable def depth (grammar : Grammar) (lookahead : Lookahead) (n : NonTerminal) : Nat :=
  sInf {depth | grammar.Leads lookahead depth [.nonterminal n]}

theorem leads_depth {n : NonTerminal} (hbegins : grammar.Begins lookahead [.nonterminal n]) :
    grammar.Leads lookahead (grammar.depth lookahead n) [.nonterminal n] :=
  Nat.sInf_mem hbegins

theorem depth_le {depth : Nat} {n : NonTerminal}
    (hleads : grammar.Leads lookahead depth [.nonterminal n]) :
    grammar.depth lookahead n ≤ depth :=
  Nat.sInf_le hleads

theorem Erasable.leads_append {depth : Nat} {left right : List Symbol}
    (herasable : grammar.Erasable left) (hleads : grammar.Leads lookahead depth right) :
    grammar.Leads lookahead depth (left ++ right) := by
  induction herasable with
  | nil => exact hleads
  | cons hmem hsymbols _ _ ih =>
      exact Leads.skip (Erasable.cons hmem hsymbols Erasable.nil) ih

/-- A lookahead below the surface lies inside some nonterminal. -/
theorem Leads.exists_nonterminal {depth : Nat} {symbols : List Symbol}
    (hleads : grammar.Leads lookahead (depth + 1) symbols) :
    ∃ before n after, symbols = before ++ .nonterminal n :: after ∧
      grammar.Erasable before ∧ grammar.Leads lookahead (depth + 1) [.nonterminal n] := by
  generalize hdepth : depth + 1 = total at hleads
  induction hleads with
  | symbol => cases hdepth
  | @expand production inner hmem hsymbols rest =>
      exact ⟨[], production.lhs, rest, rfl, Erasable.nil, Leads.expand hmem hsymbols []⟩
  | @skip m total rest herasable _ ih =>
      obtain ⟨before, n, after, rfl, hbefore, hleads⟩ := ih hdepth
      exact ⟨.nonterminal m :: before, n, after, rfl,
        erasable_cons_iff.mpr ⟨herasable, hbefore⟩, hleads⟩

theorem Begins.exists_lhs {n : NonTerminal}
    (hbegins : grammar.Begins lookahead [.nonterminal n]) :
    ∃ production ∈ grammar.productions, production.lhs = n := by
  obtain ⟨production, hmem, hlhs, _⟩ := begins_nonterminal_iff.mp hbegins
  exact ⟨production, hmem, hlhs⟩

/-- A nonterminal of depth two or more has one of the depth just below. -/
theorem exists_depth_eq {n : NonTerminal} {inner : Nat}
    (hbegins : grammar.Begins lookahead [.nonterminal n])
    (hdepth : grammar.depth lookahead n = inner + 2) :
    ∃ m, grammar.Begins lookahead [.nonterminal m] ∧ grammar.depth lookahead m = inner + 1 := by
  have hleads := leads_depth hbegins
  rw [hdepth] at hleads
  cases hleads with
  | @expand production _ hmem hsymbols =>
      obtain ⟨before, m, after, hsplit, hbefore, hinner⟩ := hsymbols.exists_nonterminal
      refine ⟨m, ⟨_, hinner⟩, ?_⟩
      apply Nat.le_antisymm (depth_le hinner)
      -- A smaller depth of the inner nonterminal would make the outer one smaller.
      have hshallow : grammar.Leads lookahead (grammar.depth lookahead m)
          production.symbols := by
        rw [hsplit]
        exact hbefore.leads_append ((leads_depth ⟨_, hinner⟩).append_right after)
      have hle := depth_le (Leads.expand hmem hshallow [])
      omega
  | skip _ hrest => cases hrest

/-- Every depth from one up to that of a nonterminal is the depth of another. -/
theorem exists_depth_of_le {n : NonTerminal} {wanted : Nat}
    (hbegins : grammar.Begins lookahead [.nonterminal n]) (hpos : 1 ≤ wanted)
    (hle : wanted ≤ grammar.depth lookahead n) :
    ∃ m, grammar.Begins lookahead [.nonterminal m] ∧ grammar.depth lookahead m = wanted := by
  obtain ⟨more, hmore⟩ := Nat.exists_eq_add_of_le hle
  induction more generalizing n with
  | zero => exact ⟨n, hbegins, hmore⟩
  | succ more ih =>
      obtain ⟨m, hinner, hdepth⟩ := exists_depth_eq hbegins
        (show grammar.depth lookahead n = (wanted + more - 1) + 2 by omega)
      exact ih hinner (by omega) (by omega)

theorem depth_le_numNonterminals (hwell : grammar.WellFormed) {n : NonTerminal}
    (hbegins : grammar.Begins lookahead [.nonterminal n]) :
    grammar.depth lookahead n ≤ grammar.numNonterminals := by
  have hcover : Finset.Icc 1 (grammar.depth lookahead n) ⊆
      grammar.nonterminals.toFinset.image (grammar.depth lookahead) := by
    intro wanted hwanted
    obtain ⟨hpos, hle⟩ := Finset.mem_Icc.mp hwanted
    obtain ⟨m, hm, hdepth⟩ := exists_depth_of_le hbegins hpos hle
    obtain ⟨production, hmem, rfl⟩ := hm.exists_lhs
    rw [Finset.mem_image]
    exact ⟨production.lhs,
      List.mem_toFinset.mpr (mem_nonterminals (hwell.declares_lhs production hmem)), hdepth⟩
  calc grammar.depth lookahead n
      = (Finset.Icc 1 (grammar.depth lookahead n)).card := by simp
    _ ≤ (grammar.nonterminals.toFinset.image (grammar.depth lookahead)).card :=
        Finset.card_le_card hcover
    _ ≤ grammar.nonterminals.toFinset.card := Finset.card_image_le
    _ ≤ grammar.nonterminals.length := grammar.nonterminals.toFinset_card_le
    _ = grammar.numNonterminals := by simp [nonterminals]

/-- Whatever a lookahead begins, it begins at no greater depth than there are
nonterminals. -/
theorem Begins.exists_leads (hwell : grammar.WellFormed) {symbols : List Symbol}
    (hbegins : grammar.Begins lookahead symbols) :
    ∃ depth ≤ grammar.numNonterminals, grammar.Leads lookahead depth symbols := by
  obtain ⟨depth, hleads⟩ := hbegins
  cases depth with
  | zero => exact ⟨0, Nat.zero_le _, hleads⟩
  | succ depth =>
      obtain ⟨before, n, after, rfl, hbefore, hinner⟩ := hleads.exists_nonterminal
      exact ⟨grammar.depth lookahead n, depth_le_numNonterminals hwell ⟨_, hinner⟩,
        hbefore.leads_append ((leads_depth ⟨_, hinner⟩).append_right after)⟩

end Predictive.Grammar
