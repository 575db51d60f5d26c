import Predictive.Proofs.Saturation
import Predictive.Proofs.Spelling

/-!
Left recursion as a cycle.  A nonterminal exposes another if that comes to the front of
one of its right-hand sides, the symbols before it being erased.  A nonterminal derives a
string that begins with another exactly if a chain of such exposures leads there, so a
nonterminal is left-recursive exactly if it lies on a cycle.  There are finitely many
nonterminals, so without cycles there is no infinite chain.
-/

namespace Predictive

namespace Grammar

/-- The nonterminal comes to the front of the string once what stands before it is
erased. -/
def Fronts (grammar : Grammar) (n : NonTerminal) : List Symbol → Prop
  | [] => False
  | symbol :: rest =>
      symbol = .nonterminal n ∨ grammar.Erasable [symbol] ∧ grammar.Fronts n rest

/-- The inner nonterminal comes to the front of a right-hand side of the outer one. -/
def Exposes (grammar : Grammar) (outer inner : NonTerminal) : Prop :=
  ∃ production ∈ grammar.productions,
    production.lhs = outer ∧ grammar.Fronts inner production.symbols

variable {grammar : Grammar} {n : NonTerminal}

theorem fronts_append_iff {left right : List Symbol} :
    grammar.Fronts n (left ++ right) ↔
      grammar.Fronts n left ∨ grammar.Erasable left ∧ grammar.Fronts n right := by
  induction left with
  | nil => simp [Fronts, Erasable.nil]
  | cons symbol rest ih =>
      rw [List.cons_append, Fronts, Fronts, ih, @erasable_cons_iff grammar symbol rest]
      tauto

/-- Only a nonterminal can be erased, or be one, in front of a nonterminal. -/
theorem Fronts.exists_head {symbols : List Symbol} (hfronts : grammar.Fronts n symbols) :
    ∃ m rest, symbols = .nonterminal m :: rest := by
  cases symbols with
  | nil => exact hfronts.elim
  | cons symbol rest =>
      rcases hfronts with hsymbol | ⟨herasable, _⟩
      · exact ⟨n, rest, hsymbol ▸ rfl⟩
      · obtain ⟨production, _⟩ := herasable
        exact ⟨_, rest, rfl⟩

/-- A string derives one that begins with a nonterminal at its front. -/
theorem Fronts.exists_derives (hwell : grammar.WellFormed) {symbols : List Symbol}
    (hfronts : grammar.Fronts n symbols) :
    ∃ after, grammar.Derives symbols (.nonterminal n :: after) := by
  induction symbols with
  | nil => exact hfronts.elim
  | cons symbol rest ih =>
      rcases hfronts with hsymbol | ⟨herasable, hrest⟩
      · exact ⟨rest, hsymbol ▸ Relation.ReflTransGen.refl⟩
      · obtain ⟨after, hderives⟩ := ih hrest
        have herase := (erasable_iff_derives hwell).mp herasable
        exact ⟨after, herase.append hderives⟩

theorem Exposes.exists_derivesProperly (hwell : grammar.WellFormed) {outer inner : NonTerminal}
    (hexposes : grammar.Exposes outer inner) :
    ∃ after, grammar.DerivesProperly [.nonterminal outer] (.nonterminal inner :: after) := by
  obtain ⟨production, hmem, rfl, hfronts⟩ := hexposes
  obtain ⟨after, hderives⟩ := hfronts.exists_derives hwell
  exact ⟨after, Relation.TransGen.head' (yields_symbols hmem) hderives⟩

/-- What a step brings to the front was there before, or something there exposes it. -/
theorem Yields.fronts {first second : List Symbol} (hstep : grammar.Yields first second)
    (hfronts : grammar.Fronts n second) :
    grammar.Fronts n first ∨ ∃ m, grammar.Fronts m first ∧ grammar.Exposes m n := by
  obtain ⟨hmem, before, after⟩ := hstep
  rw [List.append_assoc, fronts_append_iff, fronts_append_iff] at hfronts
  rcases hfronts with hbefore | ⟨hbefore, hinner | ⟨hsymbols, hafter⟩⟩
  · exact Or.inl (fronts_append_iff.mpr (Or.inl hbefore))
  · refine Or.inr ⟨_, ?_, _, hmem, rfl, hinner⟩
    exact fronts_append_iff.mpr (Or.inr ⟨hbefore, Or.inl rfl⟩)
  · have herasable := Erasable.cons hmem hsymbols Erasable.nil
    exact Or.inl (fronts_append_iff.mpr (Or.inr ⟨hbefore, Or.inr ⟨herasable, hafter⟩⟩))

/-- What a derivation brings to the front is exposed, in any number of steps, by what was
there at first. -/
theorem Derives.fronts {first last : List Symbol} (hderives : grammar.Derives first last)
    (hfronts : grammar.Fronts n last) :
    ∃ m, grammar.Fronts m first ∧ Relation.ReflTransGen grammar.Exposes m n := by
  induction hderives using Relation.ReflTransGen.head_induction_on with
  | refl => exact ⟨n, hfronts, Relation.ReflTransGen.refl⟩
  | head hstep _ ih =>
      obtain ⟨m, hm, hchain⟩ := ih
      rcases hstep.fronts hm with hold | ⟨outer, houter, hexposes⟩
      · exact ⟨m, hold, hchain⟩
      · exact ⟨outer, houter, hchain.head hexposes⟩

theorem exists_derivesProperly_of_transGen (hwell : grammar.WellFormed)
    {outer inner : NonTerminal} (hchain : Relation.TransGen grammar.Exposes outer inner) :
    ∃ after, grammar.DerivesProperly [.nonterminal outer] (.nonterminal inner :: after) := by
  induction hchain with
  | single hexposes => exact hexposes.exists_derivesProperly hwell
  | tail _ hexposes ih =>
      obtain ⟨after, hderives⟩ := ih
      obtain ⟨after', hinner⟩ := hexposes.exists_derivesProperly hwell
      have hlater : grammar.Derives _ _ := hinner.to_reflTransGen
      exact ⟨after' ++ after, hderives.trans_left (hlater.append_right after)⟩

/-- A step from a nonterminal alone is to one of its right-hand sides. -/
theorem Yields.exists_production {second : List Symbol}
    (hstep : grammar.Yields [.nonterminal n] second) :
    ∃ production ∈ grammar.productions, production.lhs = n ∧ second = production.symbols := by
  generalize hfirst : [Symbol.nonterminal n] = first at hstep
  obtain ⟨hmem, before, after⟩ := hstep
  have hsplit := List.append_eq_singleton_iff.mp hfirst.symm
  simp only [List.cons.injEq, Symbol.nonterminal.injEq, reduceCtorEq, and_false, or_false]
    at hsplit
  obtain ⟨rfl, hlhs, rfl⟩ := hsplit
  exact ⟨_, hmem, hlhs, by simp⟩

/-- A nonterminal is left-recursive exactly if it lies on a cycle of exposures. -/
theorem leftRecursive_iff (hwell : grammar.WellFormed) :
    grammar.LeftRecursive n ↔ Relation.TransGen grammar.Exposes n n := by
  constructor
  · rintro ⟨after, hderives⟩
    obtain ⟨middle, hstep, hlater⟩ := Relation.TransGen.head'_iff.mp hderives
    obtain ⟨production, hmem, hlhs, rfl⟩ := hstep.exists_production
    have hlast : grammar.Fronts n (.nonterminal n :: after) := Or.inl rfl
    obtain ⟨m, hm, hchain⟩ := Derives.fronts hlater hlast
    exact Relation.TransGen.head' ⟨production, hmem, hlhs, hm⟩ hchain
  · exact exists_derivesProperly_of_transGen hwell

/-- Without left recursion there is no infinite chain of exposures. -/
theorem wellFounded_exposes (hwell : grammar.WellFormed)
    (hnone : ∀ n, ¬ grammar.LeftRecursive n) : WellFounded (flip grammar.Exposes) := by
  have htrans : IsTrans NonTerminal (Relation.TransGen (flip grammar.Exposes)) :=
    ⟨fun _ _ _ => Relation.TransGen.trans⟩
  have hirrefl : Std.Irrefl (Relation.TransGen (flip grammar.Exposes)) := by
    constructor
    intro n hcycle
    exact hnone n ((leftRecursive_iff hwell).mpr (Relation.transGen_swap.mp hcycle))
  have hchains : WellFounded (Relation.TransGen (flip grammar.Exposes)) :=
    Finite.wellFounded_of_trans_of_irrefl _
  exact Subrelation.wf Relation.TransGen.single hchains

end Grammar

end Predictive
