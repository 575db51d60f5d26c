import Predictive.Nullable
import Predictive.Proofs.Lookahead
import Predictive.Proofs.Marks

/-!
The nullable nonterminals are those that can be erased.  Marking follows the rules
of erasure, so the marks that the passes end with are the least set closed under
them; a string is found to derive the empty string exactly if it can be erased,
ε standing for nothing.
-/

namespace Predictive

/-- A string is erased symbol by symbol. -/
theorem Grammar.erasable_iff_forall {grammar : Grammar} {symbols : List Symbol} :
    grammar.Erasable symbols ↔ ∀ symbol ∈ symbols,
      ∃ n, symbol = .nonterminal n ∧ grammar.Erasable [.nonterminal n] := by
  constructor
  · intro herasable
    induction herasable with
    | nil => exact List.forall_mem_nil _
    | cons hmem hsymbols _ _ ih =>
        have hfirst := Erasable.cons hmem hsymbols Erasable.nil
        exact List.forall_mem_cons.mpr ⟨⟨_, rfl, hfirst⟩, ih⟩
  · intro hsymbols
    induction symbols with
    | nil => exact Erasable.nil
    | cons symbol rest ih =>
        obtain ⟨⟨n, rfl, hn⟩, hrest⟩ := List.forall_mem_cons.mp hsymbols
        exact erasable_cons_iff.mpr ⟨hn, ih hrest⟩

/-- What a scan for marked nonterminals finds. -/
theorem Marks.derivesEmpty?_eq {marks : Marks} {symbols : List Symbol}
    (hsymbols : ∀ n, .nonterminal n ∈ symbols → n.index < marks.size) :
    ∃ empty, marks.derivesEmpty? symbols = some empty ∧
      (empty = true ↔ ∀ symbol ∈ eraseEpsilon symbols,
        ∃ n, symbol = .nonterminal n ∧ n ∈ marks.members) := by
  induction symbols with
  | nil => exact ⟨true, rfl, by simp [eraseEpsilon]⟩
  | cons symbol rest ih =>
      obtain ⟨empty, hempty, hiff⟩ := ih fun n hn => hsymbols n (List.mem_cons_of_mem _ hn)
      cases symbol with
      | epsilon => exact ⟨empty, hempty, hiff⟩
      | terminal t => exact ⟨false, rfl, by simp [eraseEpsilon]⟩
      | endMarker => exact ⟨false, rfl, by simp [eraseEpsilon]⟩
      | nonterminal n =>
          obtain ⟨marked, hmarked⟩ := Marks.exists_has? (hsymbols n List.mem_cons_self)
          have herase : eraseEpsilon (.nonterminal n :: rest) =
              .nonterminal n :: eraseEpsilon rest := rfl
          cases marked with
          | true =>
              refine ⟨empty, by simp [Marks.derivesEmpty?, hmarked, hempty], ?_⟩
              simp [herase, hiff, hmarked, members]
          | false =>
              refine ⟨false, by simp [Marks.derivesEmpty?, hmarked], ?_⟩
              simp [herase, hmarked, members]

namespace Nullable

/-- Erasure as a propagation of marks: a nonterminal is marked when all symbols of
one of its right-hand sides are. -/
def rules : Propagation Marks Production Unit where
  holds marks _ := marks.members
  target production := production.lhs
  premise production _ set := ∀ symbol ∈ production.symbols, ∃ n, symbol = .nonterminal n ∧ n ∈ set
  premise_mono hsubset hpremise symbol hsymbol := by
    obtain ⟨n, rfl, hn⟩ := hpremise symbol hsymbol
    exact ⟨n, rfl, hsubset hn⟩

variable {grammar : Grammar}

theorem governs (hwell : grammar.WellFormed) :
    rules.Governs (fun marks => marks.size = grammar.numNonterminals)
      grammar.productions visit? := by
  apply Marks.governs (fun _ _ => rfl) hwell.declares_lhs fun _ _ => rfl
  intro marks production hsize hmem
  have hsymbols : ∀ n, .nonterminal n ∈ production.rhs → n.index < marks.size := by
    intro n hn
    exact hsize ▸ hwell.declares_rhs production hmem n hn
  obtain ⟨due, hdue, hiff⟩ := Marks.derivesEmpty?_eq hsymbols
  rw [hwell.eraseEpsilon_rhs production hmem] at hiff
  exact ⟨due, hdue, hiff⟩

/-- The erasable nonterminals are the least set closed under the rules. -/
theorem isLeast_erasable (grammar : Grammar) :
    IsLeast { set | ∅ ⊆ set ∧ rules.Closed grammar.productions () set }
      { n | grammar.Erasable [.nonterminal n] } := by
  refine ⟨⟨Set.empty_subset _, ?_⟩, ?_⟩
  · intro production hmem hpremise
    apply Grammar.erasable_nonterminal_iff.mpr
    exact ⟨production, hmem, rfl, Grammar.erasable_iff_forall.mpr hpremise⟩
  · rintro set ⟨_, hclosed⟩ n hn
    have hall : ∀ symbols, grammar.Erasable symbols →
        ∀ symbol ∈ symbols, ∃ n, symbol = .nonterminal n ∧ n ∈ set := by
      intro symbols herasable
      induction herasable with
      | nil => simp
      | cons hmem _ _ ihSymbols ihRest =>
          intro symbol hsymbol
          rcases List.mem_cons.mp hsymbol with rfl | hlater
          · exact ⟨_, rfl, hclosed _ hmem ihSymbols⟩
          · exact ihRest symbol hlater
    obtain ⟨m, heq, hm⟩ := hall _ hn _ List.mem_cons_self
    cases heq
    exact hm

/-- The answer for every nonterminal of the grammar is whether it can be erased. -/
def Exact (nullable : Nullable) (grammar : Grammar) : Prop :=
  ∀ n, grammar.Declares (.nonterminal n) → ∃ answer, nullable.has? n = some answer ∧
    (answer = true ↔ grammar.Erasable [.nonterminal n])

/-- The passes end by themselves, with the erasable nonterminals marked. -/
theorem saturation?_exact (hwell : grammar.WellFormed) :
    ∃ result, saturation? grammar = some result ∧ result.Complete ∧
      1 ≤ result.passes ∧ result.passes ≤ grammar.numNonterminals + 1 ∧
      Exact ⟨result.state, result.passes⟩ grammar := by
  have hblank : ∀ key, rules.holds (.blank grammar.numNonterminals) key = ∅ :=
    fun _ => Marks.members_blank _
  have hbelow : ∀ key, Propagation.Below grammar.numNonterminals
      (rules.holds (.blank grammar.numNonterminals) key) := by
    intro key n hn
    rw [hblank key] at hn
    exact hn.elim
  obtain ⟨result, hresult, hsize, hpositive, hpasses, hcomplete, hleast⟩ :=
    (governs hwell).saturate_isLeast (fun production hmem => hwell.declares_lhs production hmem)
      (by simp [Marks.blank, Marks.size]) hbelow (Nat.lt_succ_of_le hwell.numNonterminals_le)
  have hholds := hleast ()
  rw [hblank] at hholds
  have hmarks := hholds.unique (isLeast_erasable grammar)
  refine ⟨result, hresult, hcomplete, hpositive, hpasses, ?_⟩
  intro n hn
  have hlt : n.index < result.state.size := by
    rw [hsize]
    exact hn
  obtain ⟨answer, hanswer⟩ := Marks.exists_has? hlt
  refine ⟨answer, hanswer, ?_⟩
  have hmem : n ∈ rules.holds result.state () ↔ grammar.Erasable [.nonterminal n] := by
    rw [hmarks, Set.mem_ofPred_eq]
  rw [← hmem]
  change _ ↔ result.state.has? n = some true
  rw [hanswer, Option.some.injEq]

theorem ofGrammar?_exact (hwell : grammar.WellFormed) :
    ∃ nullable, ofGrammar? grammar = some nullable ∧ nullable.Exact grammar := by
  obtain ⟨result, hresult, _, _, _, hexact⟩ := saturation?_exact hwell
  exact ⟨⟨result.state, result.passes⟩, by simp [ofGrammar?, hresult], hexact⟩

/-- A string is found to derive the empty string exactly if what it stands for can be
erased. -/
theorem Exact.derivesEmpty? {nullable : Nullable} (hexact : nullable.Exact grammar)
    {symbols : List Symbol}
    (hsymbols : ∀ n, .nonterminal n ∈ symbols → grammar.Declares (.nonterminal n)) :
    ∃ answer, nullable.derivesEmpty? symbols = some answer ∧
      (answer = true ↔ grammar.Erasable (eraseEpsilon symbols)) := by
  have hmarked : ∀ n, .nonterminal n ∈ symbols → n.index < nullable.marks.size ∧
      (n ∈ nullable.marks.members ↔ grammar.Erasable [.nonterminal n]) := by
    intro n hn
    obtain ⟨answer, hanswer, hiff⟩ := hexact n (hsymbols n hn)
    obtain ⟨hlt, _⟩ := Array.getElem?_eq_some_iff.mp hanswer
    rw [← hiff]
    change _ ∧ (nullable.has? n = some true ↔ _)
    exact ⟨hlt, by rw [hanswer, Option.some.injEq]⟩
  obtain ⟨answer, hanswer, hiff⟩ :=
    Marks.derivesEmpty?_eq fun n hn => (hmarked n hn).1
  refine ⟨answer, hanswer, ?_⟩
  rw [hiff, Grammar.erasable_iff_forall]
  apply forall₂_congr
  intro symbol hsymbol
  apply exists_congr
  rintro n
  apply and_congr_right
  rintro rfl
  exact (hmarked n (List.mem_of_mem_filter hsymbol)).2

end Nullable

end Predictive
