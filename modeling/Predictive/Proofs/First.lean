import Predictive.Proofs.Growth
import Predictive.Proofs.Nullable

/-!
FIRST sets are exact: a terminal is in FIRST of a nonterminal exactly if it begins
what the nonterminal derives, and likewise for strings of symbols, ε standing for
nothing.
-/

namespace Predictive

namespace Grammar

/-- The terminal comes first in the string, given the nonterminals that it begins. -/
def Shows (grammar : Grammar) (terminal : Terminal) (set : Set NonTerminal) :
    List Symbol → Prop
  | [] => False
  | .terminal other :: _ => other = terminal
  | .nonterminal n :: rest =>
      n ∈ set ∨ grammar.Erasable [.nonterminal n] ∧ grammar.Shows terminal set rest
  | .epsilon :: _ | .endMarker :: _ => False

variable {grammar : Grammar} {terminal : Terminal}

theorem Shows.mono {small large : Set NonTerminal} (hsubset : small ⊆ large)
    {symbols : List Symbol} (hshows : grammar.Shows terminal small symbols) :
    grammar.Shows terminal large symbols := by
  induction symbols with
  | nil => exact hshows
  | cons symbol rest ih =>
      cases symbol with
      | nonterminal n =>
          rcases hshows with hn | ⟨herasable, hrest⟩
          · exact Or.inl (hsubset hn)
          · exact Or.inr ⟨herasable, ih hrest⟩
      | terminal other => exact hshows
      | epsilon => exact hshows
      | endMarker => exact hshows

/-- A set that is closed under the productions has every nonterminal that the
terminal begins. -/
theorem Leads.shows {closed : Set NonTerminal}
    (hclosed : ∀ production ∈ grammar.productions,
      grammar.Shows terminal closed production.symbols → production.lhs ∈ closed)
    {depth : Nat} {symbols : List Symbol}
    (hleads : grammar.Leads (.terminal terminal) depth symbols) :
    grammar.Shows terminal closed symbols := by
  induction hleads with
  | symbol hsymbol rest =>
      subst hsymbol
      rfl
  | expand hmem _ _ ih => exact Or.inl (hclosed _ hmem ih)
  | skip herasable _ ih => exact Or.inr ⟨herasable, ih⟩

theorem begins_terminal_iff {symbol : Symbol} (hsymbol : symbol.nonterminal? = none) :
    grammar.Begins (.terminal terminal) [symbol] ↔ symbol = .terminal terminal := by
  constructor
  · rintro ⟨depth, hleads⟩
    cases hleads with
    | symbol heq => exact heq
    | expand => cases hsymbol
    | skip => cases hsymbol
  · rintro rfl
    exact Begins.symbol []

theorem shows_begins_iff {symbols : List Symbol} :
    grammar.Shows terminal { n | grammar.Begins (.terminal terminal) [.nonterminal n] }
      symbols ↔ grammar.Begins (.terminal terminal) symbols := by
  induction symbols with
  | nil => exact ⟨False.elim, not_begins_nil⟩
  | cons symbol rest ih =>
      rw [begins_cons_iff, ← ih]
      cases symbol with
      | nonterminal n => exact Iff.rfl
      | terminal other =>
          have hnot : ¬ grammar.Erasable [.terminal other] := not_erasable_cons rfl []
          rw [begins_terminal_iff rfl]
          simp [Shows, hnot]
      | epsilon =>
          have hnot : ¬ grammar.Erasable [.epsilon] := not_erasable_cons rfl []
          rw [begins_terminal_iff rfl]
          simp [Shows, hnot]
      | endMarker =>
          have hnot : ¬ grammar.Erasable [.endMarker] := not_erasable_cons rfl []
          rw [begins_terminal_iff rfl]
          simp [Shows, hnot]

end Grammar

namespace FirstSets

variable {grammar : Grammar} {nullable : Nullable}

/-- FIRST as a propagation along the productions. -/
def rules (grammar : Grammar) : Propagation TerminalSets Production Terminal where
  holds := Family.owners
  target production := production.lhs
  premise production terminal set := grammar.Shows terminal set production.symbols
  premise_mono hsubset hshows := hshows.mono hsubset

/-- What a scan of a string finds, given the sets so far. -/
theorem ofSequence?_shows (hnullable : nullable.Exact grammar) (sets : TerminalSets)
    {symbols : List Symbol}
    (hsymbols : ∀ n, .nonterminal n ∈ symbols → grammar.Declares (.nonterminal n)) :
    ∃ result, sets.ofSequence? nullable symbols = some result ∧
      (∀ terminal, terminal ∈ result.terminals ↔
        grammar.Shows terminal (Family.owners sets terminal) (eraseEpsilon symbols)) ∧
      (result.nullable = true ↔ grammar.Erasable (eraseEpsilon symbols)) := by
  induction symbols with
  | nil =>
      refine ⟨⟨∅, true⟩, rfl, ?_, ?_⟩
      · simp [eraseEpsilon, Grammar.Shows]
      · simpa [eraseEpsilon] using Grammar.Erasable.nil
  | cons symbol rest ih =>
      obtain ⟨beyond, hbeyond, hterminals, hempty⟩ :=
        ih fun n hn => hsymbols n (List.mem_cons_of_mem _ hn)
      cases symbol with
      | epsilon => exact ⟨beyond, hbeyond, hterminals, hempty⟩
      | terminal t =>
          have hnot : ¬ grammar.Erasable (.terminal t :: eraseEpsilon rest) :=
            Grammar.not_erasable_cons rfl _
          refine ⟨⟨{t}, false⟩, rfl, ?_, ?_⟩
          · intro terminal
            change terminal ∈ ({t} : Std.ExtTreeSet Terminal) ↔ t = terminal
            rw [Std.ExtTreeSet.singleton_eq_insert]
            simp
          · exact ⟨fun hfalse => (by cases hfalse), fun herasable => absurd herasable hnot⟩
      | endMarker =>
          have hnot : ¬ grammar.Erasable (.endMarker :: eraseEpsilon rest) :=
            Grammar.not_erasable_cons rfl _
          refine ⟨⟨∅, false⟩, rfl, ?_, ?_⟩
          · intro terminal
            change terminal ∈ (∅ : Std.ExtTreeSet Terminal) ↔ False
            simp
          · exact ⟨fun hfalse => (by cases hfalse), fun herasable => absurd herasable hnot⟩
      | nonterminal n =>
          obtain ⟨answer, hanswer, hiff⟩ := hnullable n (hsymbols n List.mem_cons_self)
          have herase : eraseEpsilon (.nonterminal n :: rest) =
              .nonterminal n :: eraseEpsilon rest := rfl
          rw [herase]
          cases answer with
          | true =>
              have hn : grammar.Erasable [.nonterminal n] := hiff.mp rfl
              refine ⟨⟨sets.getD n ∅ ∪ beyond.terminals, beyond.nullable⟩, ?_, ?_, ?_⟩
              · simp [TerminalSets.ofSequence?, hanswer, hbeyond]
              · intro terminal
                simp only [Std.ExtTreeSet.mem_union_iff, hterminals terminal, Grammar.Shows, hn,
                  true_and]
                exact Iff.rfl
              · rw [Grammar.erasable_cons_iff, hempty]
                exact ⟨fun hrest => ⟨hn, hrest⟩, fun hboth => hboth.2⟩
          | false =>
              have hn : ¬ grammar.Erasable [.nonterminal n] := fun herasable => by
                cases hiff.mpr herasable
              refine ⟨⟨sets.getD n ∅, false⟩, ?_, ?_, ?_⟩
              · simp [TerminalSets.ofSequence?, hanswer]
              · intro terminal
                simp only [Grammar.Shows, hn, false_and, or_false]
                exact Iff.rfl
              · rw [Grammar.erasable_cons_iff]
                exact ⟨fun hfalse => (by cases hfalse), fun hboth => absurd hboth.1 hn⟩

theorem governs (hwell : grammar.WellFormed) (hnullable : nullable.Exact grammar) :
    (rules grammar).Governs
      (fun sets => ∀ n : NonTerminal, n.index < grammar.numNonterminals → n ∈ sets)
      grammar.productions (visit? nullable) := by
  apply Family.governs rfl
  intro sets production _ hmem
  obtain ⟨gained, hgained, hterminals, _⟩ := ofSequence?_shows hnullable sets
    (hwell.declares_rhs production hmem)
  rw [hwell.eraseEpsilon_rhs production hmem] at hterminals
  refine ⟨gained.terminals, ?_, hterminals⟩
  simp only [visit?, hgained]
  rfl

theorem isLeast_begins (grammar : Grammar) (terminal : Terminal) :
    IsLeast { set | ∅ ⊆ set ∧ (rules grammar).Closed grammar.productions terminal set }
      { n | grammar.Begins (.terminal terminal) [.nonterminal n] } := by
  refine ⟨⟨Set.empty_subset _, ?_⟩, ?_⟩
  · intro production hmem hshows
    exact Grammar.Begins.expand hmem (Grammar.shows_begins_iff.mp hshows) []
  · rintro set ⟨_, hclosed⟩ n ⟨depth, hleads⟩
    rcases hleads.shows hclosed with hn | ⟨_, hnil⟩
    · exact hn
    · exact hnil.elim

theorem owners_initial (grammar : Grammar) (terminal : Terminal) :
    Family.owners (initial grammar) terminal = ∅ := by
  apply Set.eq_empty_of_forall_notMem
  exact fun n => Family.not_mem_owners_ofList_empty grammar.nonterminals n terminal

/-- Every nonterminal has an entry, with the terminals that begin it, and the sets
know which nonterminals can be erased. -/
structure Exact (first : FirstSets) (grammar : Grammar) : Prop where
  nullable : first.nullable.Exact grammar
  mem_sets : ∀ n : NonTerminal, n.index < grammar.numNonterminals → n ∈ first.sets
  owners_eq : ∀ terminal, Family.owners first.sets terminal =
    { n | grammar.Begins (.terminal terminal) [.nonterminal n] }

/-- The passes end by themselves, with every set exact. -/
theorem saturation?_exact (hwell : grammar.WellFormed) (hnullable : nullable.Exact grammar) :
    ∃ result, saturation? grammar nullable = some result ∧ result.Complete ∧
      1 ≤ result.passes ∧ result.passes ≤ grammar.numNonterminals + 1 ∧
      Exact ⟨result.state, nullable, result.passes⟩ grammar := by
  have hbelow : ∀ terminal, Propagation.Below grammar.numNonterminals
      ((rules grammar).holds (initial grammar) terminal) := by
    intro terminal n hn
    change n ∈ Family.owners (initial grammar) terminal at hn
    rw [owners_initial] at hn
    exact hn.elim
  have hbound : grammar.numNonterminals <
      grammar.productions.length * (grammar.rhsLength + 1) + 1 := by
    have hcount := hwell.numNonterminals_le
    exact Nat.lt_succ_of_le (hcount.trans (Nat.le_mul_of_pos_right _ (Nat.succ_pos _)))
  have hinitial : ∀ n : NonTerminal, n.index < grammar.numNonterminals →
      n ∈ initial grammar :=
    fun n hn => Family.mem_ofList_empty (Grammar.mem_nonterminals hn)
  obtain ⟨result, hresult, hentries, hpositive, hpasses, hcomplete, hleast⟩ :=
    (governs hwell hnullable).saturate_isLeast
      (fun production hmem => hwell.declares_lhs production hmem) hinitial hbelow hbound
  refine ⟨result, hresult, hcomplete, hpositive, hpasses, hnullable, hentries, ?_⟩
  intro terminal
  have hholds := hleast terminal
  change IsLeast { set | Family.owners (initial grammar) terminal ⊆ set ∧ _ } _ at hholds
  rw [owners_initial] at hholds
  exact hholds.unique (isLeast_begins grammar terminal)

theorem ofGrammar?_exact (hwell : grammar.WellFormed) (hnullable : nullable.Exact grammar) :
    ∃ first, ofGrammar? grammar nullable = some first ∧ first.Exact grammar := by
  obtain ⟨result, hresult, _, _, _, hexact⟩ := saturation?_exact hwell hnullable
  exact ⟨⟨result.state, nullable, result.passes⟩, by simp [ofGrammar?, hresult], hexact⟩

theorem Exact.first? {first : FirstSets} (hexact : first.Exact grammar) {n : NonTerminal}
    (hn : grammar.Declares (.nonterminal n)) :
    ∃ set, first.first? n = some set ∧
      ∀ terminal, terminal ∈ set ↔ grammar.Begins (.terminal terminal) [.nonterminal n] := by
  obtain ⟨set, hset, howner⟩ := Family.exists_getElem? (hexact.mem_sets n hn)
  refine ⟨set, hset, ?_⟩
  intro terminal
  rw [howner, hexact.owners_eq, Set.mem_ofPred_eq]

/-- FIRST of a string holds the terminals that begin what it stands for, and says
whether that can be erased. -/
theorem Exact.ofSequence? {first : FirstSets} (hexact : first.Exact grammar)
    {symbols : List Symbol}
    (hsymbols : ∀ n, .nonterminal n ∈ symbols → grammar.Declares (.nonterminal n)) :
    ∃ result, first.ofSequence? symbols = some result ∧
      (∀ terminal, terminal ∈ result.terminals ↔
        grammar.Begins (.terminal terminal) (eraseEpsilon symbols)) ∧
      (result.nullable = true ↔ grammar.Erasable (eraseEpsilon symbols)) := by
  obtain ⟨result, hresult, hterminals, hempty⟩ :=
    ofSequence?_shows hexact.nullable first.sets hsymbols
  refine ⟨result, hresult, ?_, hempty⟩
  intro terminal
  rw [hterminals, hexact.owners_eq, Grammar.shows_begins_iff]

end FirstSets

end Predictive
