import Predictive.Proofs.Run

/-!
The trace of a parse is a leftmost derivation, whether the table has conflicts or
not.  In every configuration the productions applied so far turn the start symbol
into the consumed input, followed by the stack above its bottom.
-/

namespace Predictive

namespace Trace

variable {input : List Lookahead}

theorem applied_append (left right : List Step) :
    (⟨input, left ++ right⟩ : Trace).applied =
      (⟨input, left⟩ : Trace).applied ++ (⟨input, right⟩ : Trace).applied :=
  List.filterMap_append

theorem applied_cons (step : Step) (steps : List Step) :
    (⟨input, step :: steps⟩ : Trace).applied =
      (⟨input, [step]⟩ : Trace).applied ++ (⟨input, steps⟩ : Trace).applied :=
  applied_append [step] steps

theorem applied_concat_ending (steps : List Step) (last : Configuration) (ending : Ending) :
    (⟨input, steps ++ [last.step ending.action]⟩ : Trace).applied =
      (⟨input, steps⟩ : Trace).applied := by
  rw [applied_append]
  cases ending with
  | accepted => simp [applied, Configuration.step, Ending.action]
  | stepBoundExceeded => simp [applied, Configuration.step, Ending.action]
  | rejected reason => cases reason <;> simp [applied, Configuration.step, Ending.action]

end Trace

/-- The productions turn the start symbol into the input before the position,
followed by the stack above its bottom; once the bottom is consumed, into the whole
input. -/
def Grammar.Simulates (grammar : Grammar) (terminals : List Terminal)
    (applied : List ProductionId) (configuration : Configuration) : Prop :=
  (∃ above, configuration.stack = above ++ [.endMarker] ∧
    configuration.position ≤ terminals.length ∧
    (∀ symbol ∈ above, grammar.Declares symbol) ∧
    grammar.DerivesLeftmost applied [.nonterminal grammar.start]
      (sentence (terminals.take configuration.position) ++ above)) ∨
  configuration.stack = [] ∧ configuration.position = terminals.length + 1 ∧
    grammar.DerivesLeftmost applied [.nonterminal grammar.start] (sentence terminals)

variable {grammar : Grammar} {terminals : List Terminal}

theorem Grammar.Declares.terminal_or_nonterminal {symbol : Symbol}
    (hdeclared : grammar.Declares symbol) :
    (∃ t, symbol = .terminal t) ∨ ∃ n, symbol = .nonterminal n := by
  cases symbol with
  | terminal t => exact Or.inl ⟨t, rfl⟩
  | nonterminal n => exact Or.inr ⟨n, rfl⟩
  | epsilon => exact hdeclared.elim
  | endMarker => exact hdeclared.elim

theorem Grammar.DerivesLeftmost.concat {ids : List ProductionId} {id : ProductionId}
    {first middle last : List Symbol} (hderives : grammar.DerivesLeftmost ids first middle)
    (hstep : grammar.YieldsLeftmost id middle last) :
    grammar.DerivesLeftmost (ids ++ [id]) first last :=
  hderives.trans (DerivesLeftmost.head hstep (DerivesLeftmost.refl last))

/-- On top of the stack is a symbol of the derived string, or the bottom. -/
theorem Grammar.Simulates.cases_top {applied : List ProductionId} {top : Symbol}
    {below : List Symbol} {position : Nat}
    (hsimulates : grammar.Simulates terminals applied ⟨top :: below, position⟩) :
    position ≤ terminals.length ∧
      ((∃ rest, below = rest ++ [.endMarker] ∧ grammar.Declares top ∧
          (∀ symbol ∈ rest, grammar.Declares symbol) ∧
          grammar.DerivesLeftmost applied [.nonterminal grammar.start]
            (sentence (terminals.take position) ++ top :: rest)) ∨
        top = .endMarker ∧ below = [] ∧
          grammar.DerivesLeftmost applied [.nonterminal grammar.start]
            (sentence (terminals.take position))) := by
  rcases hsimulates with ⟨above, hstack, hposition, hdeclared, hderives⟩ | ⟨hstack, _⟩
  · refine ⟨hposition, ?_⟩
    cases above with
    | nil =>
        obtain ⟨htop, hbelow⟩ : top = .endMarker ∧ below = [] := by simpa using hstack
        exact Or.inr ⟨htop, hbelow, by simpa using hderives⟩
    | cons symbol rest =>
        obtain ⟨rfl, hbelow⟩ : top = symbol ∧ below = rest ++ [.endMarker] := by
          simpa using hstack
        obtain ⟨htop, hrest⟩ := List.forall_mem_cons.mp hdeclared
        exact Or.inl ⟨rest, hbelow, htop, hrest, hderives⟩
  · cases hstack

namespace Parser

variable {parser : Parser} {first second last : Configuration}

theorem simulates_initial (hwell : parser.grammar.WellFormed) :
    parser.grammar.Simulates terminals [] parser.initial := by
  refine Or.inl ⟨[.nonterminal parser.grammar.start], rfl, Nat.zero_le _, ?_, ?_⟩
  · intro symbol hsymbol
    rw [List.mem_singleton.mp hsymbol]
    exact hwell.declares_start
  · exact Grammar.DerivesLeftmost.refl _

/-- A step keeps the derivation, and adds the production that it applies. -/
theorem Goes.simulates (hwell : parser.grammar.WellFormed)
    (hsound : parser.table.Sound parser.grammar) {action : Action}
    (hgoes : parser.Goes (inputOf terminals) first action second)
    {applied : List ProductionId}
    (hfirst : parser.grammar.Simulates terminals applied first) :
    parser.grammar.Simulates terminals
      (applied ++ (⟨inputOf terminals, [first.step action]⟩ : Trace).applied) second := by
  cases hgoes with
  | @expand n lookahead id production position hlookahead hcell hproduction below =>
      obtain ⟨hposition, ⟨rest, rfl, _, hrest, hderives⟩ | ⟨hend, _⟩⟩ := hfirst.cases_top
      · obtain ⟨rfl, _⟩ := hsound.of_production? hcell hproduction
        refine Or.inl ⟨production.symbols ++ rest, by simp, hposition, ?_, ?_⟩
        · intro symbol hsymbol
          rcases List.mem_append.mp hsymbol with hnew | hold
          · exact hwell.declares_symbols production
              (List.mem_of_getElem? hproduction) symbol hnew
          · exact hrest symbol hold
        · have hstep := Grammar.YieldsLeftmost.step hproduction
            (terminals.take position) rest
          rw [List.append_assoc] at hstep
          exact hderives.concat hstep
      · cases hend
  | @consume lookahead position hlookahead below =>
      have happlied : (⟨inputOf terminals,
          [(⟨lookahead.symbol :: below, position⟩ : Configuration).step .consume]⟩ :
            Trace).applied = [] := rfl
      rw [happlied, List.append_nil]
      obtain ⟨_, hcases⟩ := hfirst.cases_top
      rcases inputOf_eq_some_iff.mp hlookahead with ⟨t, ht, rfl⟩ | ⟨rfl, rfl⟩
      · rcases hcases with ⟨rest, rfl, _, hrest, hderives⟩ | ⟨hend, _⟩
        · obtain ⟨hlt, rfl⟩ := List.getElem?_eq_some_iff.mp ht
          refine Or.inl ⟨rest, rfl, hlt, hrest, ?_⟩
          rw [List.take_succ_eq_append_getElem hlt, sentence_append, List.append_assoc]
          exact hderives
        · cases hend
      · rcases hcases with ⟨rest, _, hdeclared, _⟩ | ⟨_, rfl, hderives⟩
        · exact hdeclared.elim
        · rw [List.take_length] at hderives
          exact Or.inr ⟨rfl, rfl, hderives⟩

/-- A run keeps the derivation, and adds the productions that it applies. -/
theorem Moves.simulates (hwell : parser.grammar.WellFormed)
    (hsound : parser.table.Sound parser.grammar) {steps : List Step}
    (hmoves : parser.Moves (inputOf terminals) first steps last)
    {applied : List ProductionId}
    (hfirst : parser.grammar.Simulates terminals applied first) :
    parser.grammar.Simulates terminals
      (applied ++ (⟨inputOf terminals, steps⟩ : Trace).applied) last := by
  induction hmoves generalizing applied with
  | refl => simpa [Trace.applied] using hfirst
  | head hgoes _ ih =>
      have hrest := ih (hgoes.simulates hwell hsound hfirst)
      rw [Trace.applied_cons, ← List.append_assoc]
      exact hrest

/-- The position counts the symbols consumed. -/
theorem Moves.position_eq {input : List Lookahead} {steps : List Step}
    (hmoves : parser.Moves input first steps last) :
    last.position = first.position + steps.countP (·.action = .consume) := by
  induction hmoves with
  | refl => rfl
  | head hgoes _ ih =>
      rw [ih, List.countP_cons]
      cases hgoes with
      | expand => simp [Configuration.step]
      | consume =>
          simp only [Configuration.step, decide_true, ↓reduceIte]
          omega

/-- Every step of a run expands or consumes. -/
theorem Moves.length_eq {input : List Lookahead} {steps : List Step}
    (hmoves : parser.Moves input first steps last) :
    steps.length =
      (⟨input, steps⟩ : Trace).applied.length + steps.countP (·.action = .consume) := by
  induction hmoves with
  | refl => rfl
  | head hgoes _ ih =>
      rw [Trace.applied_cons, List.length_append, List.countP_cons, List.length_cons, ih]
      cases hgoes with
      | expand =>
          simp [Configuration.step, Trace.applied]
          omega
      | consume =>
          simp [Configuration.step, Trace.applied]
          omega

end Parser

/-- Every parse of a finished grammar is a leftmost derivation, step by step; an
accepted one is a leftmost derivation of the input, and consumes each of its
lookaheads once. -/
theorem Analysis.parse?_simulates (hfinished : grammar.Finished) (policy : ConflictPolicy)
    (limit : StepLimit) (terminals : List Terminal) :
    ∃ analysis outcome, ofGrammar? grammar policy = some analysis ∧
      (analysis.parser limit).parse? terminals = some outcome ∧
      (∀ count step, outcome.trace.steps[count]? = some step → step.stack ≠ [] →
        step.position ≤ terminals.length ∧
        ∃ above, step.stack = above ++ [.endMarker] ∧
          (∀ symbol ∈ above, (∃ t, symbol = .terminal t) ∨ ∃ n, symbol = .nonterminal n) ∧
          grammar.DerivesLeftmost
            ({ outcome.trace with steps := outcome.trace.steps.take count }).applied
            [.nonterminal grammar.start]
            (sentence (terminals.take step.position) ++ above)) ∧
      (outcome.verdict = .accepted →
        grammar.DerivesLeftmost outcome.trace.applied [.nonterminal grammar.start]
          (sentence terminals) ∧
        outcome.trace.steps.countP (·.action = .consume) = terminals.length + 1) := by
  have hwell := hfinished.wellFormed
  obtain ⟨analysis, hanalysis, rfl, hsound, _⟩ := ofGrammar?_exact hwell policy
  obtain ⟨steps, last, ending, hmoves, hparse, hend⟩ :=
    @Parser.parse?_eq (analysis.parser limit) hsound terminals
  refine ⟨analysis, _, hanalysis, hparse, ?_, ?_⟩
  · intro count step hstep hstack
    obtain ⟨middle, action, hbefore, rfl⟩ := hmoves.exists_configuration hstep
    have hcount : count ≤ steps.length := by
      obtain ⟨hlt, _⟩ := List.getElem?_eq_some_iff.mp hstep
      simpa [Nat.lt_succ_iff] using hlt
    rcases hbefore.simulates hwell hsound (Parser.simulates_initial hwell) with
      ⟨above, habove, hposition, hdeclared, hderives⟩ | ⟨hempty, _⟩
    · refine ⟨hposition, above, habove, ?_, ?_⟩
      · exact fun symbol hsymbol => (hdeclared symbol hsymbol).terminal_or_nonterminal
      · simp only [List.take_append_of_le_length hcount]
        exact hderives
    · exact absurd hempty hstack
  · intro hverdict
    obtain rfl := Ending.verdict_eq_accepted_iff.mp hverdict
    have hstops := hend.resolve_left (by simp)
    obtain ⟨hstack, hposition⟩ := Parser.stops_accepted_iff.mp hstops
    have hconsumed := hmoves.position_eq
    rcases hmoves.simulates hwell hsound (Parser.simulates_initial hwell) with
      ⟨above, habove, _⟩ | ⟨_, hlength, hderives⟩
    · simp [hstack] at habove
    · rw [Trace.applied_concat_ending]
      refine ⟨hderives, ?_⟩
      rw [List.countP_append, ← hlength, hconsumed]
      simp [Configuration.step, Ending.action, Parser.initial]

/-- In the grammar of expressions, i + i * i. -/
theorem Analysis.parse?_simulates_expressions :
    Grammar.expressions.Finished ∧
    ∃ analysis outcome, ofGrammar? .expressions .lastWins = some analysis ∧
      (analysis.parser .auto).parse? ([4, 0, 4, 1, 4].map .ofIndex) = some outcome ∧
      outcome.verdict = .accepted ∧
      Grammar.expressions.DerivesLeftmost outcome.trace.applied
        [.nonterminal Grammar.expressions.start] (sentence ([4, 0, 4, 1, 4].map .ofIndex)) ∧
      outcome.trace.steps.countP (·.action = .consume) = 6 := by
  obtain ⟨analysis, outcome, hanalysis, hparse, _, haccepted⟩ :=
    parse?_simulates Grammar.finished_expressions .lastWins .auto ([4, 0, 4, 1, 4].map .ofIndex)
  have hrun : ((ofGrammar? .expressions .lastWins).bind fun known =>
      ((known.parser .auto).parse? ([4, 0, 4, 1, 4].map .ofIndex)).map (·.verdict)) =
        some .accepted := by decide +kernel
  have hverdict : outcome.verdict = .accepted := by
    rw [hanalysis, Option.bind_some, hparse] at hrun
    exact Option.some.inj hrun
  exact ⟨Grammar.finished_expressions, analysis, outcome, hanalysis, hparse, hverdict,
    haccepted hverdict⟩

end Predictive
