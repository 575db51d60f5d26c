import Predictive.Proofs.Run

/-!
A step limit only truncates.  The machine does not look at the limit, so the runs under two
limits are one run.  Either it comes to its end within the lower limit, and both parses have
the same outcome, or the lower limit cuts it off, and what it has recorded until then is the
beginning of the other trace.
-/

namespace Predictive

/-- The outcome is cut off after so many steps, up to which the other one agrees with it; the
step where it is cut off is recorded in the configuration in which the other one goes on. -/
structure Outcome.CutsOff (short long : Outcome) (most : Nat) : Prop where
  verdict_eq : short.verdict = .stepBoundExceeded most most
  length_eq : short.trace.length = most + 1
  take_eq : short.trace.steps.take most = long.trace.steps.take most
  configuration_eq : ∃ cut onward, short.trace.steps[most]? = some cut ∧
    long.trace.steps[most]? = some onward ∧ cut.stack = onward.stack ∧
      cut.position = onward.position

/-- The verdict of a run that is not cut off does not depend on the limit. -/
theorem Ending.verdict_eq_of_ne {ending : Ending} (hending : ending ≠ .stepBoundExceeded)
    (few many step : Nat) : ending.verdict few step = ending.verdict many step := by
  cases ending with
  | accepted => rfl
  | rejected reason => rfl
  | stepBoundExceeded => exact absurd rfl hending

namespace Parser

variable {grammar : Grammar} {table : Table} {limit : StepLimit} {input : List Lookahead}
  {terminals : List Terminal} {first second last : Configuration} {few many : Nat}

/-- The machine does not look at the limit. -/
theorem Goes.withLimit {action : Action}
    (hgoes : (⟨grammar, table, limit⟩ : Parser).Goes input first action second)
    (other : StepLimit) : (⟨grammar, table, other⟩ : Parser).Goes input first action second := by
  cases hgoes with
  | expand hlookahead hcell hproduction below =>
      apply Goes.expand hlookahead
      · exact hcell
      · exact hproduction
  | consume hlookahead below => exact Goes.consume hlookahead below

theorem Moves.withLimit {steps : List Step}
    (hmoves : (⟨grammar, table, limit⟩ : Parser).Moves input first steps last)
    (other : StepLimit) : (⟨grammar, table, other⟩ : Parser).Moves input first steps last := by
  induction hmoves with
  | refl configuration => exact Moves.refl configuration
  | head hgoes _ ih => exact Moves.head (hgoes.withLimit other) ih

theorem Stops.withLimit {ending : Ending}
    (hstops : (⟨grammar, table, limit⟩ : Parser).Stops input last ending)
    (other : StepLimit) : (⟨grammar, table, other⟩ : Parser).Stops input last ending := by
  cases hstops with
  | endOfStack position => exact Stops.endOfStack position
  | inputExhausted hlookahead top below => exact Stops.inputExhausted hlookahead top below
  | noRule hlookahead hcell below =>
      apply Stops.noRule hlookahead
      exact hcell
  | mismatch hlookahead hkind hother below =>
      exact Stops.mismatch hlookahead hkind hother below

/-- A run that reaches the lower limit is cut off there. -/
theorem Moves.exists_cutsOff {steps : List Step} {ending : Ending} {verdict : Verdict}
    (hmoves : (⟨grammar, table, .fixed few⟩ : Parser).Moves (inputOf terminals)
      (⟨grammar, table, .fixed few⟩ : Parser).initial steps last)
    (hfew : few ≤ steps.length) (hlast : steps.length = few → last.stack ≠ []) :
    ∃ short, (⟨grammar, table, .fixed few⟩ : Parser).parse? terminals = some short ∧
      short.CutsOff ⟨⟨inputOf terminals, steps ++ [last.step ending.action]⟩, verdict⟩ few := by
  have hlength := List.length_take_of_le hfew
  obtain ⟨middle, hafter, hparse⟩ : ∃ middle : Configuration,
      (⟨grammar, table, .fixed few⟩ : Parser).Moves (inputOf terminals) middle
        (steps.drop few) last ∧
      (⟨grammar, table, .fixed few⟩ : Parser).parse? terminals = some
        { trace := ⟨inputOf terminals, steps.take few ++ [middle.step .stepBoundExceeded]⟩
          verdict := .stepBoundExceeded few few } :=
    parse?_of_le hmoves hfew hlast
  obtain ⟨action, rest, hhead⟩ := hafter.exists_head ending.action
  -- Both traces go on from the same configuration, each with an action of its own.
  have honward : (steps ++ [last.step ending.action])[few]? = some (middle.step action) := by
    rw [← List.take_append_drop few steps, List.append_assoc,
      List.getElem?_append_right (Nat.le_of_eq hlength), hlength, Nat.sub_self]
    exact congrArg (·[0]?) hhead
  have hcut : (steps.take few ++ [middle.step .stepBoundExceeded])[few]? =
      some (middle.step .stepBoundExceeded) := by
    rw [List.getElem?_append_right (Nat.le_of_eq hlength), hlength, Nat.sub_self]
    rfl
  refine ⟨_, hparse, rfl, ?_, ?_, _, _, hcut, honward, rfl, rfl⟩
  · simpa [Trace.length] using hlength
  · change (steps.take few ++ _).take few = (steps ++ _).take few
    rw [List.take_append_of_le_length (Nat.le_of_eq hlength.symm),
      List.take_append_of_le_length hfew, List.take_take, Nat.min_self]

/-- Of two limits the lower one either makes no difference or cuts the parse off. -/
theorem exists_parse?_fixed (hrange : table.InRange grammar) (terminals : List Terminal)
    (hle : few ≤ many) :
    ∃ short long, (⟨grammar, table, .fixed few⟩ : Parser).parse? terminals = some short ∧
      (⟨grammar, table, .fixed many⟩ : Parser).parse? terminals = some long ∧
      ((∀ most step, short.verdict ≠ .stepBoundExceeded most step) ∧ long = short ∨
        short.CutsOff long few) := by
  obtain ⟨steps, last, ending, hmoves, hlong, hend⟩ :=
    @exists_parse? ⟨grammar, table, .fixed many⟩ hrange terminals
  have hmovesFew := hmoves.withLimit (.fixed few)
  by_cases hwithin : steps.length < few ∨ steps.length = few ∧ last.stack = []
  · have hstops : (⟨grammar, table, .fixed many⟩ : Parser).Stops (inputOf terminals) last
        ending := by
      rcases hend with ⟨hstops, _⟩ | ⟨_, hmany, hstack⟩
      · exact hstops
      · change steps.length = many at hmany
        rcases hwithin with hless | ⟨_, hnil⟩
        · omega
        · exact absurd hnil hstack
    have hending := hstops.ne_stepBoundExceeded
    have hshort := parse?_of_stops hmovesFew (hstops.withLimit (.fixed few)) hwithin
    refine ⟨_, _, hshort, hlong, Or.inl ⟨?_, ?_⟩⟩
    · exact Ending.verdict_ne_stepBoundExceeded hending _ _
    · exact congrArg (Outcome.mk _) (Ending.verdict_eq_of_ne hending _ _ _)
  · have hfew : few ≤ steps.length := by omega
    have hlast : steps.length = few → last.stack ≠ [] :=
      fun hequal hnil => hwithin (Or.inr ⟨hequal, hnil⟩)
    obtain ⟨short, hshort, hcuts⟩ := hmovesFew.exists_cutsOff hfew hlast
    exact ⟨short, _, hshort, hlong, Or.inr hcuts⟩

end Parser

namespace Analysis

variable {grammar : Grammar}

/-- A parse that a limit does not cut off has the same outcome under every higher limit; one
that is cut off has recorded what every higher limit records, up to where it is cut off. -/
theorem parse?_truncated (hfinished : grammar.Finished) (policy : ConflictPolicy) :
    ∃ analysis, ofGrammar? grammar policy = some analysis ∧
      ∀ (terminals : List Terminal) (few many : Nat), few ≤ many →
        ∃ short long, (analysis.parser (.fixed few)).parse? terminals = some short ∧
          (analysis.parser (.fixed many)).parse? terminals = some long ∧
          ((∀ most step, short.verdict ≠ .stepBoundExceeded most step) → long = short) ∧
          ((∃ most step, short.verdict = .stepBoundExceeded most step) →
            short.CutsOff long few) := by
  obtain ⟨analysis, hanalysis, rfl, hsound, _⟩ :=
    ofGrammar?_exact hfinished.wellFormed policy
  refine ⟨analysis, hanalysis, ?_⟩
  intro terminals few many hle
  obtain ⟨short, long, hshort, hlong, hcases⟩ :=
    Parser.exists_parse?_fixed hsound.inRange terminals hle
  refine ⟨short, long, hshort, hlong, ?_, ?_⟩
  · intro hstopped
    rcases hcases with ⟨_, hequal⟩ | hcuts
    · exact hequal
    · exact absurd hcuts.verdict_eq (hstopped few few)
  · rintro ⟨most, step, hverdict⟩
    exact hcases.resolve_left fun hboth => hboth.1 most step hverdict

/-- In the grammar of expressions a letter is accepted after seven transitions.  A limit of three
cuts it off after three steps of the same run, and a limit of seven makes no difference. -/
theorem parse?_truncated_expressions :
    Grammar.expressions.Finished ∧
    ∃ analysis cut short long, ofGrammar? .expressions .lastWins = some analysis ∧
      (analysis.parser (.fixed 3)).parse? [⟨4⟩] = some cut ∧
      (analysis.parser (.fixed 7)).parse? [⟨4⟩] = some short ∧
      (analysis.parser (.fixed 20)).parse? [⟨4⟩] = some long ∧
      short.verdict = .accepted ∧ long = short ∧ cut.CutsOff long 3 := by
  obtain ⟨analysis, hanalysis, htruncated⟩ :=
    parse?_truncated Grammar.finished_expressions .lastWins
  obtain ⟨cut, long, hcut, hlong, _, hcuts⟩ := htruncated [⟨4⟩] 3 20 (by decide)
  obtain ⟨short, long', hshort, hlong', hsame, _⟩ := htruncated [⟨4⟩] 7 20 (by decide)
  obtain rfl := Option.some.inj (hlong.symm.trans hlong')
  have hruns : ((ofGrammar? .expressions .lastWins).bind fun known =>
      ((known.parser (.fixed 3)).parse? [⟨4⟩]).bind fun cut =>
        ((known.parser (.fixed 7)).parse? [⟨4⟩]).map fun short =>
          (cut.verdict, short.verdict)) = some (.stepBoundExceeded 3 3, .accepted) := by
    decide +kernel
  rw [hanalysis, Option.bind_some, hcut, Option.bind_some, hshort, Option.map_some,
    Option.some.injEq] at hruns
  obtain ⟨hcutVerdict, hshortVerdict⟩ := Prod.mk.inj hruns
  refine ⟨Grammar.finished_expressions, analysis, cut, short, long, hanalysis, hcut, hshort,
    hlong, hshortVerdict, hsame ?_, hcuts ⟨3, 3, hcutVerdict⟩⟩
  rw [hshortVerdict]
  exact fun _ _ => Verdict.noConfusion

end Analysis

end Predictive
