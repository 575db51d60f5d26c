import Predictive.Proofs.Naming

/-!
What a builder refuses.  It refuses to finish for want of alternatives before all else, then
for the first faulty name in reading order, and then for an unknown start symbol.  A rule that
gets no alternative plays no part, and neither does its name.
-/

namespace Predictive

/-- The name has this fault, and none of those that are looked for before it. -/
def NameFault.Spoils : NameFault → String → Prop
  | empty, name => name = ""
  | blank, name => name ≠ "" ∧ ∃ c ∈ name.toList, Text.isBlank c
  | reserved, name => name ≠ "" ∧ (∀ c ∈ name.toList, ¬ Text.isBlank c) ∧
      (name = Symbol.epsilonName ∨ name = Symbol.endMarkerName)

/-- The name can name a symbol. -/
def Faultless (name : String) : Prop := ∀ fault : NameFault, ¬ fault.Spoils name

theorem nameFault?_eq_some_iff {name : String} {fault : NameFault} :
    nameFault? name = some fault ↔ fault.Spoils name := by
  have hany : name.toList.any Text.isBlank = true ↔ ∃ c ∈ name.toList, Text.isBlank c :=
    List.any_eq_true
  unfold nameFault?
  simp only [String.isEmpty_iff, hany]
  by_cases hempty : name = ""
  case pos => cases fault <;> simp [NameFault.Spoils, hempty]
  case neg =>
    rw [if_neg hempty]
    by_cases hblank : ∃ c ∈ name.toList, Text.isBlank c
    case pos =>
      rw [if_pos hblank]
      cases fault <;> simp_all [NameFault.Spoils]
    case neg =>
      rw [if_neg hblank]
      split
      · cases fault <;> simp_all [NameFault.Spoils]
      · cases fault <;> simp_all [NameFault.Spoils]

theorem nameFault?_eq_none_iff_faultless {name : String} :
    nameFault? name = none ↔ Faultless name := by
  rw [Option.eq_none_iff_forall_ne_some]
  exact forall_congr' fun fault => not_congr nameFault?_eq_some_iff

theorem nameFault?_eq_none_iff {name : String} :
    nameFault? name = none ↔ name.isEmpty = false ∧ name.toList.any Text.isBlank = false ∧
      name ≠ Symbol.epsilonName ∧ name ≠ Symbol.endMarkerName := by
  unfold nameFault?
  cases name.isEmpty <;> cases name.toList.any Text.isBlank <;> simp

instance (fault : NameFault) (name : String) : Decidable (fault.Spoils name) :=
  decidable_of_iff _ nameFault?_eq_some_iff

instance (name : String) : Decidable (Faultless name) :=
  decidable_of_iff _ nameFault?_eq_none_iff_faultless

namespace Alternative

/-- In reading order this name, in the alternative at the position, is the first that has a
fault. -/
def FirstFault (alternatives : List Alternative) (position : Nat) (name : String)
    (fault : NameFault) : Prop :=
  ∃ before alternative after earlier later,
    alternatives = before ++ alternative :: after ∧ before.length = position ∧
    alternative.names = earlier ++ name :: later ∧ fault.Spoils name ∧
    ∀ other ∈ before.flatMap names ++ earlier, Faultless other

/-- No name in the alternatives has a fault. -/
def AllFaultless (alternatives : List Alternative) : Prop :=
  ∀ alternative ∈ alternatives, ∀ name ∈ alternative.names, Faultless name

instance (alternatives : List Alternative) : Decidable (AllFaultless alternatives) :=
  inferInstanceAs (Decidable (∀ alternative ∈ alternatives, ∀ name ∈ alternative.names,
    Faultless name))

/-- The result is what the alternatives and the start symbol call for: each refusal has its
own condition, and there is a grammar if none of them is met. -/
structure Decides (alternatives : List Alternative) (start : String)
    (result : Except GrammarError Grammar) : Prop where
  noProductions_iff : result = .error .noProductions ↔ alternatives = []
  malformedName_iff : ∀ id name fault, result = .error (.malformedName id name fault) ↔
    FirstFault alternatives id.index name fault
  unknownStart_iff : ∀ name, result = .error (.unknownStart name) ↔
    alternatives ≠ [] ∧ AllFaultless alternatives ∧
      start ∉ alternatives.map (·.lhs) ∧ name = start
  exists_grammar_iff : (∃ grammar, result = .ok grammar) ↔
    alternatives ≠ [] ∧ AllFaultless alternatives ∧ start ∈ alternatives.map (·.lhs)

theorem FirstFault.position_lt {alternatives : List Alternative} {position : Nat}
    {name : String} {fault : NameFault} (hfirst : FirstFault alternatives position name fault) :
    position < alternatives.length := by
  obtain ⟨before, alternative, after, _, _, rfl, rfl, _⟩ := hfirst
  simp

end Alternative

namespace Draft

variable {draft : Draft} {start : String}

theorem malformed?_eq_none_iff :
    draft.malformed? = none ↔ Alternative.AllFaultless draft.alternatives := by
  simp only [Alternative.AllFaultless, malformed?, List.findSome?_eq_none_iff, Option.map_eq_none_iff,
    nameFault?_eq_none_iff_faultless]
  constructor
  · intro hnone alternative hmem
    obtain ⟨position, hposition⟩ := List.getElem?_of_mem hmem
    exact hnone (alternative, position) (List.mk_mem_zipIdx_iff_getElem?.mpr hposition)
  · rintro hall ⟨alternative, position⟩ hplaced
    exact hall alternative (List.mem_of_getElem? (List.mk_mem_zipIdx_iff_getElem?.mp hplaced))

theorem malformed?_eq_some_iff {error : GrammarError} :
    draft.malformed? = some error ↔ ∃ position name fault,
      Alternative.FirstFault draft.alternatives position name fault ∧
        error = .malformedName (.ofIndex position) name fault := by
  constructor
  · intro hfound
    obtain ⟨placed, ⟨alternative, position⟩, _, hsplit, hnamed, hbefore⟩ :=
      List.findSome?_eq_some_iff.mp hfound
    obtain ⟨before, rest, hall, rfl, hrest⟩ := List.zipIdx_eq_append_iff.mp hsplit
    obtain ⟨_, after, rfl, hplace, _⟩ := List.zipIdx_eq_cons_iff.mp hrest.symm
    obtain ⟨rfl, rfl⟩ := Prod.mk.inj hplace
    obtain ⟨earlier, name, later, hnames, hname, hearlier⟩ :=
      List.findSome?_eq_some_iff.mp hnamed
    obtain ⟨fault, hfault, rfl⟩ := Option.map_eq_some_iff.mp hname
    have hclean : (⟨before, none⟩ : Draft).malformed? = none :=
      List.findSome?_eq_none_iff.mpr hbefore
    rw [malformed?_eq_none_iff] at hclean
    refine ⟨before.length, name, fault, ⟨before, alternative, after, earlier, later, hall, rfl,
      hnames, nameFault?_eq_some_iff.mp hfault, ?_⟩, by rw [Nat.zero_add]⟩
    rw [List.forall_mem_append, List.forall_mem_flatMap]
    refine ⟨hclean, fun other hother => ?_⟩
    exact nameFault?_eq_none_iff_faultless.mp (Option.map_eq_none_iff.mp (hearlier other hother))
  · rintro ⟨_, name, fault, ⟨before, alternative, after, earlier, later, hall, rfl, hnames,
      hfault, hfree⟩, rfl⟩
    rw [List.forall_mem_append, List.forall_mem_flatMap] at hfree
    obtain ⟨hbefore, hearlier⟩ := hfree
    have hclean : (⟨before, none⟩ : Draft).malformed? = none :=
      malformed?_eq_none_iff.mpr hbefore
    refine List.findSome?_eq_some_iff.mpr ⟨before.zipIdx, (alternative, before.length),
      after.zipIdx (before.length + 1), ?_, ?_, List.findSome?_eq_none_iff.mp hclean⟩
    · rw [hall, List.zipIdx_append, List.zipIdx_cons, Nat.zero_add]
    · refine List.findSome?_eq_some_iff.mpr ⟨earlier, name, later, hnames, ?_, ?_⟩
      · rw [nameFault?_eq_some_iff.mpr hfault, Option.map_some]
      · intro other hother
        rw [nameFault?_eq_none_iff_faultless.mpr (hearlier other hother), Option.map_none]

/-- The questions that finishing asks, one after the other. -/
theorem finish_cases (draft : Draft) (start : String) :
    draft.alternatives = [] ∧ draft.finish start = .error .noProductions ∨
      draft.alternatives ≠ [] ∧
        ((∃ id name fault, draft.malformed? = some (.malformedName id name fault) ∧
            draft.finish start = .error (.malformedName id name fault)) ∨
          draft.malformed? = none ∧
            (start ∉ draft.nonterminalNames ∧ draft.finish start = .error (.unknownStart start) ∨
              start ∈ draft.nonterminalNames ∧ draft.finish start = .ok (draft.resolve start))) := by
  unfold finish
  cases hempty : draft.alternatives.isEmpty with
  | true => exact Or.inl ⟨List.isEmpty_iff.mp hempty, rfl⟩
  | false =>
      refine Or.inr ⟨List.isEmpty_eq_false_iff.mp hempty, ?_⟩
      cases hmalformed : draft.malformed? with
      | some error =>
          obtain ⟨position, name, fault, _, rfl⟩ := malformed?_eq_some_iff.mp hmalformed
          exact Or.inl ⟨.ofIndex position, name, fault, rfl, rfl⟩
      | none =>
          refine Or.inr ⟨rfl, ?_⟩
          by_cases hstart : start ∈ draft.nonterminalNames <;> simp [hstart]

theorem finish_eq_noProductions_iff :
    draft.finish start = .error .noProductions ↔ draft.alternatives = [] := by
  obtain ⟨hnone, hfinish⟩ | ⟨hsome, ⟨_, _, _, _, hfinish⟩ | ⟨_, ⟨_, hfinish⟩ | ⟨_, hfinish⟩⟩⟩ :=
    draft.finish_cases start
  · exact iff_of_true hfinish hnone
  · simp [hfinish, hsome]
  · simp [hfinish, hsome]
  · simp [hfinish, hsome]

theorem finish_eq_malformedName_iff {id : ProductionId} {name : String} {fault : NameFault} :
    draft.finish start = .error (.malformedName id name fault) ↔
      draft.malformed? = some (.malformedName id name fault) := by
  obtain ⟨hnone, hfinish⟩ | ⟨_, ⟨_, _, _, hmalformed, hfinish⟩ |
    ⟨hclean, ⟨_, hfinish⟩ | ⟨_, hfinish⟩⟩⟩ := draft.finish_cases start
  · simp [hfinish, malformed?, hnone]
  · simp [hfinish, hmalformed]
  · simp [hfinish, hclean]
  · simp [hfinish, hclean]

theorem finish_eq_unknownStart_iff {name : String} :
    draft.finish start = .error (.unknownStart name) ↔ draft.alternatives ≠ [] ∧
      draft.malformed? = none ∧ start ∉ draft.nonterminalNames ∧ name = start := by
  obtain ⟨hnone, hfinish⟩ | ⟨hsome, ⟨_, _, _, hmalformed, hfinish⟩ |
    ⟨hclean, ⟨hstart, hfinish⟩ | ⟨hstart, hfinish⟩⟩⟩ := draft.finish_cases start
  · simp [hfinish, hnone]
  · simp [hfinish, hmalformed]
  · simp [hfinish, hsome, hclean, hstart, eq_comm]
  · simp [hfinish, hstart]

/-- A draft is refused or finished as its alternatives call for. -/
theorem decides_finish (hproductions : draft.alternatives.length < 2 ^ 32) (start : String) :
    Alternative.Decides draft.alternatives start (draft.finish start) where
  noProductions_iff := finish_eq_noProductions_iff
  malformedName_iff id name fault := by
    rw [finish_eq_malformedName_iff, malformed?_eq_some_iff]
    constructor
    · rintro ⟨position, _, _, hfirst, herror⟩
      obtain ⟨rfl, rfl, rfl⟩ := GrammarError.malformedName.inj herror
      rwa [ProductionId.index_ofIndex (hfirst.position_lt.trans hproductions)]
    · intro hfirst
      exact ⟨id.index, name, fault, hfirst, by rw [ProductionId.ofIndex_index]⟩
  unknownStart_iff name := by
    rw [finish_eq_unknownStart_iff, malformed?_eq_none_iff, mem_nonterminalNames_iff]
  exists_grammar_iff := by
    simp only [finish_eq_ok_iff, malformed?_eq_none_iff, mem_nonterminalNames_iff,
      List.isEmpty_eq_false_iff, exists_and_left, exists_eq', and_true]

end Draft

namespace BuilderCall

/-- The calls without those that open a rule which gets no alternative. -/
def withoutIdle : List BuilderCall → List BuilderCall
  | [] | [rule _] => []
  | rule _ :: rule lhs :: rest => withoutIdle (rule lhs :: rest)
  | call :: rest => call :: withoutIdle rest

/-- A rule without alternatives adds nothing. -/
theorem added_withoutIdle (openRule : Option String) (calls : List BuilderCall) :
    added openRule (withoutIdle calls) = added openRule calls := by
  fun_induction withoutIdle calls generalizing openRule with
  | case1 => rfl
  | case2 => rfl
  | case3 _ lhs rest ih => exact ih openRule
  | case4 call rest _ _ ih =>
      cases call with
      | rule lhs => exact ih (some lhs)
      | alternative rhs => simp only [added, ih]
      | epsilon => simp only [added, ih]

end BuilderCall

namespace Builder

/-- Calls on an empty builder are refused or finished as the alternatives that they add call
for.  Calls that differ in nothing but rules without alternatives come to the same result. -/
theorem finish_decides {calls : List BuilderCall} (hcalls : BuilderCall.FromEmpty calls)
    (hproductions : (BuilderCall.added none calls).length < 2 ^ 32) :
    ∃ builder, empty.calls? calls = some builder ∧
      (∀ start, Alternative.Decides (BuilderCall.added none calls) start
        (builder.finish start)) ∧
      ∀ others, BuilderCall.FromEmpty others →
        BuilderCall.withoutIdle others = BuilderCall.withoutIdle calls →
        ∃ other, empty.calls? others = some other ∧
          ∀ start, other.finish start = builder.finish start := by
  obtain ⟨builder, hbuilder, hadded⟩ := exists_calls?_empty hcalls
  refine ⟨builder, hbuilder, ?_, ?_⟩
  · intro start
    rw [← hadded] at hproductions ⊢
    rw [finish_eq_finish_draft]
    exact Draft.decides_finish hproductions start
  · intro others hothers hsame
    obtain ⟨other, hother, haddedOther⟩ := exists_calls?_empty hothers
    have halternatives : other.draft.alternatives = builder.draft.alternatives := by
      rw [haddedOther, hadded, ← BuilderCall.added_withoutIdle none others, hsame,
        BuilderCall.added_withoutIdle]
    refine ⟨other, hother, fun start => ?_⟩
    rw [finish_eq_finish_draft, finish_eq_finish_draft]
    exact Draft.finish_eq_of_alternatives_eq halternatives start

/-- The first fault is a reserved name; an empty name comes behind it, and another one belongs
to a rule without alternatives. -/
def faultyNames : List BuilderCall :=
  [.rule "", .rule "S", .alternative ["x"], .alternative ["y", "$", ""], .rule "a b"]

/-- A sound rule between two that come to nothing. -/
def idleRules : List BuilderCall :=
  [.rule "a b", .rule "S", .alternative ["x", "S"], .epsilon, .rule "T"]

/-- A faulty name is refused before the unknown start, and the start has to have an
alternative, which neither a terminal nor an idle rule has. -/
theorem finish_decides_idleRules :
    BuilderCall.FromEmpty faultyNames ∧ BuilderCall.FromEmpty idleRules ∧
    (∃ builder, empty.calls? faultyNames = some builder ∧
      builder.finish "T" = .error (.malformedName ⟨1⟩ "$" .reserved)) ∧
    ∃ builder other, empty.calls? idleRules = some builder ∧
      empty.calls? [.rule "S", .alternative ["x", "S"], .epsilon] = some other ∧
      other.finish "S" = builder.finish "S" ∧
      (∃ grammar, builder.finish "S" = .ok grammar) ∧
      ∀ start ∈ ["x", "T", "a b"], builder.finish start = .error (.unknownStart start) := by
  obtain ⟨faulty, hfaulty, hrefused, _⟩ :=
    @finish_decides faultyNames trivial (by decide +kernel)
  obtain ⟨builder, hbuilder, hdecides, hsame⟩ :=
    @finish_decides idleRules trivial (by decide +kernel)
  obtain ⟨other, hother, hequal⟩ :=
    hsame [.rule "S", .alternative ["x", "S"], .epsilon] trivial rfl
  have hfirst : Alternative.FirstFault (BuilderCall.added none faultyNames) 1 "$" .reserved :=
    ⟨[⟨"S", ["x"]⟩], ⟨"S", ["y", "$", ""]⟩, [], ["S", "y"], [""], rfl, rfl, rfl,
      by decide +kernel, by decide +kernel⟩
  have hclean : Alternative.AllFaultless (BuilderCall.added none idleRules) := by
    decide +kernel
  have hsome : BuilderCall.added none idleRules ≠ [] := List.cons_ne_nil _ _
  refine ⟨trivial, trivial, ⟨faulty, hfaulty, ?_⟩, builder, other, hbuilder, hother,
    hequal "S", ?_, ?_⟩
  · exact ((hrefused "T").malformedName_iff ⟨1⟩ "$" .reserved).mpr hfirst
  · exact (hdecides "S").exists_grammar_iff.mpr ⟨hsome, hclean, by decide⟩
  · intro start hstart
    have hunknown : start ∉ (BuilderCall.added none idleRules).map (·.lhs) := by
      revert start
      decide
    exact ((hdecides start).unknownStart_iff start).mpr ⟨hsome, hclean, hunknown, rfl⟩

end Builder

end Predictive
