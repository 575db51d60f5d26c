import Predictive.Proofs.Numbering

/-!
What a sequence of calls leaves in a builder.  A call changes the draft that the builder's
names spell as the same call changes a draft, whatever the names that are interned already.
So the calls add one alternative for each call of an alternative, under the rule called for
last, and rules without alternatives come to nothing.
-/

namespace Predictive

namespace BuilderCall

/-- The alternatives that calls add, given the rule that is open before them. -/
def added (openRule : Option String) : List BuilderCall → List Alternative
  | [] => []
  | rule lhs :: rest => added (some lhs) rest
  | alternative rhs :: rest => (openRule.map (⟨·, rhs⟩)).toList ++ added openRule rest
  | epsilon :: rest => (openRule.map (⟨·, []⟩)).toList ++ added openRule rest

/-- Calls that can be made on an empty builder: an alternative needs an open rule. -/
def FromEmpty : List BuilderCall → Prop
  | [] | rule _ :: _ => True
  | alternative _ :: _ | epsilon :: _ => False

/-- The calls that declare the given rules, each with its alternatives. -/
def ofRules (rules : List (String × List (List String))) : List BuilderCall :=
  rules.flatMap fun (lhs, sides) => .rule lhs :: sides.map .alternative

theorem fromEmpty_ofRules (rules : List (String × List (List String))) :
    FromEmpty (ofRules rules) := by
  cases rules <;> trivial

theorem added_append_alternatives (lhs : String) (sides : List (List String))
    (rest : List BuilderCall) :
    added (some lhs) (sides.map .alternative ++ rest) =
      sides.map (⟨lhs, ·⟩) ++ added (some lhs) rest := by
  induction sides with
  | nil => rfl
  | cons side more ih => exact congrArg (⟨lhs, side⟩ :: ·) ih

/-- The calls for some rules add the alternatives of the draft of these rules. -/
theorem added_ofRules (openRule : Option String)
    (rules : List (String × List (List String))) :
    added openRule (ofRules rules) = (Draft.ofRules rules).alternatives := by
  induction rules generalizing openRule with
  | nil => rfl
  | cons first rest ih =>
      obtain ⟨lhs, sides⟩ := first
      have hrest := ih (some lhs)
      change added (some lhs) (sides.map .alternative ++ ofRules rest) = _
      rw [added_append_alternatives, hrest]
      rfl

end BuilderCall

theorem Draft.finish_eq_of_alternatives_eq {left right : Draft}
    (halternatives : left.alternatives = right.alternatives) (start : String) :
    left.finish start = right.finish start := by
  cases left
  cases right
  cases halternatives
  rfl

namespace Builder

variable (builder : Builder)

/-- The alternatives declared so far read the same when more names are interned. -/
theorem map_spell_of_extendedBy {interner : Interner}
    (hextended : builder.interner.ExtendedBy interner) :
    builder.alternatives.map (·.spell interner) = builder.draft.alternatives :=
  List.map_congr_left fun alternative hmem =>
    InternedAlternative.spell_eq_of_extendedBy hextended
      (builder.alternatives_lt alternative hmem)

theorem draft_rule (lhs : String) : (builder.rule lhs).draft = builder.draft.rule lhs := by
  have hspelled := builder.map_spell_of_extendedBy (Interner.extendedBy_intern _ lhs)
  simp only [draft, rule, Draft.rule, Option.map_some, Interner.name_intern] at hspelled ⊢
  rw [hspelled]

theorem alternative?_of_openRule {lhs : Nat} (hopen : builder.openRule = some lhs)
    (rhs : List String) :
    builder.alternative? rhs = some (builder.add lhs (builder.openRule_lt lhs hopen) rhs) := by
  unfold alternative?
  split
  · rename_i hnone
    rw [hopen] at hnone
    cases hnone
  · rename_i other hother
    obtain rfl := Option.some.inj (hopen.symm.trans hother)
    rfl

/-- The draft gets an alternative by name, whatever the indices of its names. -/
theorem draft_add (lhs : Nat) (hlhs : lhs < builder.interner.size) (rhs : List String) :
    (builder.add lhs hlhs rhs).draft =
      ⟨builder.draft.alternatives ++ [⟨builder.interner.name lhs, rhs⟩],
        some (builder.interner.name lhs)⟩ := by
  have hextended := Interner.extendedBy_internAll builder.interner rhs
  have hspelled := builder.map_spell_of_extendedBy hextended
  have hnew : InternedAlternative.spell (builder.interner.internAll rhs).2
      ⟨lhs, (builder.interner.internAll rhs).1⟩ = ⟨builder.interner.name lhs, rhs⟩ := by
    rw [InternedAlternative.spell, hextended.name_eq hlhs, Interner.map_name_internAll]
  rw [← hspelled, ← hnew, ← hextended.name_eq hlhs]
  simp only [draft, add, List.map_append, List.map_singleton, Option.map_some]

theorem draft_alternative? (rhs : List String) :
    (builder.alternative? rhs).map draft = builder.draft.alternative? rhs := by
  cases hopen : builder.openRule with
  | none =>
      have hrefused : builder.alternative? rhs = none := by
        unfold alternative?
        split <;> simp_all
      simp [hrefused, draft, Draft.alternative?, hopen]
  | some lhs =>
      rw [builder.alternative?_of_openRule hopen, Option.map_some, draft_add]
      simp [draft, Draft.alternative?, hopen]

/-- An open rule never refuses an alternative, and stays open. -/
theorem exists_alternative? {lhs : String} (hopen : builder.draft.openRule = some lhs)
    (rhs : List String) :
    ∃ next, builder.alternative? rhs = some next ∧
      next.draft = ⟨builder.draft.alternatives ++ [⟨lhs, rhs⟩], some lhs⟩ := by
  have hdraft := builder.draft_alternative? rhs
  rw [Draft.alternative?, hopen, Option.map_some, Option.map_eq_some_iff] at hdraft
  exact hdraft

/-- With an open rule, every call succeeds. -/
theorem exists_calls? (calls : List BuilderCall) {lhs : String}
    (hopen : builder.draft.openRule = some lhs) :
    ∃ last, builder.calls? calls = some last ∧
      last.draft.alternatives =
        builder.draft.alternatives ++ BuilderCall.added (some lhs) calls := by
  induction calls generalizing builder lhs with
  | nil => exact ⟨builder, rfl, (List.append_nil _).symm⟩
  | cons call rest ih =>
      have hadd : ∀ rhs, ∃ last,
          (builder.alternative? rhs).bind (calls? · rest) = some last ∧
          last.draft.alternatives = builder.draft.alternatives ++
            (⟨lhs, rhs⟩ :: BuilderCall.added (some lhs) rest) := by
        intro rhs
        obtain ⟨next, hnext, hdraft⟩ := builder.exists_alternative? hopen rhs
        obtain ⟨last, hlast, hadded⟩ := ih next (congrArg Draft.openRule hdraft)
        refine ⟨last, ?_, ?_⟩
        · rw [hnext, Option.bind_some, hlast]
        · rw [hadded, hdraft, List.append_assoc]
          rfl
      cases call with
      | rule other =>
          have hdraft := builder.draft_rule other
          obtain ⟨last, hlast, hadded⟩ :=
            ih (builder.rule other) (congrArg Draft.openRule hdraft)
          refine ⟨last, hlast, ?_⟩
          rw [hadded, hdraft]
          rfl
      | alternative rhs => exact hadd rhs
      | epsilon => exact hadd []

/-- Calls on an empty builder add the alternatives that they spell out. -/
theorem exists_calls?_empty {calls : List BuilderCall} (hcalls : BuilderCall.FromEmpty calls) :
    ∃ last, empty.calls? calls = some last ∧
      last.draft.alternatives = BuilderCall.added none calls := by
  cases calls with
  | nil => exact ⟨empty, rfl, rfl⟩
  | cons call rest =>
      cases call with
      | rule lhs =>
          have hdraft := empty.draft_rule lhs
          obtain ⟨last, hlast, hadded⟩ :=
            (empty.rule lhs).exists_calls? rest (congrArg Draft.openRule hdraft)
          refine ⟨last, hlast, ?_⟩
          rw [hadded, hdraft]
          rfl
      | alternative rhs => exact hcalls.elim
      | epsilon => exact hcalls.elim

/-- Declaring rules one after the other by calls comes to the draft of the rules. -/
theorem finish_ofRules (rules : List (String × List (List String))) :
    ∃ builder, empty.calls? (BuilderCall.ofRules rules) = some builder ∧
      ∀ start, builder.finish start = (Draft.ofRules rules).finish start := by
  obtain ⟨builder, hbuilder, hadded⟩ :=
    exists_calls?_empty (BuilderCall.fromEmpty_ofRules rules)
  rw [BuilderCall.added_ofRules] at hadded
  refine ⟨builder, hbuilder, ?_⟩
  intro start
  rw [finish_eq_finish_draft]
  exact Draft.finish_eq_of_alternatives_eq hadded start

end Builder

end Predictive
