import Predictive.Proofs.FirstFault

/-!
The written form of a grammar determines it.  A line shows the names of a production with
single spaces between them, and no name of a finished grammar has a blank inside or is ε.  So
the lines give back the alternatives that the grammar was made from, whatever else stands in
their names, and nothing is missing but the name of the start symbol.
-/

namespace Predictive

namespace Text

/-- The pieces of a text between the separators. -/
def pieces (separator : Char) (text : String) : List String :=
  (text.toList.splitOn separator).map String.ofList

/-- The lines of a text.  What comes after the last line break is a line unless it is
empty. -/
def lines (text : String) : List String :=
  let all := pieces '\n' text
  if all.getLast? = some "" then all.dropLast else all

theorem pieces_intercalate {words : List String} (hsome : words ≠ [])
    (hfree : ∀ word ∈ words, ' ' ∉ word.toList) :
    pieces ' ' (" ".intercalate words) = words := by
  have hpieces : ∀ piece ∈ words.map String.toList, ' ' ∉ piece := by
    intro piece hpiece
    obtain ⟨word, hword, rfl⟩ := List.mem_map.mp hpiece
    exact hfree word hword
  have hsplit := List.splitOn_intercalate ' ' hpieces (by simpa using hsome)
  have hspace : " ".toList = [' '] := rfl
  rw [pieces, String.toList_intercalate, hspace, hsplit, List.map_map]
  exact List.map_id'' (fun _ => String.ofList_toList) words

theorem not_mem_intercalate {c : Char} (hc : c ≠ ' ') {words : List String}
    (hfree : ∀ word ∈ words, c ∉ word.toList) : c ∉ (" ".intercalate words).toList := by
  induction words with
  | nil => simp
  | cons first rest ih =>
      have hfirst := hfree first List.mem_cons_self
      have hrest := ih fun word hword => hfree word (List.mem_cons_of_mem _ hword)
      have hspace : c ∉ " ".toList := by simpa using hc
      cases rest with
      | nil => simpa using hfirst
      | cons second more =>
          rw [String.intercalate_cons_cons, String.toList_append, String.toList_append,
            List.mem_append, List.mem_append]
          rintro ((hmem | hmem) | hmem)
          · exact hfirst hmem
          · exact hspace hmem
          · exact hrest hmem

theorem lines_join {all : List String} (hfree : ∀ line ∈ all, '\n' ∉ line.toList) :
    lines (String.join (all.map (· ++ "\n"))) = all := by
  have hpieces : pieces '\n' (String.join (all.map (· ++ "\n"))) = all ++ [""] := by
    induction all with
    | nil => rfl
    | cons line rest ih =>
        have hline := hfree line List.mem_cons_self
        have hrest := ih fun other hother => hfree other (List.mem_cons_of_mem _ hother)
        have hbreak : "\n".toList = ['\n'] := rfl
        rw [pieces] at hrest
        rw [pieces, List.map_cons, String.join_cons, String.toList_append,
          String.toList_append, hbreak, List.append_assoc, List.singleton_append,
          List.splitOn_append_cons_self_of_not_mem hline, List.map_cons, hrest,
          String.ofList_toList]
        rfl
  rw [lines, hpieces]
  simp

end Text

namespace Alternative

/-- No name in the alternative has a fault. -/
def Sound (alternative : Alternative) : Prop :=
  ∀ name ∈ alternative.names, nameFault? name = none

/-- The right-hand side as it is shown. -/
def shown (alternative : Alternative) : List String :=
  if alternative.rhs.isEmpty then [Symbol.epsilonName] else alternative.rhs

/-- The words of the line that shows an alternative. -/
def words (alternative : Alternative) : List String :=
  alternative.lhs :: "->" :: alternative.shown

def line (alternative : Alternative) : String := " ".intercalate alternative.words

/-- The text that shows the alternatives, a line each. -/
def text (alternatives : List Alternative) : String :=
  String.join ((alternatives.map line).map (· ++ "\n"))

/-- The alternative that a line shows.  The second word plays no part. -/
def ofLine (line : String) : Alternative :=
  let words := Text.pieces ' ' line
  { lhs := words.headD ""
    rhs := if words.drop 2 = [Symbol.epsilonName] then [] else words.drop 2 }

/-- The alternatives that the lines of a text show. -/
def ofText (text : String) : List Alternative := (Text.lines text).map ofLine

/-- The rule that has this alternative and no other. -/
def rule (alternative : Alternative) : String × List (List String) :=
  (alternative.lhs, [alternative.rhs])

variable {alternative : Alternative} {alternatives : List Alternative}

theorem shown_ne_nil (alternative : Alternative) : alternative.shown ≠ [] := by
  unfold shown
  cases alternative.rhs <;> simp

theorem line_eq (alternative : Alternative) :
    alternative.line = alternative.lhs ++ " -> " ++ " ".intercalate alternative.shown := by
  have harrow : " -> " = " " ++ "->" ++ " " := by decide
  rw [line, words, String.intercalate_cons_cons,
    String.intercalate_cons_of_ne_nil alternative.shown_ne_nil]
  simp only [harrow, String.append_assoc]

namespace Sound

variable (hsound : alternative.Sound)

include hsound

theorem not_blank : ∀ name ∈ alternative.names, name.toList.any Text.isBlank = false :=
  fun name hname => (nameFault?_eq_none_iff.mp (hsound name hname)).2.1

/-- No blank is inside a word of the line. -/
theorem not_mem_words {c : Char} (hblank : Text.isBlank c) :
    ∀ word ∈ alternative.words, c ∉ word.toList := by
  have hwords : ∀ word ∈ alternative.words, word.toList.any Text.isBlank = false := by
    have hnames := hsound.not_blank
    rw [names, List.forall_mem_cons] at hnames
    rw [words, List.forall_mem_cons, List.forall_mem_cons]
    refine ⟨hnames.1, by decide, ?_⟩
    unfold shown
    split
    · rw [List.forall_mem_singleton]
      decide
    · exact hnames.2
  intro word hword hc
  exact List.any_eq_false.mp (hwords word hword) c hc hblank

theorem not_mem_line : '\n' ∉ alternative.line.toList :=
  Text.not_mem_intercalate (by decide) (hsound.not_mem_words (by decide))

/-- Since no name is ε, nothing but an empty right-hand side is read as one. -/
theorem ofLine_line : ofLine alternative.line = alternative := by
  have hpieces : Text.pieces ' ' alternative.line = alternative.words :=
    Text.pieces_intercalate (List.cons_ne_nil _ _) (hsound.not_mem_words (by decide))
  simp only [ofLine, hpieces]
  obtain ⟨lhs, rhs⟩ := alternative
  -- The words from index 2 on are the right-hand side, or ε alone where it is empty.
  cases rhs with
  | nil => rfl
  | cons name rest =>
      have hname : name ≠ Symbol.epsilonName :=
        (nameFault?_eq_none_iff.mp (hsound name (by simp [names]))).2.2.1
      simp [words, shown, hname]

end Sound

/-- The lines of sound alternatives are read as these alternatives. -/
theorem ofText_text (hsound : ∀ alternative ∈ alternatives, alternative.Sound) :
    ofText (text alternatives) = alternatives := by
  have hlines : ∀ shown ∈ alternatives.map line, '\n' ∉ shown.toList := by
    intro shown hshown
    obtain ⟨alternative, hmem, rfl⟩ := List.mem_map.mp hshown
    exact (hsound alternative hmem).not_mem_line
  have hread : ∀ alternative ∈ alternatives, (ofLine ∘ line) alternative = id alternative :=
    fun alternative hmem => (hsound alternative hmem).ofLine_line
  rw [ofText, text, Text.lines_join hlines, List.map_map, List.map_congr_left hread,
    List.map_id]

theorem alternatives_ofRules (alternatives : List Alternative) :
    (Draft.ofRules (alternatives.map rule)).alternatives = alternatives := by
  induction alternatives with
  | nil => rfl
  | cons first rest ih => exact congrArg (first :: ·) ih

end Alternative

namespace Draft

variable {draft : Draft} {start : String} {grammar : Grammar}

theorem sound_of_finish (hfinish : draft.finish start = .ok grammar) :
    ∀ alternative ∈ draft.alternatives, alternative.Sound := by
  obtain ⟨_, hnone, _⟩ := finish_eq_ok_iff.mp hfinish
  intro alternative hmem name hname
  exact nameFault?_eq_none_iff_faultless.mpr
    (malformed?_eq_none_iff.mp hnone alternative hmem name hname)

section Description

variable (hproductions : draft.alternatives.length < 2 ^ 32)
  (hnonterminals : draft.nonterminalNames.length < 2 ^ 32)
  (hterminals : draft.terminalNames.length < 2 ^ 32)

include hnonterminals hterminals

theorem phrase?_rhs {alternative : Alternative} (hmem : alternative ∈ draft.alternatives)
    (position : Nat) :
    (draft.resolve start).names.phrase?
        (production draft.nonterminalNames draft.terminalNames position alternative).rhs =
      some (" ".intercalate alternative.shown) := by
  have hnames :
      (production draft.nonterminalNames draft.terminalNames position alternative).rhs.mapM
        (draft.resolve start).nameOf? = some alternative.shown := by
    rw [rhs_production, Alternative.shown]
    split
    · rfl
    · apply mapM_nameOf? hnonterminals hterminals
      exact fun name hname => List.mem_flatMap.mpr ⟨alternative, hmem, hname⟩
  change (List.mapM (draft.resolve start).nameOf? _).map _ = _
  rw [hnames, Option.map_some]

include hproductions

/-- A production is described by the line of its alternative. -/
theorem describe?_resolve {position : Nat} {alternative : Alternative}
    (halternative : draft.alternatives[position]? = some alternative) :
    (draft.resolve start).describe? (.ofIndex position) = some alternative.line := by
  have hmem := List.mem_of_getElem? halternative
  have hlhs := @nameOf?_nonterminal draft start _ hnonterminals (lhs_mem_nonterminalNames hmem)
  have hrhs := @phrase?_rhs draft start hnonterminals hterminals _ hmem position
  rw [production_eq] at hrhs
  rw [Grammar.describe?, production?_resolve hproductions halternative]
  simp only [production_eq, Option.bind_eq_bind, Option.bind_some, hlhs, hrhs,
    Alternative.line_eq, Option.pure_def]

theorem bnf?_resolve :
    (draft.resolve start).bnf? = some (Alternative.text draft.alternatives) := by
  have hlines : (draft.resolve start).productions.mapM
      (fun production => (draft.resolve start).describe? production.id) =
        some (draft.alternatives.map Alternative.line) := by
    have hdescribed : ∀ placed ∈ draft.alternatives.zipIdx,
        (draft.resolve start).describe? (.ofIndex placed.2) = some placed.1.line :=
      fun placed hplaced => describe?_resolve hproductions hnonterminals hterminals
        (List.mk_mem_zipIdx_iff_getElem?.mp hplaced)
    have hfirsts := congrArg (List.map Alternative.line)
      (List.zipIdx_map_fst 0 draft.alternatives)
    rw [List.map_map] at hfirsts
    change (draft.alternatives.mapIdx _).mapM _ = _
    rw [List.mapIdx_eq_zipIdx_map, List.mapM_map]
    exact (mapM_eq_some_map hdescribed).trans (congrArg some hfirsts)
  rw [Grammar.bnf?, hlines]
  rfl

end Description

end Draft

/-- A finished grammar has a text and a name for its start symbol, and they make the
grammar again. -/
theorem Grammar.Finished.exists_text {grammar : Grammar} (hfinished : grammar.Finished) :
    ∃ text start, grammar.bnf? = some text ∧
      grammar.nameOf? (.nonterminal grammar.start) = some start ∧
      (Draft.ofRules ((Alternative.ofText text).map (·.rule))).finish start = .ok grammar := by
  obtain ⟨⟨draft, start, hfinish⟩, hproductions, hnonterminals, hterminals⟩ := hfinished
  have hsound := Draft.sound_of_finish hfinish
  have hrules := Alternative.alternatives_ofRules draft.alternatives
  have hagain := Draft.finish_eq_of_alternatives_eq hrules start
  rw [← Alternative.ofText_text hsound, hfinish] at hagain
  obtain ⟨hstart, rfl⟩ := Draft.finish_eq_ok hfinish
  have hcount : draft.alternatives.length < 2 ^ 32 := by
    simpa [Draft.resolve] using hproductions
  exact ⟨_, start, Draft.bnf?_resolve hcount hnonterminals hterminals,
    Draft.nameOf?_nonterminal hnonterminals hstart, hagain⟩

namespace Grammar

/-- Names with an arrow, an ε, a backtick and a control character. -/
def arrowRules : Draft := .ofRules
  [("->", [["->", "->"], []]), ("S", [["`", "ε$"]]), ("->", [["\u0001", "S"]])]

def arrows : Grammar := arrowRules.resolve "->"

def arrowText : String :=
  "-> -> -> ->\n-> -> ε\nS -> ` ε$\n-> -> \u0001 S\n"

theorem finished_arrows : arrows.Finished where
  finish_eq := ⟨arrowRules, "->", by decide +kernel⟩
  productions_lt := by decide +kernel
  nonterminals_lt := by decide +kernel
  terminals_lt := by decide +kernel

end Grammar

namespace Builder

/-- To declare the lines of a grammar's text as rules, and to finish with the name of the
start symbol, makes the same grammar.  So no other has this text and this start name. -/
theorem finish_ofText {grammar : Grammar} (hfinished : grammar.Finished) :
    ∃ text start builder, grammar.bnf? = some text ∧
      grammar.nameOf? (.nonterminal grammar.start) = some start ∧
      empty.calls? (BuilderCall.ofRules ((Alternative.ofText text).map (·.rule))) =
        some builder ∧
      builder.finish start = .ok grammar ∧
      ∀ other : Grammar, other.Finished → other.bnf? = some text →
        other.nameOf? (.nonterminal other.start) = some start → other = grammar := by
  obtain ⟨text, start, htext, hstart, hfinish⟩ := hfinished.exists_text
  obtain ⟨builder, hbuilder, hsame⟩ := finish_ofRules ((Alternative.ofText text).map (·.rule))
  refine ⟨text, start, builder, htext, hstart, hbuilder, (hsame start).trans hfinish, ?_⟩
  intro other hother htext' hstart'
  obtain ⟨_, _, hsameText, hsameStart, hfinish'⟩ := hother.exists_text
  obtain rfl := Option.some.inj (htext'.symm.trans hsameText)
  obtain rfl := Option.some.inj (hstart'.symm.trans hsameStart)
  exact Except.ok.inj (hfinish'.symm.trans hfinish)

/-- In the grammar of arrows, what is a name and what is not shows by place alone. -/
theorem finish_ofText_arrows :
    Grammar.arrows.Finished ∧
    Grammar.arrows.bnf? = some Grammar.arrowText ∧
    ∃ builder,
      empty.calls? (BuilderCall.ofRules [("->", [["->", "->"]]), ("->", [[]]),
        ("S", [["`", "ε$"]]), ("->", [["\u0001", "S"]])]) = some builder ∧
      builder.finish "->" = .ok .arrows := by
  obtain ⟨text, start, builder, htext, hstart, hbuilder, hfinish, _⟩ :=
    finish_ofText Grammar.finished_arrows
  have hwritten : Grammar.arrows.bnf? = some Grammar.arrowText := by decide +kernel
  have hnamed : Grammar.arrows.nameOf? (.nonterminal Grammar.arrows.start) = some "->" := by
    decide +kernel
  obtain rfl := Option.some.inj (htext.symm.trans hwritten)
  obtain rfl := Option.some.inj (hstart.symm.trans hnamed)
  have hrules : (Alternative.ofText Grammar.arrowText).map (·.rule) =
      [("->", [["->", "->"]]), ("->", [[]]), ("S", [["`", "ε$"]]), ("->", [["\u0001", "S"]])] := by
    decide +kernel
  rw [hrules] at hbuilder
  exact ⟨Grammar.finished_arrows, hwritten, builder, hbuilder, hfinish⟩

end Builder

end Predictive
