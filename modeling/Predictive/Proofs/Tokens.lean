import Predictive.Grammar.Token
import Predictive.Proofs.FirstFault

/-!
Texts are read exactly.  The tokens of a text are its characters, or its maximal runs of
characters that are not blank, in order and each with the number of bytes before it.  They are
read as terminals if each of them names one, and the leftmost that names none is reported.
Words that name terminals are found again, whatever blanks stand between them, since no name
has a blank inside or is empty.
-/

namespace Predictive

namespace Text

/-- The token is one character, in its place. -/
def Token.IsCharacterOf (token : Token) (text : String) : Prop :=
  ∃ before after, text = before ++ token.text ++ after ∧
    token.offset = before.utf8ByteSize ∧ token.text.length = 1

/-- The run has no blank inside, and a blank or nothing on either side. -/
structure MaximalRun (before run after : List Char) : Prop where
  ne_nil : run ≠ []
  not_blank : ∀ c ∈ run, isBlank c = false
  blank_before : ∀ c ∈ before.getLast?, isBlank c
  blank_after : ∀ c ∈ after.head?, isBlank c

/-- The token is a maximal run of characters that are not blank, in its place. -/
def Token.IsWordOf (token : Token) (text : String) : Prop :=
  ∃ before after, text = before ++ token.text ++ after ∧
    token.offset = before.utf8ByteSize ∧
    MaximalRun before.toList token.text.toList after.toList

/-- The tokens are those that count, from left to right. -/
structure Enumerates (tokens : List Token) (Counts : Token → Prop) : Prop where
  mem_iff : ∀ token, token ∈ tokens ↔ Counts token
  ascending : tokens.Pairwise (·.offset < ·.offset)

/-- All characters of the text are blank. -/
def AllBlank (text : String) : Prop := ∀ c ∈ text.toList, isBlank c

instance (text : String) : Decidable (AllBlank text) :=
  List.decidableBAll (isBlank ·) text.toList

/-- The text has the words in order, with blanks between them and any blanks at the ends. -/
inductive Spaced : List String → String → Prop where
  | nil {gap : String} (hgap : AllBlank gap) : Spaced [] gap
  | last {lead word trail : String} (hlead : AllBlank lead) (htrail : AllBlank trail) :
      Spaced [word] (lead ++ word ++ trail)
  | cons {lead word gap next rest : String} {words : List String} (hlead : AllBlank lead)
      (hsome : gap ≠ "") (hgap : AllBlank gap) (hrest : Spaced (next :: words) rest) :
      Spaced (word :: next :: words) (lead ++ word ++ gap ++ rest)

variable {token : Token} {offset : Nat} {chars : List Char}

theorem byteLength_append (left right : List Char) :
    byteLength (left ++ right) = byteLength left + byteLength right := by
  induction left with
  | nil => simp [byteLength]
  | cons c rest ih => simp only [List.cons_append, byteLength, ih, Nat.add_assoc]

theorem utf8ByteSize_ofList (chars : List Char) :
    (String.ofList chars).utf8ByteSize = byteLength chars := by
  induction chars with
  | nil => rfl
  | cons c rest ih =>
      have hsplit : String.ofList (c :: rest) = String.ofList [c] ++ String.ofList rest :=
        @String.ofList_append [c] rest
      rw [hsplit, String.utf8ByteSize_append, ih]
      simp [byteLength]

theorem utf8ByteSize_eq (text : String) : text.utf8ByteSize = byteLength text.toList := by
  rw [← utf8ByteSize_ofList, String.ofList_toList]

theorem mem_charactersFrom_iff :
    token ∈ charactersFrom offset chars ↔ ∃ before c after, chars = before ++ c :: after ∧
      token = ⟨c.toString, offset + byteLength before⟩ := by
  induction chars generalizing offset with
  | nil => simp [charactersFrom]
  | cons c rest ih =>
      rw [charactersFrom, List.mem_cons, ih]
      constructor
      · rintro (rfl | ⟨before, d, after, rfl, rfl⟩)
        · exact ⟨[], c, rest, rfl, rfl⟩
        · exact ⟨c :: before, d, after, rfl, by simp [byteLength, Nat.add_assoc]⟩
      · rintro ⟨before, d, after, hsplit, rfl⟩
        cases before with
        | nil =>
            obtain ⟨rfl, rfl⟩ := List.cons.inj hsplit
            exact Or.inl rfl
        | cons first before =>
            obtain ⟨rfl, rfl⟩ := List.cons.inj hsplit
            exact Or.inr ⟨before, d, after, rfl, by simp [byteLength, Nat.add_assoc]⟩

/-- Blanks at the beginning are passed over. -/
theorem wordsFrom_append_of_blank {gap rest : List Char} (hgap : ∀ c ∈ gap, isBlank c) :
    wordsFrom offset (gap ++ rest) = wordsFrom (offset + byteLength gap) rest := by
  induction gap generalizing offset with
  | nil => rfl
  | cons c more ih =>
      obtain ⟨hc, hmore⟩ := List.forall_mem_cons.mp hgap
      rw [List.cons_append, wordsFrom, if_pos hc, ih hmore, byteLength, Nat.add_assoc]

/-- A run at the beginning is a word if it goes no further. -/
theorem wordsFrom_append_of_run {run rest : List Char} (hrun : MaximalRun [] run rest) :
    wordsFrom offset (run ++ rest) =
      ⟨String.ofList run, offset⟩ :: wordsFrom (offset + byteLength run) rest := by
  obtain ⟨c, more, rfl⟩ := List.exists_cons_of_ne_nil hrun.ne_nil
  obtain ⟨hc, hmore⟩ := List.forall_mem_cons.mp hrun.not_blank
  have hinside : ∀ d ∈ more, (!isBlank d) = true := by simpa using hmore
  have htake : rest.takeWhile (!isBlank ·) = [] := by
    cases rest with
    | nil => rfl
    | cons d _ => simp [hrun.blank_after d rfl]
  have hdrop : rest.dropWhile (!isBlank ·) = rest := by
    cases rest with
    | nil => rfl
    | cons d _ => simp [hrun.blank_after d rfl]
  rw [List.cons_append, wordsFrom, if_neg (by simp [hc])]
  simp only [List.takeWhile_append_of_pos hinside, List.dropWhile_append_of_pos hinside, htake,
    hdrop, List.append_nil]

/-- What begins with a character that is not blank begins with a maximal run. -/
theorem maximalRun_takeWhile {c : Char} (hc : ¬ isBlank c) (rest : List Char) :
    MaximalRun [] (c :: rest.takeWhile (!isBlank ·)) (rest.dropWhile (!isBlank ·)) where
  ne_nil := List.cons_ne_nil _ _
  not_blank := by
    refine List.forall_mem_cons.mpr ⟨Bool.eq_false_of_not_eq_true hc, fun d hd => ?_⟩
    simpa using List.all_eq_true.mp List.all_takeWhile d hd
  blank_before := by simp
  blank_after d hd := by
    have hstop := List.head?_dropWhile_not (!isBlank ·) rest
    rw [Option.mem_def.mp hd] at hstop
    simpa using hstop

/-- A run does not end where a text ends with a blank. -/
theorem MaximalRun.ne_nil_of_blank_last {run rest : List Char} (hrun : MaximalRun [] run rest)
    (hlast : ∀ c ∈ (run ++ rest).getLast?, isBlank c) : rest ≠ [] := by
  rintro rfl
  rw [List.append_nil] at hlast
  have hend := List.getLast?_eq_some_getLast hrun.ne_nil
  have hblank := hlast _ hend
  rw [hrun.not_blank _ (List.getLast_mem hrun.ne_nil)] at hblank
  cases hblank

/-- A text may be cut behind a blank. -/
theorem wordsFrom_append {before : List Char} (hbefore : ∀ c ∈ before.getLast?, isBlank c)
    (rest : List Char) :
    wordsFrom offset (before ++ rest) =
      wordsFrom offset before ++ wordsFrom (offset + byteLength before) rest := by
  fun_induction wordsFrom offset before with
  | case1 => rfl
  | case2 offset c more hc ih =>
      have hmore : ∀ d ∈ more.getLast?, isBlank d := by
        cases more with
        | nil => simp
        | cons d _ => simpa using hbefore
      rw [List.cons_append, wordsFrom, if_pos hc, ih hmore, byteLength, Nat.add_assoc]
  | case3 offset c more hc word ih =>
      have hfirst := maximalRun_takeWhile hc more
      have hall : c :: more = word ++ more.dropWhile (!isBlank ·) := by
        rw [List.cons_append, List.takeWhile_append_dropWhile]
      rw [hall] at hbefore ⊢
      have hsome := hfirst.ne_nil_of_blank_last hbefore
      rw [List.getLast?_append_of_ne_nil _ hsome] at hbefore
      have hlonger : MaximalRun [] word (more.dropWhile (!isBlank ·) ++ rest) :=
        ⟨hfirst.ne_nil, hfirst.not_blank, hfirst.blank_before, by
          rw [List.head?_append_of_ne_nil _ hsome]
          exact hfirst.blank_after⟩
      rw [List.append_assoc, wordsFrom_append_of_run hlonger, ih hbefore, byteLength_append,
        Nat.add_assoc, List.cons_append]

/-- The words are the maximal runs, with the bytes before them. -/
theorem mem_wordsFrom_iff :
    token ∈ wordsFrom offset chars ↔ ∃ before after,
      chars = before ++ token.text.toList ++ after ∧
      token.offset = offset + byteLength before ∧
      MaximalRun before token.text.toList after := by
  constructor
  · intro hmem
    fun_induction wordsFrom offset chars with
    | case1 => exact absurd hmem List.not_mem_nil
    | case2 offset c more hc ih =>
        obtain ⟨before, after, rfl, hoffset, hrun⟩ := ih hmem
        refine ⟨c :: before, after, rfl, ?_, hrun.ne_nil, hrun.not_blank, ?_, hrun.blank_after⟩
        · rw [hoffset, byteLength, Nat.add_assoc]
        · cases before with
          | nil => simpa using hc
          | cons d _ => simpa using hrun.blank_before
    | case3 offset c more hc word ih =>
        have hfirst := maximalRun_takeWhile hc more
        have hall : c :: more = word ++ more.dropWhile (!isBlank ·) := by
          rw [List.cons_append, List.takeWhile_append_dropWhile]
        rcases List.mem_cons.mp hmem with rfl | hlater
        · refine ⟨[], more.dropWhile (!isBlank ·), ?_, rfl, ?_⟩
          · rw [String.toList_ofList, hall, List.nil_append]
          · rw [String.toList_ofList]
            exact hfirst
        · obtain ⟨before, after, hrest, hoffset, hrun⟩ := ih hlater
          -- The first run has ended, so a blank comes before the next one.
          have hsome : before ≠ [] := by
            rintro rfl
            obtain ⟨d, inside, hd⟩ := List.exists_cons_of_ne_nil hrun.ne_nil
            have hblank := hfirst.blank_after d (by rw [hrest, hd]; rfl)
            rw [hrun.not_blank d (by rw [hd]; exact List.mem_cons_self)] at hblank
            cases hblank
          refine ⟨word ++ before, after, ?_, ?_, hrun.ne_nil, hrun.not_blank, ?_,
            hrun.blank_after⟩
          · rw [hall, hrest]
            simp only [List.append_assoc]
          · rw [hoffset, byteLength_append, Nat.add_assoc]
          · rw [List.getLast?_append_of_ne_nil _ hsome]
            exact hrun.blank_before
  · rintro ⟨before, after, rfl, hoffset, hrun⟩
    rw [List.append_assoc, wordsFrom_append hrun.blank_before,
      wordsFrom_append_of_run ⟨hrun.ne_nil, hrun.not_blank, by simp, hrun.blank_after⟩,
      String.ofList_toList, ← hoffset]
    exact List.mem_append_right _ List.mem_cons_self

theorem pairwise_charactersFrom (offset : Nat) (chars : List Char) :
    (charactersFrom offset chars).Pairwise (·.offset < ·.offset) := by
  induction chars generalizing offset with
  | nil => exact List.Pairwise.nil
  | cons c rest ih =>
      refine List.pairwise_cons.mpr ⟨?_, ih _⟩
      intro later hlater
      obtain ⟨before, d, after, _, rfl⟩ := mem_charactersFrom_iff.mp hlater
      have hsize := c.utf8Size_pos
      change offset < offset + c.utf8Size + byteLength before
      omega

theorem pairwise_wordsFrom (offset : Nat) (chars : List Char) :
    (wordsFrom offset chars).Pairwise (·.offset < ·.offset) := by
  fun_induction wordsFrom offset chars with
  | case1 => exact List.Pairwise.nil
  | case2 _ _ _ _ ih => exact ih
  | case3 offset c more hc word ih =>
      refine List.pairwise_cons.mpr ⟨?_, ih⟩
      intro later hlater
      obtain ⟨before, after, _, hoffset, _⟩ := mem_wordsFrom_iff.mp hlater
      have hsize := c.utf8Size_pos
      have hword : byteLength word =
          c.utf8Size + byteLength (more.takeWhile (!isBlank ·)) := rfl
      change offset < later.offset
      omega

/-- The characters of a text are listed one by one. -/
theorem enumerates_characters (text : String) :
    Enumerates (characters text) (·.IsCharacterOf text) where
  ascending := pairwise_charactersFrom 0 text.toList
  mem_iff token := by
    rw [characters, mem_charactersFrom_iff]
    constructor
    · rintro ⟨before, c, after, hsplit, rfl⟩
      refine ⟨String.ofList before, String.ofList after, ?_, ?_, ?_⟩
      · rw [← String.toList_inj]
        simp [hsplit]
      · rw [utf8ByteSize_ofList, Nat.zero_add]
      · simp
    · rintro ⟨before, after, rfl, hoffset, hlength⟩
      obtain ⟨text, offset⟩ := token
      obtain ⟨c, hc⟩ := List.length_eq_one_iff.mp hlength
      obtain rfl : text = c.toString := by
        rw [← String.toList_inj]
        simpa using hc
      obtain rfl : offset = before.utf8ByteSize := hoffset
      exact ⟨before.toList, c, after.toList, by simp, by rw [utf8ByteSize_eq, Nat.zero_add]⟩

/-- The words of a text are listed one by one. -/
theorem enumerates_words (text : String) : Enumerates (words text) (·.IsWordOf text) where
  ascending := pairwise_wordsFrom 0 text.toList
  mem_iff token := by
    rw [words, mem_wordsFrom_iff]
    constructor
    · rintro ⟨before, after, hsplit, hoffset, hrun⟩
      refine ⟨String.ofList before, String.ofList after, ?_, ?_, ?_⟩
      · rw [← String.toList_inj]
        simpa using hsplit
      · rw [hoffset, utf8ByteSize_ofList, Nat.zero_add]
      · simpa using hrun
    · rintro ⟨before, after, rfl, hoffset, hrun⟩
      exact ⟨before.toList, after.toList, by simp, by rw [hoffset, utf8ByteSize_eq, Nat.zero_add],
        hrun⟩

theorem AllBlank.wordsFrom_eq_nil {gap : String} (hgap : AllBlank gap) (offset : Nat) :
    wordsFrom offset gap.toList = [] := by
  rw [← List.append_nil gap.toList, wordsFrom_append_of_blank hgap, wordsFrom]

theorem AllBlank.blank_head {gap : String} (hgap : AllBlank gap) :
    ∀ c ∈ gap.toList.head?, isBlank c :=
  fun c hc => hgap c (List.mem_of_head? hc)

/-- The text can be a word. -/
def IsUnbroken (word : String) : Prop := word ≠ "" ∧ ∀ c ∈ word.toList, isBlank c = false

theorem IsUnbroken.maximalRun {word : String} (hword : IsUnbroken word) {rest : List Char}
    (hrest : ∀ c ∈ rest.head?, isBlank c) : MaximalRun [] word.toList rest where
  ne_nil := by simpa using hword.1
  not_blank := hword.2
  blank_before := by simp
  blank_after := hrest

/-- Unbroken words are found where blanks separate them. -/
theorem Spaced.map_text_wordsFrom {names : List String} {text : String}
    (hspaced : Spaced names text) (hnames : ∀ name ∈ names, IsUnbroken name) (offset : Nat) :
    (wordsFrom offset text.toList).map (·.text) = names := by
  induction hspaced generalizing offset with
  | nil hgap => rw [hgap.wordsFrom_eq_nil, List.map_nil]
  | @last lead word trail hlead htrail =>
      have hword := (hnames word List.mem_cons_self).maximalRun htrail.blank_head
      rw [String.toList_append, String.toList_append, List.append_assoc,
        wordsFrom_append_of_blank hlead, wordsFrom_append_of_run hword, htrail.wordsFrom_eq_nil,
        List.map_singleton, String.ofList_toList]
  | @cons lead word gap next rest words hlead hsome hgap _ ih =>
      obtain ⟨hunbroken, hmore⟩ := List.forall_mem_cons.mp hnames
      have hblank : ∀ c ∈ (gap.toList ++ rest.toList).head?, isBlank c := by
        rw [List.head?_append_of_ne_nil _ (by simpa using hsome)]
        exact hgap.blank_head
      simp only [String.toList_append, List.append_assoc]
      rw [wordsFrom_append_of_blank hlead, wordsFrom_append_of_run (hunbroken.maximalRun hblank),
        wordsFrom_append_of_blank hgap, List.map_cons, ih hmore, String.ofList_toList]

end Text

namespace Grammar

open Text (Token)

/-- The name is that of a terminal. -/
def NamesTerminal (grammar : Grammar) (name : String) : Prop :=
  ∃ terminal, grammar.nameOf? (.terminal terminal) = some name

/-- The result is what the tokens call for: the terminals that they name, or else the leftmost
token that names none. -/
structure Reads (grammar : Grammar) (tokens : List Token)
    (result : Except TokenError (List Terminal)) : Prop where
  exists_terminals_iff : (∃ terminals, result = .ok terminals) ↔
    ∀ token ∈ tokens, grammar.NamesTerminal token.text
  ok_iff : ∀ terminals, result = .ok terminals ↔
    (terminals.map fun t => grammar.nameOf? (.terminal t)) =
      tokens.map fun token => some token.text
  unknownTerminal_iff : ∀ text offset, result = .error (.unknownTerminal text offset) ↔
    ∃ before after, tokens = before ++ ⟨text, offset⟩ :: after ∧
      (∀ earlier ∈ before, grammar.NamesTerminal earlier.text) ∧ ¬ grammar.NamesTerminal text

section Lookup

variable {grammar : Grammar} {token : Token} {rest : List Token} {terminal : Terminal}

theorem readTokens_cons_of_eq_none (hunknown : grammar.terminal? token.text = none) :
    grammar.readTokens (token :: rest) =
      .error (.unknownTerminal token.text token.offset) := by
  simp only [readTokens, readToken, hunknown]

theorem readTokens_cons_of_eq_some (hknown : grammar.terminal? token.text = some terminal) :
    grammar.readTokens (token :: rest) = (grammar.readTokens rest).map (terminal :: ·) := by
  simp only [readTokens, readToken, hknown]

variable (hlookup : ∀ name t, grammar.terminal? name = some t ↔
  grammar.nameOf? (.terminal t) = some name)

include hlookup

theorem namesTerminal_iff {name : String} :
    grammar.NamesTerminal name ↔ ∃ terminal, grammar.terminal? name = some terminal := by
  simp only [NamesTerminal, hlookup]

theorem readTokens_eq_ok_iff {tokens : List Token} {terminals : List Terminal} :
    grammar.readTokens tokens = .ok terminals ↔
      (terminals.map fun t => grammar.nameOf? (.terminal t)) =
        tokens.map fun token => some token.text := by
  induction tokens generalizing terminals with
  | nil =>
    rw [readTokens, List.map_nil, List.map_eq_nil_iff, Except.ok.injEq, eq_comm]
  | cons token rest ih =>
      rw [List.map_cons, List.map_eq_cons_iff]
      cases hfound : grammar.terminal? token.text with
      | none =>
          rw [readTokens_cons_of_eq_none hfound]
          refine iff_of_false (by simp) ?_
          rintro ⟨terminal, _, _, hname, _⟩
          rw [(hlookup _ _).mpr hname] at hfound
          cases hfound
      | some terminal =>
          rw [readTokens_cons_of_eq_some hfound]
          constructor
          · intro hread
            cases hrest : grammar.readTokens rest with
            | error error =>
                rw [hrest] at hread
                cases hread
            | ok more =>
                rw [hrest] at hread
                cases hread
                exact ⟨terminal, more, rfl, (hlookup _ _).mp hfound, ih.mp hrest⟩
          · rintro ⟨other, more, rfl, hname, hmore⟩
            obtain rfl := Option.some.inj (hfound.symm.trans ((hlookup _ _).mpr hname))
            rw [ih.mpr hmore]
            rfl

theorem readTokens_eq_unknownTerminal_iff {tokens : List Token} {text : String}
    {offset : Nat} :
    grammar.readTokens tokens = .error (.unknownTerminal text offset) ↔
      ∃ before after, tokens = before ++ ⟨text, offset⟩ :: after ∧
        (∀ earlier ∈ before, grammar.NamesTerminal earlier.text) ∧
        ¬ grammar.NamesTerminal text := by
  induction tokens with
  | nil => simp [readTokens]
  | cons token rest ih =>
      cases hfound : grammar.terminal? token.text with
      | none =>
          have hunknown : ¬ grammar.NamesTerminal token.text := by
            rw [namesTerminal_iff hlookup, hfound]
            simp
          rw [readTokens_cons_of_eq_none hfound]
          constructor
          · intro hsame
            cases hsame
            exact ⟨[], rest, rfl, by simp, hunknown⟩
          · rintro ⟨before, after, hsplit, hbefore, _⟩
            cases before with
            | nil =>
                obtain ⟨rfl, rfl⟩ := List.cons.inj hsplit
                rfl
            | cons first before =>
                obtain ⟨rfl, _⟩ := List.cons.inj hsplit
                exact absurd (hbefore token List.mem_cons_self) hunknown
      | some terminal =>
          have hknown : grammar.NamesTerminal token.text := ⟨terminal, (hlookup _ _).mp hfound⟩
          have hpassed : (grammar.readTokens rest).map (terminal :: ·) =
                .error (.unknownTerminal text offset) ↔
              grammar.readTokens rest = .error (.unknownTerminal text offset) := by
            cases grammar.readTokens rest <;> simp [Except.map]
          rw [readTokens_cons_of_eq_some hfound, hpassed, ih]
          constructor
          · rintro ⟨before, after, rfl, hbefore, hname⟩
            exact ⟨token :: before, after, rfl, List.forall_mem_cons.mpr ⟨hknown, hbefore⟩, hname⟩
          · rintro ⟨before, after, hsplit, hbefore, hname⟩
            cases before with
            | nil =>
                obtain ⟨rfl, rfl⟩ := List.cons.inj hsplit
                exact absurd hknown hname
            | cons first before =>
                obtain ⟨rfl, rfl⟩ := List.cons.inj hsplit
                exact ⟨before, after, rfl, (List.forall_mem_cons.mp hbefore).2, hname⟩

/-- Where the look-up of names is the inverse of naming, tokens are read as they call for. -/
theorem reads_readTokens (tokens : List Token) :
    grammar.Reads tokens (grammar.readTokens tokens) where
  ok_iff _ := readTokens_eq_ok_iff hlookup
  unknownTerminal_iff _ _ := readTokens_eq_unknownTerminal_iff hlookup
  exists_terminals_iff := by
    constructor
    · rintro ⟨terminals, hread⟩ token hmem
      have hnames := (readTokens_eq_ok_iff hlookup).mp hread
      have hname : some token.text ∈ tokens.map fun token => some token.text :=
        List.mem_map.mpr ⟨token, hmem, rfl⟩
      rw [← hnames] at hname
      obtain ⟨terminal, _, hterminal⟩ := List.mem_map.mp hname
      exact ⟨terminal, hterminal⟩
    · intro hall
      cases hread : grammar.readTokens tokens with
      | ok terminals => exact ⟨terminals, rfl⟩
      | error error =>
          obtain ⟨text, offset⟩ := error
          obtain ⟨before, after, rfl, _, hunknown⟩ :=
            (readTokens_eq_unknownTerminal_iff hlookup).mp hread
          exact absurd (hall ⟨text, offset⟩ (by simp)) hunknown

end Lookup

/-- In a finished grammar the look-up of a terminal by name is the inverse of naming it. -/
theorem Finished.terminal?_eq_some_iff {grammar : Grammar} (hfinished : grammar.Finished)
    (name : String) (t : Terminal) :
    grammar.terminal? name = some t ↔ grammar.nameOf? (.terminal t) = some name := by
  obtain ⟨⟨draft, start, hfinish⟩, _, _, hterminals⟩ := hfinished
  obtain ⟨_, rfl⟩ := Draft.finish_eq_ok hfinish
  have hnumbers := numbersByOccurrence_ofList draft.nodup_terminalNames hterminals
    Terminal.index_ofIndex Terminal.ofIndex_index (fun name => Draft.mem_terminalNames_iff)
    draft.pairwise_terminalNames
  exact hnumbers.lookup?_eq_some_iff name t

/-- The name of a terminal is no empty word, and no blank breaks it. -/
theorem Finished.isUnbroken {grammar : Grammar} (hfinished : grammar.Finished) {name : String}
    (hname : grammar.NamesTerminal name) : Text.IsUnbroken name := by
  obtain ⟨⟨draft, start, hfinish⟩, _, _, _⟩ := hfinished
  obtain ⟨_, hclean, _, rfl⟩ := Draft.finish_eq_ok_iff.mp hfinish
  obtain ⟨t, ht⟩ := hname
  have hmem : name ∈ draft.terminalNames := List.mem_of_getElem? ht
  obtain ⟨alternative, halternative, hrhs⟩ :=
    List.mem_flatMap.mp (Draft.mem_terminalNames_iff.mp hmem).1
  have hfaultless : Faultless name :=
    Draft.malformed?_eq_none_iff.mp hclean alternative halternative name
      (List.mem_cons_of_mem _ hrhs)
  obtain ⟨hempty, hblank, _⟩ :=
    nameFault?_eq_none_iff.mp (nameFault?_eq_none_iff_faultless.mpr hfaultless)
  exact ⟨by simpa using hempty, by simpa using hblank⟩

/-- Names that take several characters, or several bytes for one. -/
def assignmentRules : Draft := .ofRules [("S", [["é", ":=", "V"]]), ("V", [["→", "V"], ["n"]])]

def assignments : Grammar := assignmentRules.resolve "S"

theorem finished_assignments : assignments.Finished where
  finish_eq := ⟨assignmentRules, "S", by decide +kernel⟩
  productions_lt := by decide +kernel
  nonterminals_lt := by decide +kernel
  terminals_lt := by decide +kernel

/-- Characters and words are read exactly, and what names of terminals spell, with blanks
between them, is read as these terminals. -/
theorem readTokens_exact {grammar : Grammar} (hfinished : grammar.Finished) (text : String) :
    (∃ tokens, Text.Enumerates tokens (·.IsCharacterOf text) ∧
      grammar.Reads tokens (grammar.readCharacters text)) ∧
    (∃ tokens, Text.Enumerates tokens (·.IsWordOf text) ∧
      grammar.Reads tokens (grammar.readWords text)) ∧
    ∀ terminals names, (terminals.map fun t => grammar.nameOf? (.terminal t)) = names.map some →
      Text.Spaced names text → grammar.readWords text = .ok terminals := by
  have hlookup := hfinished.terminal?_eq_some_iff
  refine ⟨⟨_, Text.enumerates_characters text, reads_readTokens hlookup _⟩,
    ⟨_, Text.enumerates_words text, reads_readTokens hlookup _⟩, ?_⟩
  intro terminals names hnames hspaced
  have hunbroken : ∀ name ∈ names, Text.IsUnbroken name := by
    intro name hname
    have hnamed : some name ∈ names.map some := List.mem_map.mpr ⟨name, hname, rfl⟩
    rw [← hnames] at hnamed
    obtain ⟨terminal, _, hterminal⟩ := List.mem_map.mp hnamed
    exact hfinished.isUnbroken ⟨terminal, hterminal⟩
  have hfound : (Text.words text).map (·.text) = names :=
    hspaced.map_text_wordsFrom hunbroken 0
  apply (readTokens_eq_ok_iff hlookup).mpr
  rw [hnames, ← hfound, List.map_map]
  rfl

/-- Blanks of all kinds stand between the words of the first text; in the second one, a word of
two characters with three bytes before it is no terminal. -/
theorem readTokens_exact_assignments :
    assignments.Finished ∧
    Text.Spaced ["é", ":=", "→", "n"] "\u3000é \t:=\u0085→\u2003n" ∧
    assignments.readWords "\u3000é \t:=\u0085→\u2003n" = .ok [⟨0⟩, ⟨1⟩, ⟨2⟩, ⟨3⟩] ∧
    assignments.readWords "é =: n" = .error (.unknownTerminal "=:" 3) ∧
    assignments.readCharacters "é→=" = .error (.unknownTerminal "=" 5) := by
  have hspaced : Text.Spaced ["é", ":=", "→", "n"] "\u3000é \t:=\u0085→\u2003n" :=
    @Text.Spaced.cons "\u3000" "é" " \t" ":=" _ _ (by decide) (by decide) (by decide)
      (@Text.Spaced.cons "" ":=" "\u0085" "→" _ _ (by decide) (by decide) (by decide)
        (@Text.Spaced.cons "" "→" "\u2003" "n" _ _ (by decide) (by decide) (by decide)
          (@Text.Spaced.last "" "n" "" (by decide) (by decide))))
  refine ⟨finished_assignments, hspaced, ?_, ?_, ?_⟩
  · exact (readTokens_exact finished_assignments _).2.2 [⟨0⟩, ⟨1⟩, ⟨2⟩, ⟨3⟩] _ (by decide +kernel)
      hspaced
  · decide +kernel
  · decide +kernel

end Grammar

end Predictive
