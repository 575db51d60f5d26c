import Predictive.Proofs.Lookahead

/-!
Leftmost derivations of strings of terminals.  A list of productions spells a
string of terminals from a string of symbols if it derives the one from the other,
always at the first nonterminal.  Side by side, strings are spelled one after the
other.  Whatever is derivable is spelled, and whatever is erasable is spelled as
the empty string.
-/

namespace Predictive.Grammar

open Relation

/-- The productions, applied in order, turn the string into the terminals. -/
inductive Spells (grammar : Grammar) : List ProductionId → List Symbol → List Terminal → Prop where
  | nil : grammar.Spells [] [] []
  | terminal {ids : List ProductionId} {rest : List Symbol} {terminals : List Terminal}
      (t : Terminal) (hrest : grammar.Spells ids rest terminals) :
      grammar.Spells ids (.terminal t :: rest) (t :: terminals)
  | expand {id : ProductionId} {ids : List ProductionId} {production : Production}
      {rest : List Symbol} {terminals : List Terminal}
      (hproduction : grammar.production? id = some production)
      (hrest : grammar.Spells ids (production.symbols ++ rest) terminals) :
      grammar.Spells (id :: ids) (.nonterminal production.lhs :: rest) terminals

variable {grammar : Grammar} {ids : List ProductionId} {symbols : List Symbol}
  {terminals : List Terminal}

theorem spells_sentence (terminals : List Terminal) :
    grammar.Spells [] (sentence terminals) terminals := by
  induction terminals with
  | nil => exact Spells.nil
  | cons t rest ih => exact Spells.terminal t ih

theorem Spells.append {ids' : List ProductionId} {right : List Symbol}
    {terminals' : List Terminal} (hleft : grammar.Spells ids symbols terminals)
    (hright : grammar.Spells ids' right terminals') :
    grammar.Spells (ids ++ ids') (symbols ++ right) (terminals ++ terminals') := by
  induction hleft with
  | nil => exact hright
  | terminal t _ ih => exact Spells.terminal t ih
  | expand hproduction _ ih =>
      rw [List.append_assoc] at ih
      exact Spells.expand hproduction ih

/-- What is spelled from two strings side by side is spelled by each in turn. -/
theorem Spells.exists_append {left right : List Symbol}
    (hspells : grammar.Spells ids (left ++ right) terminals) :
    ∃ ids₁ ids₂ terminals₁ terminals₂, ids = ids₁ ++ ids₂ ∧
      terminals = terminals₁ ++ terminals₂ ∧ grammar.Spells ids₁ left terminals₁ ∧
      grammar.Spells ids₂ right terminals₂ := by
  generalize hwhole : left ++ right = whole at hspells
  induction hspells generalizing left with
  | nil =>
      obtain ⟨rfl, rfl⟩ := List.append_eq_nil_iff.mp hwhole
      exact ⟨[], [], [], [], rfl, rfl, Spells.nil, Spells.nil⟩
  | @terminal ids rest terminals t hrest ih =>
      cases left with
      | nil =>
          obtain rfl : right = .terminal t :: rest := hwhole
          exact ⟨[], ids, [], t :: terminals, rfl, rfl, Spells.nil, Spells.terminal t hrest⟩
      | cons symbol left =>
          obtain ⟨rfl, hleft⟩ := List.cons.inj hwhole
          obtain ⟨ids₁, ids₂, terminals₁, terminals₂, rfl, rfl, hfirst, hsecond⟩ := ih hleft
          exact ⟨ids₁, ids₂, t :: terminals₁, terminals₂, rfl, rfl,
            Spells.terminal t hfirst, hsecond⟩
  | @expand id ids production rest terminals hproduction hrest ih =>
      cases left with
      | nil =>
          obtain rfl : right = .nonterminal production.lhs :: rest := hwhole
          exact ⟨[], id :: ids, [], terminals, rfl, rfl, Spells.nil,
            Spells.expand hproduction hrest⟩
      | cons symbol left =>
          obtain ⟨rfl, hleft⟩ := List.cons.inj hwhole
          have hinner : (production.symbols ++ left) ++ right = production.symbols ++ rest := by
            rw [List.append_assoc]
            exact congrArg (production.symbols ++ ·) hleft
          obtain ⟨ids₁, ids₂, terminals₁, terminals₂, rfl, rfl, hfirst, hsecond⟩ := ih hinner
          exact ⟨id :: ids₁, ids₂, terminals₁, terminals₂, rfl, rfl,
            Spells.expand hproduction hfirst, hsecond⟩

/-- A derivation step in front of a spelling. -/
theorem Yields.exists_spells (hwell : grammar.WellFormed) {first second : List Symbol}
    (hstep : grammar.Yields first second) (hspells : grammar.Spells ids second terminals) :
    ∃ ids', grammar.Spells ids' first terminals := by
  obtain ⟨hmem, before, after⟩ := hstep
  rw [List.append_assoc] at hspells
  obtain ⟨ids₁, ids₂, terminals₁, terminals₂, rfl, rfl, hbefore, hafter⟩ :=
    hspells.exists_append
  exact ⟨_, hbefore.append (Spells.expand (hwell.production?_id _ hmem) hafter)⟩

/-- Whatever is derivable has a leftmost derivation. -/
theorem Derives.exists_spells (hwell : grammar.WellFormed)
    (hderives : grammar.Derives symbols (sentence terminals)) :
    ∃ ids, grammar.Spells ids symbols terminals := by
  induction hderives using ReflTransGen.head_induction_on with
  | refl => exact ⟨[], spells_sentence terminals⟩
  | head hstep _ ih =>
      obtain ⟨ids, hspells⟩ := ih
      exact hstep.exists_spells hwell hspells

theorem DerivesLeftmost.cons_terminal {first last : List Symbol} (t : Terminal)
    (hderives : grammar.DerivesLeftmost ids first last) :
    grammar.DerivesLeftmost ids (.terminal t :: first) (.terminal t :: last) := by
  induction hderives with
  | refl => exact DerivesLeftmost.refl _
  | head hstep _ ih =>
      obtain ⟨hproduction, before, after⟩ := hstep
      exact DerivesLeftmost.head (YieldsLeftmost.step hproduction (t :: before) after) ih

/-- A spelling is a leftmost derivation. -/
theorem Spells.derivesLeftmost (hspells : grammar.Spells ids symbols terminals) :
    grammar.DerivesLeftmost ids symbols (sentence terminals) := by
  induction hspells with
  | nil => exact DerivesLeftmost.refl []
  | terminal t _ ih => exact ih.cons_terminal t
  | expand hproduction _ ih =>
      exact DerivesLeftmost.head (YieldsLeftmost.step hproduction [] _) ih

/-- A leftmost step in front of a spelling. -/
theorem YieldsLeftmost.spells {id : ProductionId} {first second : List Symbol}
    (hstep : grammar.YieldsLeftmost id first second)
    (hspells : grammar.Spells ids second terminals) :
    grammar.Spells (id :: ids) first terminals := by
  obtain ⟨hproduction, before, after⟩ := hstep
  induction before generalizing terminals with
  | nil => exact Spells.expand hproduction hspells
  | cons t before ih =>
      cases hspells with
      | terminal _ hrest => exact Spells.terminal t (ih hrest)

/-- A leftmost derivation of terminals is a spelling. -/
theorem DerivesLeftmost.spells
    (hderives : grammar.DerivesLeftmost ids symbols (sentence terminals)) :
    grammar.Spells ids symbols terminals := by
  generalize hlast : sentence terminals = last at hderives
  induction hderives with
  | refl =>
      subst hlast
      exact spells_sentence terminals
  | head hstep _ ih => exact hstep.spells (ih hlast)

theorem Spells.erasable (hspells : grammar.Spells ids symbols []) : grammar.Erasable symbols := by
  generalize hempty : [] = terminals at hspells
  induction hspells with
  | nil => exact Erasable.nil
  | terminal t => cases hempty
  | expand hproduction _ ih =>
      obtain ⟨hsymbols, hrest⟩ := erasable_append_iff.mp (ih hempty)
      exact Erasable.cons (List.mem_of_getElem? hproduction) hsymbols hrest

/-- Whatever is erasable is spelled as the empty string. -/
theorem Erasable.exists_spells (hwell : grammar.WellFormed)
    (herasable : grammar.Erasable symbols) : ∃ ids, grammar.Spells ids symbols [] := by
  induction herasable with
  | nil => exact ⟨[], Spells.nil⟩
  | cons hmem _ _ ihsymbols ihrest =>
      obtain ⟨ids, hsymbols⟩ := ihsymbols
      obtain ⟨ids', hrest⟩ := ihrest
      exact ⟨_, Spells.expand (hwell.production?_id _ hmem) (hsymbols.append hrest)⟩

/-- A string is erasable exactly if it derives the empty string. -/
theorem erasable_iff_derives (hwell : grammar.WellFormed) :
    grammar.Erasable symbols ↔ grammar.Derives symbols [] := by
  constructor
  · intro herasable
    obtain ⟨ids, hspells⟩ := herasable.exists_spells hwell
    exact hspells.derivesLeftmost.derives
  · intro hderives
    have hsentence : grammar.Derives symbols (sentence []) := hderives
    obtain ⟨ids, hspells⟩ := hsentence.exists_spells hwell
    exact hspells.erasable

/-- The first terminal that is spelled begins the string. -/
theorem Spells.begins {t : Terminal} (hspells : grammar.Spells ids symbols (t :: terminals)) :
    grammar.Begins (.terminal t) symbols := by
  generalize hword : t :: terminals = word at hspells
  induction hspells with
  | nil => cases hword
  | @terminal ids rest terminals' t' hrest =>
      obtain ⟨rfl, _⟩ := List.cons.inj hword
      exact Begins.symbol rest
  | expand hproduction _ ih =>
      exact Begins.of_expansion (List.mem_of_getElem? hproduction) (ih hword)

/-- A derivation step brings nothing to the front that was not there before. -/
theorem Yields.begins {lookahead : Lookahead} {first second : List Symbol}
    (hstep : grammar.Yields first second) (hbegins : grammar.Begins lookahead second) :
    grammar.Begins lookahead first := by
  obtain ⟨hmem, before, after⟩ := hstep
  rw [List.append_assoc] at hbegins
  rw [begins_append_iff] at hbegins ⊢
  exact hbegins.imp_right fun hboth => ⟨hboth.1, Begins.of_expansion hmem hboth.2⟩

/-- A derivation step keeps every nonterminal followed by all that can come after it. -/
theorem Yields.followed {first second : List Symbol} (hstep : grammar.Yields first second)
    (hfollowed : grammar.Followed first) : grammar.Followed second := by
  obtain ⟨hmem, before, after⟩ := hstep
  rw [List.append_assoc]
  induction before with
  | nil => exact hfollowed.expand hmem
  | cons symbol before ih =>
      have hrest := ih hfollowed.tail
      cases symbol with
      | nonterminal n =>
          refine ⟨?_, hrest⟩
          intro lookahead hbegins
          apply hfollowed.1 lookahead
          apply (Yields.step hmem before after).begins
          rw [List.append_assoc]
          exact hbegins
      | terminal t => exact hrest
      | epsilon => exact hrest
      | endMarker => exact hrest

theorem Derives.followed {first last : List Symbol} (hderives : grammar.Derives first last)
    (hfollowed : grammar.Followed first) : grammar.Followed last := by
  induction hderives with
  | refl => exact hfollowed
  | tail _ hstep ih => exact hstep.followed ih

/-- A lookahead begins a string exactly if the string derives one that starts with it. -/
theorem begins_iff_derives (hwell : grammar.WellFormed) {lookahead : Lookahead} :
    grammar.Begins lookahead symbols ↔
      ∃ rest, grammar.Derives symbols (lookahead.symbol :: rest) := by
  constructor
  · rintro ⟨depth, hleads⟩
    induction hleads with
    | symbol hsymbol rest => exact ⟨rest, hsymbol ▸ ReflTransGen.refl⟩
    | @expand production depth hmem _ rest ih =>
        obtain ⟨tail, hderives⟩ := ih
        have hstep : grammar.Yields (.nonterminal production.lhs :: rest)
            (production.symbols ++ rest) := Yields.step hmem [] rest
        exact ⟨tail ++ rest, (hderives.append_right rest).head hstep⟩
    | skip herasable _ ih =>
        obtain ⟨tail, hderives⟩ := ih
        have herase := (erasable_iff_derives hwell).mp herasable
        exact ⟨tail, herase.append hderives⟩
  · rintro ⟨rest, hderives⟩
    induction hderives using ReflTransGen.head_induction_on with
    | refl => exact Begins.symbol rest
    | head hstep _ ih => exact hstep.begins ih

end Predictive.Grammar
