import Predictive.Derivation
import Predictive.Proofs.WellFormed

/-!
What a lookahead tells.  A string of symbols is erasable if it derives the empty
string, and a lookahead begins it if the string derives one that starts with the
lookahead.  A lookahead follows a nonterminal if it can come right after it.
Under a lookahead a production is predicted if the lookahead begins its
right-hand side, or if that side is erasable and the lookahead follows the
left-hand side.  On the stack of the machine every lookahead that begins what
lies below a nonterminal follows that nonterminal.
-/

namespace Predictive.Grammar

/-- Every symbol of the string vanishes by some productions. -/
inductive Erasable (grammar : Grammar) : List Symbol → Prop where
  | nil : grammar.Erasable []
  | cons {production : Production} {rest : List Symbol}
      (hmem : production ∈ grammar.productions)
      (hsymbols : grammar.Erasable production.symbols)
      (hrest : grammar.Erasable rest) :
      grammar.Erasable (.nonterminal production.lhs :: rest)

/-- The lookahead comes first in what the string derives.  The depth counts the
productions that are nested in front of it, those that erase a symbol excepted. -/
inductive Leads (grammar : Grammar) (lookahead : Lookahead) : Nat → List Symbol → Prop where
  | symbol {symbol : Symbol} (hsymbol : symbol = lookahead.symbol) (rest : List Symbol) :
      grammar.Leads lookahead 0 (symbol :: rest)
  | expand {production : Production} {depth : Nat}
      (hmem : production ∈ grammar.productions)
      (hsymbols : grammar.Leads lookahead depth production.symbols) (rest : List Symbol) :
      grammar.Leads lookahead (depth + 1) (.nonterminal production.lhs :: rest)
  | skip {n : NonTerminal} {depth : Nat} {rest : List Symbol}
      (herasable : grammar.Erasable [.nonterminal n])
      (hrest : grammar.Leads lookahead depth rest) :
      grammar.Leads lookahead depth (.nonterminal n :: rest)

/-- The lookahead comes first in what the string derives, at whatever depth. -/
def Begins (grammar : Grammar) (lookahead : Lookahead) (symbols : List Symbol) : Prop :=
  ∃ depth, grammar.Leads lookahead depth symbols

/-- The lookahead can come right after the nonterminal. -/
inductive Follows (grammar : Grammar) (lookahead : Lookahead) : NonTerminal → Prop where
  | start (hend : lookahead = .endMarker) : grammar.Follows lookahead grammar.start
  | first {production : Production} {n : NonTerminal} {before after : List Symbol}
      (hmem : production ∈ grammar.productions)
      (hsplit : production.symbols = before ++ .nonterminal n :: after)
      (hbegins : grammar.Begins lookahead after) : grammar.Follows lookahead n
  | inherit {production : Production} {n : NonTerminal} {before after : List Symbol}
      (hmem : production ∈ grammar.productions)
      (hsplit : production.symbols = before ++ .nonterminal n :: after)
      (herasable : grammar.Erasable after)
      (hfollows : grammar.Follows lookahead production.lhs) : grammar.Follows lookahead n

/-- The production is a candidate for its left-hand side under the lookahead. -/
def Predicts (grammar : Grammar) (lookahead : Lookahead) (production : Production) : Prop :=
  grammar.Begins lookahead production.symbols ∨
    grammar.Erasable production.symbols ∧ grammar.Follows lookahead production.lhs

/-- No two productions of one nonterminal are predicted under one lookahead. -/
def Unrivalled (grammar : Grammar) : Prop :=
  ∀ left ∈ grammar.productions, ∀ right ∈ grammar.productions, left.lhs = right.lhs →
    ∀ lookahead, grammar.Predicts lookahead left → grammar.Predicts lookahead right →
      left.id = right.id

/-- Every lookahead that begins what comes after a nonterminal follows it. -/
def Followed (grammar : Grammar) : List Symbol → Prop
  | [] => True
  | .nonterminal n :: rest =>
      (∀ lookahead, grammar.Begins lookahead rest → grammar.Follows lookahead n) ∧
        grammar.Followed rest
  | .terminal _ :: rest | .epsilon :: rest | .endMarker :: rest => grammar.Followed rest

variable {grammar : Grammar} {lookahead : Lookahead}

theorem erasable_append_iff {left right : List Symbol} :
    grammar.Erasable (left ++ right) ↔ grammar.Erasable left ∧ grammar.Erasable right := by
  constructor
  · intro hwhole
    induction left with
    | nil => exact ⟨Erasable.nil, hwhole⟩
    | cons symbol rest ih =>
        cases hwhole with
        | cons hmem hsymbols hrest =>
            obtain ⟨hleft, hright⟩ := ih hrest
            exact ⟨Erasable.cons hmem hsymbols hleft, hright⟩
  · rintro ⟨hleft, hright⟩
    induction hleft with
    | nil => exact hright
    | cons hmem hsymbols _ _ ih => exact Erasable.cons hmem hsymbols ih

theorem erasable_cons_iff {symbol : Symbol} {rest : List Symbol} :
    grammar.Erasable (symbol :: rest) ↔ grammar.Erasable [symbol] ∧ grammar.Erasable rest :=
  @erasable_append_iff grammar [symbol] rest

/-- Only nonterminals can be erased. -/
theorem not_erasable_cons {symbol : Symbol} (hkind : symbol.nonterminal? = none)
    (rest : List Symbol) : ¬ grammar.Erasable (symbol :: rest) := by
  intro herasable
  cases herasable with
  | cons => cases hkind

theorem erasable_nonterminal_iff {n : NonTerminal} :
    grammar.Erasable [.nonterminal n] ↔
      ∃ production ∈ grammar.productions,
        production.lhs = n ∧ grammar.Erasable production.symbols := by
  constructor
  · intro herasable
    cases herasable with
    | cons hmem hsymbols _ => exact ⟨_, hmem, rfl, hsymbols⟩
  · rintro ⟨production, hmem, rfl, hsymbols⟩
    exact Erasable.cons hmem hsymbols Erasable.nil

theorem Leads.append_right {depth : Nat} {left : List Symbol}
    (hleads : grammar.Leads lookahead depth left) (right : List Symbol) :
    grammar.Leads lookahead depth (left ++ right) := by
  induction hleads with
  | symbol hsymbol rest => exact Leads.symbol hsymbol (rest ++ right)
  | expand hmem hsymbols rest _ => exact Leads.expand hmem hsymbols (rest ++ right)
  | skip herasable _ ih => exact Leads.skip herasable ih

theorem Begins.append_right {left : List Symbol} (hbegins : grammar.Begins lookahead left)
    (right : List Symbol) : grammar.Begins lookahead (left ++ right) := by
  obtain ⟨depth, hleads⟩ := hbegins
  exact ⟨depth, hleads.append_right right⟩

theorem Begins.symbol (rest : List Symbol) :
    grammar.Begins lookahead (lookahead.symbol :: rest) :=
  ⟨0, Leads.symbol rfl rest⟩

theorem Begins.expand {production : Production} (hmem : production ∈ grammar.productions)
    (hsymbols : grammar.Begins lookahead production.symbols) (rest : List Symbol) :
    grammar.Begins lookahead (.nonterminal production.lhs :: rest) := by
  obtain ⟨depth, hleads⟩ := hsymbols
  exact ⟨depth + 1, Leads.expand hmem hleads rest⟩

/-- An erasable string does not hide what comes after it. -/
theorem Erasable.begins_append {left right : List Symbol}
    (herasable : grammar.Erasable left) (hbegins : grammar.Begins lookahead right) :
    grammar.Begins lookahead (left ++ right) := by
  induction herasable with
  | nil => exact hbegins
  | cons hmem hsymbols _ _ ih =>
      obtain ⟨depth, hleads⟩ := ih
      exact ⟨depth, Leads.skip (Erasable.cons hmem hsymbols Erasable.nil) hleads⟩

theorem not_begins_nil : ¬ grammar.Begins lookahead [] := by
  rintro ⟨depth, hleads⟩
  cases hleads

/-- A lookahead begins a string through its first symbol, or that symbol is erased. -/
theorem begins_cons_iff {symbol : Symbol} {rest : List Symbol} :
    grammar.Begins lookahead (symbol :: rest) ↔
      grammar.Begins lookahead [symbol] ∨
        grammar.Erasable [symbol] ∧ grammar.Begins lookahead rest := by
  constructor
  · rintro ⟨depth, hleads⟩
    cases hleads with
    | symbol hsymbol => exact Or.inl (hsymbol ▸ Begins.symbol [])
    | expand hmem hsymbols => exact Or.inl (Begins.expand hmem ⟨_, hsymbols⟩ [])
    | skip herasable hrest => exact Or.inr ⟨herasable, _, hrest⟩
  · rintro (hsymbol | ⟨herasable, hrest⟩)
    · exact hsymbol.append_right rest
    · exact herasable.begins_append hrest

theorem begins_append_iff {left right : List Symbol} :
    grammar.Begins lookahead (left ++ right) ↔
      grammar.Begins lookahead left ∨
        grammar.Erasable left ∧ grammar.Begins lookahead right := by
  constructor
  · intro hwhole
    induction left with
    | nil => exact Or.inr ⟨Erasable.nil, hwhole⟩
    | cons symbol rest ih =>
        rcases begins_cons_iff.mp hwhole with hsymbol | ⟨herasable, hrest⟩
        · exact Or.inl (hsymbol.append_right rest)
        · rcases ih hrest with hleft | ⟨hleft, hright⟩
          · exact Or.inl (herasable.begins_append hleft)
          · exact Or.inr ⟨erasable_cons_iff.mpr ⟨herasable, hleft⟩, hright⟩
  · rintro (hleft | ⟨herasable, hright⟩)
    · exact hleft.append_right right
    · exact herasable.begins_append hright

theorem begins_nonterminal_iff {n : NonTerminal} :
    grammar.Begins lookahead [.nonterminal n] ↔
      ∃ production ∈ grammar.productions,
        production.lhs = n ∧ grammar.Begins lookahead production.symbols := by
  constructor
  · rintro ⟨depth, hleads⟩
    cases hleads with
    | symbol hsymbol => cases lookahead <;> cases hsymbol
    | expand hmem hsymbols => exact ⟨_, hmem, rfl, _, hsymbols⟩
    | skip _ hrest => cases hrest
  · rintro ⟨production, hmem, rfl, hsymbols⟩
    exact Begins.expand hmem hsymbols []

/-- A production in place of its left-hand side begins with nothing else. -/
theorem Begins.of_expansion {production : Production} {rest : List Symbol}
    (hmem : production ∈ grammar.productions)
    (hbegins : grammar.Begins lookahead (production.symbols ++ rest)) :
    grammar.Begins lookahead (.nonterminal production.lhs :: rest) := by
  rcases begins_append_iff.mp hbegins with hsymbols | ⟨herasable, hrest⟩
  · exact hsymbols.expand hmem rest
  · exact (Erasable.cons hmem herasable Erasable.nil).begins_append hrest

theorem Followed.tail {symbol : Symbol} {rest : List Symbol}
    (hfollowed : grammar.Followed (symbol :: rest)) : grammar.Followed rest := by
  cases symbol with
  | nonterminal n => exact hfollowed.2
  | terminal t => exact hfollowed
  | epsilon => exact hfollowed
  | endMarker => exact hfollowed

theorem Followed.of_append {before rest : List Symbol}
    (hfollowed : grammar.Followed (before ++ rest)) : grammar.Followed rest := by
  induction before with
  | nil => exact hfollowed
  | cons symbol before ih => exact ih hfollowed.tail

theorem followed_singleton (n : NonTerminal) : grammar.Followed [.nonterminal n] :=
  ⟨fun _ hbegins => (not_begins_nil hbegins).elim, trivial⟩

/-- The first stack of the machine. -/
theorem followed_start : grammar.Followed [.nonterminal grammar.start, .endMarker] := by
  refine ⟨?_, trivial⟩
  rintro lookahead ⟨depth, hleads⟩
  cases hleads with
  | symbol hsymbol =>
      cases lookahead with
      | terminal t => cases hsymbol
      | endMarker => exact Follows.start rfl

/-- A production in place of its left-hand side keeps the stack as it should be. -/
theorem Followed.expand {production : Production} {below : List Symbol}
    (hmem : production ∈ grammar.productions)
    (hfollowed : grammar.Followed (.nonterminal production.lhs :: below)) :
    grammar.Followed (production.symbols ++ below) := by
  suffices hsuffix : ∀ before after, production.symbols = before ++ after →
      grammar.Followed (after ++ below) from hsuffix [] _ rfl
  intro before after hsplit
  induction after generalizing before with
  | nil => exact hfollowed.2
  | cons symbol rest ih =>
      have hrest : grammar.Followed (rest ++ below) :=
        ih (before ++ [symbol]) (by rw [hsplit, List.append_assoc, List.singleton_append])
      cases symbol with
      | nonterminal n =>
          refine ⟨?_, hrest⟩
          intro lookahead hbegins
          rcases begins_append_iff.mp hbegins with hinner | ⟨herasable, hbelow⟩
          · exact Follows.first hmem hsplit hinner
          · exact Follows.inherit hmem hsplit herasable (hfollowed.1 lookahead hbelow)
      | terminal t => exact hrest
      | epsilon => exact hrest
      | endMarker => exact hrest

/-- A production whose use brings the lookahead in front is predicted. -/
theorem Followed.predicts {production : Production} {below : List Symbol}
    (hfollowed : grammar.Followed (.nonterminal production.lhs :: below))
    (hbegins : grammar.Begins lookahead (production.symbols ++ below)) :
    grammar.Predicts lookahead production := by
  rcases begins_append_iff.mp hbegins with hsymbols | ⟨herasable, hbelow⟩
  · exact Or.inl hsymbols
  · exact Or.inr ⟨herasable, hfollowed.1 lookahead hbelow⟩

/-- What follows the left-hand side follows every symbol of an erasable right-hand
side. -/
theorem Follows.of_erasable {production : Production}
    (hmem : production ∈ grammar.productions)
    (herasable : grammar.Erasable production.symbols)
    (hfollows : grammar.Follows lookahead production.lhs) {n : NonTerminal}
    (hn : .nonterminal n ∈ production.symbols) : grammar.Follows lookahead n := by
  obtain ⟨before, after, hsplit⟩ := List.append_of_mem hn
  refine Follows.inherit hmem hsplit ?_ hfollows
  rw [hsplit] at herasable
  exact (erasable_cons_iff.mp (erasable_append_iff.mp herasable).2).2

end Predictive.Grammar
