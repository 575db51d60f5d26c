import Mathlib.Logic.Basic
import Predictive.Grammar.Builder
import Predictive.Proofs.FirstOccurrence
import Predictive.Proofs.WellFormed

/-!
What the two passes of a builder come to.  While a pass goes on, the names it has met stand
for their symbols by first occurrence, and the other names stand for none.  At the end the
grammar is that of the draft which the builder's names spell, so that nothing depends on the
order in which names were interned.
-/

namespace Predictive

/-- A stateful pass over a list, where `all` is the list that `items` is a part of.  If each
step gives the item's value and carries on what holds of the items done, the pass does. -/
theorem run_mapM {State Item Value : Type} {step : Item → StateM State Value}
    {value : Item → Value} (Holds : List Item → State → Prop) {all : List Item}
    (hstep : ∀ done item rest state, done ++ item :: rest = all → Holds done state →
      ∃ next, (step item).run state = (value item, next) ∧ Holds (done ++ [item]) next)
    (items : List Item) {done rest : List Item} (hall : done ++ items ++ rest = all)
    {state : State} (hholds : Holds done state) :
    ∃ last, (items.mapM step).run state = (items.map value, last) ∧
      Holds (done ++ items) last := by
  induction items generalizing done state with
  | nil => exact ⟨state, rfl, by simpa using hholds⟩
  | cons item later ih =>
      have hitem : done ++ item :: (later ++ rest) = all := by simpa using hall
      obtain ⟨next, hnext, hheld⟩ := hstep done item (later ++ rest) state hitem hholds
      have hlater : done ++ [item] ++ later ++ rest = all := by simpa using hall
      obtain ⟨last, hlast, hall⟩ := ih hlater hheld
      refine ⟨last, ?_, by simpa using hall⟩
      rw [List.mapM_cons, StateT.run_bind, hnext]
      change ((later.mapM step) >>= fun values => pure (value item :: values)).run next = _
      rw [StateT.run_bind, hlast]
      rfl

namespace Numbering

/-- The interned names in the tables, and no others, stand for the symbols of those names. -/
structure Tracks (numbering : Numbering) (interner : Interner) : Prop where
  length_symbols : numbering.symbols.length = interner.size
  symbol?_eq : ∀ index < interner.size, numbering.symbol? index =
    if interner.name index ∈ numbering.nonterminals ++ numbering.terminals then
      some (Draft.symbolOf numbering.nonterminals numbering.terminals (interner.name index))
    else none

theorem tracks_blank (interner : Interner) : (blank interner).Tracks interner where
  length_symbols := List.length_replicate
  symbol?_eq index hindex := by simp [blank, symbol?, hindex]

variable {interner : Interner} {numbering : Numbering} {index : Nat}

theorem symbol?_set (hindex : index < numbering.symbols.length) (symbol : Symbol)
    (nonterminals terminals : List String) (other : Nat) :
    symbol? ⟨numbering.symbols.set index (some symbol), nonterminals, terminals⟩ other =
      if other = index then some symbol else numbering.symbol? other := by
  unfold symbol?
  by_cases heq : other = index
  · subst heq
    simp [hindex]
  · simp [heq, List.getElem?_set_ne (Ne.symm heq)]

/-- One more name stands for its symbol, and the other names stand for what they did. -/
theorem Tracks.set (htracks : numbering.Tracks interner) (hnodup : interner.names.Nodup)
    (hindex : index < interner.size) {nonterminals terminals : List String}
    (hmem : ∀ name, name ∈ nonterminals ++ terminals ↔
      name ∈ numbering.nonterminals ++ numbering.terminals ∨ name = interner.name index)
    (hkept : ∀ name ∈ numbering.nonterminals ++ numbering.terminals,
      Draft.symbolOf nonterminals terminals name =
        Draft.symbolOf numbering.nonterminals numbering.terminals name) :
    Tracks ⟨numbering.symbols.set index
      (some (Draft.symbolOf nonterminals terminals (interner.name index))),
      nonterminals, terminals⟩ interner where
  length_symbols := (List.length_set).trans htracks.length_symbols
  symbol?_eq other hother := by
    rw [symbol?_set (htracks.length_symbols ▸ hindex)]
    by_cases heq : other = index
    · subst heq
      rw [if_pos rfl, if_pos ((hmem _).mpr (.inr rfl))]
    · have hname : interner.name other ≠ interner.name index :=
        fun hsame => heq ((Interner.name_inj hnodup hother hindex).mp hsame)
      rw [if_neg heq, htracks.symbol?_eq other hother]
      by_cases hmet : interner.name other ∈ numbering.nonterminals ++ numbering.terminals
      · rw [if_pos hmet, if_pos ((hmem _).mpr (.inl hmet)), hkept _ hmet]
      · rw [if_neg hmet, if_neg]
        exact fun hnew => ((hmem _).mp hnew).elim hmet hname

theorem run_nonterminal_of_eq_some {n : NonTerminal}
    (hsymbol : numbering.symbol? index = some (.nonterminal n)) :
    (nonterminal interner index).run numbering = (n, numbering) := by
  simp only [nonterminal, StateT.run_bind, StateT.run_get, pure_bind, hsymbol]
  rfl

theorem run_nonterminal_of_eq_none (hsymbol : numbering.symbol? index = none) :
    (nonterminal interner index).run numbering =
      (.ofIndex numbering.nonterminals.length,
        { numbering with
          symbols := numbering.symbols.set index
            (some (.nonterminal (.ofIndex numbering.nonterminals.length)))
          nonterminals := numbering.nonterminals ++ [interner.name index] }) := by
  simp only [nonterminal, StateT.run_bind, StateT.run_get, pure_bind, hsymbol]
  rfl

theorem run_symbol_of_eq_some {symbol : Symbol}
    (hsymbol : numbering.symbol? index = some symbol) :
    (Numbering.symbol interner index).run numbering = (symbol, numbering) := by
  simp only [Numbering.symbol, StateT.run_bind, StateT.run_get, pure_bind, hsymbol]
  rfl

theorem run_symbol_of_eq_none (hsymbol : numbering.symbol? index = none) :
    (Numbering.symbol interner index).run numbering =
      (.terminal (.ofIndex numbering.terminals.length),
        { numbering with
          symbols := numbering.symbols.set index
            (some (.terminal (.ofIndex numbering.terminals.length)))
          terminals := numbering.terminals ++ [interner.name index] }) := by
  simp only [Numbering.symbol, StateT.run_bind, StateT.run_get, pure_bind, hsymbol]
  rfl

/-- A step of the first pass, in which no name stands for a terminal. -/
theorem Tracks.run_nonterminal (htracks : numbering.Tracks interner)
    (hnodup : interner.names.Nodup) (hterminals : numbering.terminals = [])
    (hindex : index < interner.size) :
    ∃ next, (nonterminal interner index).run numbering =
        (.ofIndex (next.nonterminals.idxOf (interner.name index)), next) ∧
      next.Tracks interner ∧ next.terminals = [] ∧
      next.nonterminals =
        if interner.name index ∈ numbering.nonterminals then numbering.nonterminals
        else numbering.nonterminals ++ [interner.name index] := by
  obtain ⟨symbols, nonterminals, terminals⟩ := numbering
  obtain rfl : terminals = [] := hterminals
  have hsymbol := htracks.symbol?_eq index hindex
  rw [List.append_nil] at hsymbol
  by_cases hmem : interner.name index ∈ nonterminals
  case pos =>
    rw [if_pos hmem, Draft.symbolOf, if_pos hmem] at hsymbol
    exact ⟨_, run_nonterminal_of_eq_some hsymbol, htracks, rfl, (if_pos hmem).symm⟩
  case neg =>
    rw [if_neg hmem] at hsymbol
    have hnew : Draft.symbolOf (nonterminals ++ [interner.name index]) []
        (interner.name index) = .nonterminal (.ofIndex nonterminals.length) := by
      simp [Draft.symbolOf, idxOf_concat hmem]
    have hset : Tracks ⟨symbols.set index (some (.nonterminal (.ofIndex nonterminals.length))),
        nonterminals ++ [interner.name index], []⟩ interner := by
      rw [← hnew]
      apply htracks.set hnodup hindex
      · simp
      · intro name hname
        rw [List.append_nil] at hname
        simp only [Draft.symbolOf, hname, List.mem_append, true_or, if_true,
          List.idxOf_append_of_mem hname]
    refine ⟨_, ?_, hset, rfl, (if_neg hmem).symm⟩
    rw [run_nonterminal_of_eq_none hsymbol, idxOf_concat hmem]

/-- A step of the second pass, in which every nonterminal is known. -/
theorem Tracks.run_symbol (htracks : numbering.Tracks interner)
    (hnodup : interner.names.Nodup) (hindex : index < interner.size) :
    ∃ next, (Numbering.symbol interner index).run numbering =
        (Draft.symbolOf next.nonterminals next.terminals (interner.name index), next) ∧
      next.Tracks interner ∧ next.nonterminals = numbering.nonterminals ∧
      next.terminals =
        if interner.name index ∈ numbering.nonterminals ++ numbering.terminals then
          numbering.terminals
        else numbering.terminals ++ [interner.name index] := by
  obtain ⟨symbols, nonterminals, terminals⟩ := numbering
  have hsymbol := htracks.symbol?_eq index hindex
  by_cases hmem : interner.name index ∈ nonterminals ++ terminals
  case pos =>
    rw [if_pos hmem] at hsymbol
    exact ⟨_, run_symbol_of_eq_some hsymbol, htracks, rfl, (if_pos hmem).symm⟩
  case neg =>
    rw [if_neg hmem] at hsymbol
    rw [List.mem_append, not_or] at hmem
    have hnew : Draft.symbolOf nonterminals (terminals ++ [interner.name index])
        (interner.name index) = .terminal (.ofIndex terminals.length) := by
      simp [Draft.symbolOf, hmem.1, idxOf_concat hmem.2]
    have hset : Tracks ⟨symbols.set index (some (.terminal (.ofIndex terminals.length))),
        nonterminals, terminals ++ [interner.name index]⟩ interner := by
      rw [← hnew]
      apply htracks.set hnodup hindex
      · simp [or_assoc]
      · intro name hname
        by_cases hleft : name ∈ nonterminals
        · simp [Draft.symbolOf, hleft]
        · have hright := (List.mem_append.mp hname).resolve_left hleft
          simp [Draft.symbolOf, hleft, List.idxOf_append_of_mem hright]
    refine ⟨_, ?_, hset, rfl, ?_⟩
    · rw [run_symbol_of_eq_none hsymbol, hnew]
    · rw [if_neg]
      rw [List.mem_append, not_or]
      exact hmem

/-- The names of terminals among the names that interned indices spell. -/
def terminalsOf (interner : Interner) (nonterminals : List String) (indices : List Nat) :
    List String :=
  distinctNames ((indices.map interner.name).filter (· ∉ nonterminals))

theorem terminalsOf_concat (nonterminals : List String) (done : List Nat) :
    terminalsOf interner nonterminals (done ++ [index]) =
      if interner.name index ∈ nonterminals ++ terminalsOf interner nonterminals done then
        terminalsOf interner nonterminals done
      else terminalsOf interner nonterminals done ++ [interner.name index] := by
  unfold terminalsOf
  rw [List.map_append, List.map_singleton, List.filter_append]
  by_cases hmem : interner.name index ∈ nonterminals
  · simp [hmem]
  · rw [List.filter_cons_of_pos (by simpa using hmem), List.filter_nil, distinctNames_concat]
    simp [hmem]

/-- A name's symbol is settled as soon as the name is met. -/
theorem symbolOf_terminalsOf (nonterminals : List String) (done rest : List Nat) :
    Draft.symbolOf nonterminals (terminalsOf interner nonterminals (done ++ [index]))
        (interner.name index) =
      Draft.symbolOf nonterminals
        (terminalsOf interner nonterminals (done ++ [index] ++ rest))
        (interner.name index) := by
  by_cases hmem : interner.name index ∈ nonterminals
  · simp [Draft.symbolOf, hmem]
  · have hmet : interner.name index ∈
        ((done ++ [index]).map interner.name).filter (· ∉ nonterminals) := by
      simp [hmem]
    have hsplit : (done ++ [index] ++ rest).map interner.name =
        (done ++ [index]).map interner.name ++ rest.map interner.name := List.map_append
    simp only [Draft.symbolOf, hmem, if_false, terminalsOf]
    rw [hsplit, List.filter_append, idxOf_distinctNames_append hmet]

/-- The nonterminals are known, and so are the terminals of the names done, by first
occurrence. -/
structure Reads (interner : Interner) (nonterminals : List String) (done : List Nat)
    (numbering : Numbering) : Prop where
  tracks : numbering.Tracks interner
  nonterminals_eq : numbering.nonterminals = nonterminals
  terminals_eq : numbering.terminals = terminalsOf interner nonterminals done

variable {nonterminals : List String} {all : List Nat}

theorem Reads.run_symbols (hnodup : interner.names.Nodup)
    (hall : ∀ index ∈ all, index < interner.size) {done items rest : List Nat}
    (hitems : done ++ items ++ rest = all)
    (hreads : numbering.Reads interner nonterminals done) :
    ∃ next, (items.mapM (Numbering.symbol interner)).run numbering =
        (items.map fun index => Draft.symbolOf nonterminals
          (terminalsOf interner nonterminals all) (interner.name index), next) ∧
      next.Reads interner nonterminals (done ++ items) := by
  refine run_mapM (Reads interner nonterminals) ?_ items hitems hreads
  intro done index rest state hitem hreads
  have hindex : index < interner.size := hall index (by simp [← hitem])
  obtain ⟨next, hrun, htracks, hkept, hterminals⟩ := hreads.tracks.run_symbol hnodup hindex
  rw [hreads.nonterminals_eq] at hkept
  rw [hreads.nonterminals_eq, hreads.terminals_eq, ← terminalsOf_concat] at hterminals
  refine ⟨next, ?_, htracks, hkept, hterminals⟩
  have hsplit : done ++ [index] ++ rest = all := by simpa using hitem
  rw [hrun, hkept, hterminals, symbolOf_terminalsOf nonterminals done rest, hsplit]

/-- A right-hand side in written form, given the symbols of its names. -/
theorem Reads.run_side (hnodup : interner.names.Nodup)
    (hall : ∀ index ∈ all, index < interner.size) {done rhs rest : List Nat}
    (hrhs : done ++ rhs ++ rest = all) (hreads : numbering.Reads interner nonterminals done) :
    ∃ next, (side interner rhs).run numbering =
        (if rhs.isEmpty then [.epsilon]
          else rhs.map fun index => Draft.symbolOf nonterminals
            (terminalsOf interner nonterminals all) (interner.name index), next) ∧
      next.Reads interner nonterminals (done ++ rhs) := by
  unfold side
  split
  · rename_i hempty
    obtain rfl := List.isEmpty_iff.mp hempty
    exact ⟨numbering, rfl, by simpa using hreads⟩
  · exact hreads.run_symbols hnodup hall hrhs

end Numbering

namespace Builder

variable (builder : Builder)

/-- The name on the left-hand side of an alternative. -/
def leftName (alternative : InternedAlternative) : String :=
  (alternative.spell builder.interner).lhs

/-- The nonterminal on the left-hand side of an alternative, numbered as in the draft. -/
def left (alternative : InternedAlternative) : NonTerminal :=
  .ofIndex (builder.draft.nonterminalNames.idxOf (builder.leftName alternative))

/-- The written form of the right-hand side of an alternative, numbered as in the draft. -/
def right (alternative : InternedAlternative) : List Symbol :=
  if alternative.rhs.isEmpty then [.epsilon]
  else alternative.rhs.map fun index => Draft.symbolOf builder.draft.nonterminalNames
    builder.draft.terminalNames (builder.interner.name index)

theorem nonterminalNames_draft :
    builder.draft.nonterminalNames =
      distinctNames (builder.alternatives.map builder.leftName) := by
  rw [Draft.nonterminalNames, draft, List.map_map]
  rfl

theorem terminalNames_draft :
    builder.draft.terminalNames =
      Numbering.terminalsOf builder.interner builder.draft.nonterminalNames
        (builder.alternatives.flatMap (·.rhs)) := by
  rw [Draft.terminalNames, Numbering.terminalsOf, draft, List.flatMap_map, List.map_flatMap]
  rfl

/-- The first pass gives the left-hand sides the nonterminals of the draft. -/
theorem run_nonterminals :
    ∃ declared, (builder.alternatives.mapM fun alternative =>
        Numbering.nonterminal builder.interner alternative.lhs).run (.blank builder.interner) =
        (builder.alternatives.map builder.left, declared) ∧
      declared.Reads builder.interner builder.draft.nonterminalNames [] := by
  unfold left
  rw [nonterminalNames_draft]
  have hitems : [] ++ builder.alternatives ++ [] = builder.alternatives := List.append_nil _
  refine run_mapM (fun done => Numbering.Reads builder.interner
    (distinctNames (done.map builder.leftName)) []) ?_ _ hitems
    ⟨Numbering.tracks_blank builder.interner, rfl, rfl⟩
  intro done alternative rest state hitem hreads
  have hmem : alternative ∈ builder.alternatives := by simp [← hitem]
  have hindex : alternative.lhs < builder.interner.size :=
    builder.alternatives_lt alternative hmem _ List.mem_cons_self
  obtain ⟨next, hrun, hnext, hnone, hdeclared⟩ :=
    hreads.tracks.run_nonterminal builder.nodup hreads.terminals_eq hindex
  have hconcat : next.nonterminals =
      distinctNames ((done ++ [alternative]).map builder.leftName) := by
    rw [hdeclared, hreads.nonterminals_eq, List.map_append, List.map_singleton,
      distinctNames_concat]
    simp only [mem_distinctNames]
    rfl
  refine ⟨next, ?_, hnext, hconcat, hnone⟩
  -- The nonterminal is numbered by the names so far, but names to come do not move it.
  have hmet : builder.leftName alternative ∈ (done ++ [alternative]).map builder.leftName := by
    simp
  have hsplit : builder.alternatives.map builder.leftName =
      (done ++ [alternative]).map builder.leftName ++ rest.map builder.leftName := by
    rw [← hitem, List.append_cons, List.map_append]
  rw [hrun, hconcat, hsplit, idxOf_distinctNames_append hmet]
  rfl

variable {builder} {declared : Numbering}

/-- The second pass gives the right-hand sides the symbols of the draft. -/
theorem run_sides
    (hreads : declared.Reads builder.interner builder.draft.nonterminalNames []) :
    ∃ numbering, (builder.alternatives.mapM fun alternative =>
        Numbering.side builder.interner alternative.rhs).run declared =
        (builder.alternatives.map builder.right, numbering) ∧
      numbering.Reads builder.interner builder.draft.nonterminalNames
        (builder.alternatives.flatMap (·.rhs)) := by
  unfold right
  rw [terminalNames_draft]
  have hall : ∀ index ∈ builder.alternatives.flatMap (·.rhs),
      index < builder.interner.size := by
    intro index hindex
    obtain ⟨alternative, hmem, hrhs⟩ := List.mem_flatMap.mp hindex
    exact builder.alternatives_lt alternative hmem index (List.mem_cons_of_mem _ hrhs)
  have hitems : [] ++ builder.alternatives ++ [] = builder.alternatives := List.append_nil _
  refine run_mapM (fun done => Numbering.Reads builder.interner
    builder.draft.nonterminalNames (done.flatMap (·.rhs))) ?_ _ hitems hreads
  intro done alternative rest state hitem hdone
  have hsplit : done.flatMap (·.rhs) ++ alternative.rhs ++ rest.flatMap (·.rhs) =
      builder.alternatives.flatMap (·.rhs) := by
    simp [← hitem]
  obtain ⟨next, hrun, hnext⟩ := hdone.run_side builder.nodup hall hsplit
  exact ⟨next, hrun, by simpa using hnext⟩

theorem mem_names {name : String} (hmem : name ∈ builder.draft.nonterminalNames) :
    name ∈ builder.interner.names := by
  rw [nonterminalNames_draft, mem_distinctNames] at hmem
  obtain ⟨alternative, halternative, rfl⟩ := List.mem_map.mp hmem
  exact Interner.name_mem
    (builder.alternatives_lt alternative halternative _ List.mem_cons_self)

/-- The start symbol is looked up between the passes, when only nonterminals are known. -/
theorem start?_eq (hreads : declared.Reads builder.interner builder.draft.nonterminalNames [])
    (start : String) :
    builder.start? declared start =
      if start ∈ builder.draft.nonterminalNames then
        some (.ofIndex (builder.draft.nonterminalNames.idxOf start))
      else none := by
  have hterminals : declared.terminals = [] := hreads.terminals_eq
  unfold start?
  cases hplace : builder.interner.names.idxOf? start with
  | none =>
      have hunknown : start ∉ builder.draft.nonterminalNames :=
        fun hmem => List.idxOf?_eq_none_iff.mp hplace (mem_names hmem)
      rw [if_neg hunknown]
      rfl
  | some index =>
      obtain ⟨hindex, rfl⟩ := Interner.name_of_idxOf?_eq_some hplace
      have hsymbol := hreads.tracks.symbol?_eq index hindex
      rw [hterminals, List.append_nil, hreads.nonterminals_eq] at hsymbol
      simp only [Option.bind_eq_bind, Option.bind_some, hsymbol]
      split
      · rename_i hmem
        rw [Draft.symbolOf, if_pos hmem]
        rfl
      · rfl

variable (builder)

/-- The two passes together write the productions of the draft. -/
theorem productions_eq :
    ((builder.alternatives.map builder.left).zip
        (builder.alternatives.map builder.right)).mapIdx
      (fun position (lhs, rhs) => ⟨.ofIndex position, lhs, rhs⟩) =
    builder.draft.alternatives.mapIdx
      (Draft.production builder.draft.nonterminalNames builder.draft.terminalNames) := by
  rw [List.zip_map']
  apply List.ext_getElem?
  intro position
  have hspelled : builder.draft.alternatives[position]? =
      builder.alternatives[position]?.map (·.spell builder.interner) := by
    rw [draft, List.getElem?_map]
  rw [List.getElem?_mapIdx, List.getElem?_mapIdx, List.getElem?_map, hspelled]
  cases builder.alternatives[position]? with
  | none => rfl
  | some alternative =>
      simp only [Option.map_some, Draft.production_eq, InternedAlternative.spell, left, right,
        leftName, List.isEmpty_map, List.map_map, Function.comp_def]

/-- A builder finishes as the draft does that its names spell. -/
theorem finish_eq_finish_draft (start : String) :
    builder.finish start = builder.draft.finish start := by
  obtain ⟨declared, hlefts, hdeclared⟩ := builder.run_nonterminals
  obtain ⟨numbering, hrights, hreads⟩ := run_sides hdeclared
  have hstart := start?_eq hdeclared start
  have hempty : builder.draft.alternatives.isEmpty = builder.alternatives.isEmpty := by
    rw [draft, List.isEmpty_map]
  unfold finish Draft.finish
  rw [hempty]
  split
  · rfl
  · cases builder.draft.malformed? with
    | some error => rfl
    | none =>
        by_cases hmem : start ∈ builder.draft.nonterminalNames
        · simp only [hlefts, hstart, if_pos hmem, hrights, productions_eq,
            hreads.nonterminals_eq, hreads.terminals_eq, ← terminalNames_draft]
          rfl
        · simp only [hlefts, hstart, if_neg hmem]

end Builder

end Predictive
