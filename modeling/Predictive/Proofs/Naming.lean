import Mathlib.Data.Finset.Card
import Predictive.Proofs.Calls

/-!
Names are resolved exactly.  The grammar of a builder has a production for every alternative
that was added, under the same names; its nonterminals and its terminals are numbered by first
occurrence, densely and apart from each other; and the look-up of names is the inverse of
naming.
-/

namespace Predictive

/-- The keys number the names that count, in order of first occurrence, and the look-up of a
name is the inverse of naming a key. -/
structure NumbersByOccurrence {Key : Type} (index : Key → Nat) (size : Nat)
    (nameOf? : Key → Option String) (lookup? : String → Option Key)
    (occurrences : List String) (Counts : String → Prop) : Prop where
  exists_key : ∀ position < size, ∃ key, index key = position
  isSome_nameOf? : ∀ key, (nameOf? key).isSome ↔ index key < size
  lookup?_eq_some_iff : ∀ name key, lookup? name = some key ↔ nameOf? key = some name
  isSome_lookup? : ∀ name, (lookup? name).isSome ↔ name ∈ occurrences ∧ Counts name
  index_lt_iff : ∀ left right leftName rightName, nameOf? left = some leftName →
    nameOf? right = some rightName →
      (index left < index right ↔ occurrences.idxOf leftName < occurrences.idxOf rightName)

/-- The grammar has the productions that the alternatives spell, and the numbering of its
symbols is that of the names' first occurrences. -/
structure Grammar.Resolves (grammar : Grammar) (alternatives : List Alternative)
    (start : String) : Prop where
  length_productions : grammar.productions.length = alternatives.length
  productions : ∀ (position : Nat) (alternative : Alternative),
    alternatives[position]? = some alternative →
      ∃ production, grammar.productions[position]? = some production ∧
        production.id.index = position ∧
        grammar.nameOf? (.nonterminal production.lhs) = some alternative.lhs ∧
        production.symbols.mapM grammar.nameOf? = some alternative.rhs ∧
        (production.rhs = [.epsilon] ↔ alternative.rhs = [])
  nonterminals : NumbersByOccurrence NonTerminal.index grammar.numNonterminals
    (fun n => grammar.nameOf? (.nonterminal n)) grammar.nonterminal?
    (alternatives.map (·.lhs)) (fun _ => True)
  terminals : NumbersByOccurrence Terminal.index grammar.numTerminals
    (fun t => grammar.nameOf? (.terminal t)) grammar.terminal?
    (alternatives.flatMap (·.rhs)) (· ∉ alternatives.map (·.lhs))
  apart : ∀ name, grammar.nonterminal? name = none ∨ grammar.terminal? name = none
  nameOf?_start : grammar.nameOf? (.nonterminal grammar.start) = some start

namespace Alternative

/-- The names in a list of alternatives. -/
def namesIn (alternatives : List Alternative) : Finset String :=
  (alternatives.flatMap names).toFinset

variable {alternatives : List Alternative} {alternative : Alternative}

theorem lhs_mem_namesIn (hmem : alternative ∈ alternatives) :
    alternative.lhs ∈ namesIn alternatives :=
  List.mem_toFinset.mpr (List.mem_flatMap.mpr ⟨alternative, hmem, List.mem_cons_self⟩)

theorem rhs_mem_namesIn (hmem : alternative ∈ alternatives) {name : String}
    (hname : name ∈ alternative.rhs) : name ∈ namesIn alternatives :=
  List.mem_toFinset.mpr
    (List.mem_flatMap.mpr ⟨alternative, hmem, List.mem_cons_of_mem _ hname⟩)

end Alternative

section ReverseMap

variable {Key : Type} {number : Nat → Key} {index : Key → Nat} {names : List String}

theorem idxOf?_eq_some_iff_getElem? (hnodup : names.Nodup) {name : String} {position : Nat} :
    names.idxOf? name = some position ↔ names[position]? = some name := by
  rw [List.idxOf?_eq_some_iff, List.getElem?_eq_some_iff]
  constructor
  · rintro ⟨hposition, hname, _⟩
    exact ⟨hposition, hname⟩
  · rintro ⟨hposition, hname⟩
    refine ⟨hposition, hname, ?_⟩
    intro earlier hearlier hsame
    have hequal : names[earlier] = names[position] := hsame.trans hname.symm
    exact hearlier.ne (hnodup.getElem_inj_iff.mp hequal)

/-- The reverse map of a list of distinct names finds the places of the names. -/
theorem getElem?_ofList_zipIdx (hnodup : names.Nodup) (name : String) :
    (Std.ExtTreeMap.ofList
      (names.zipIdx.map fun (name, index) => (name, number index)))[name]? =
        (names.idxOf? name).map number := by
  have hkeys : (names.zipIdx.map fun (name, index) => (name, number index)).map Prod.fst =
      names := by
    rw [List.map_map]
    exact List.zipIdx_map_fst 0 names
  cases hplace : names.idxOf? name with
  | none =>
      have hnew : name ∉ names := List.idxOf?_eq_none_iff.mp hplace
      apply Std.ExtTreeMap.getElem?_ofList_of_contains_eq_false
      rw [hkeys]
      simpa using hnew
  | some index =>
      apply Std.ExtTreeMap.getElem?_ofList_of_mem Std.ReflCmp.compare_self
      · have hdistinct := hnodup
        rw [← hkeys, List.nodup_iff_pairwise_ne, List.pairwise_map] at hdistinct
        exact hdistinct.imp fun hne hcompare =>
          hne (Std.LawfulEqOrd.eq_of_compare hcompare)
      · rw [List.mem_map]
        refine ⟨(name, index), ?_, rfl⟩
        exact List.mk_mem_zipIdx_iff_getElem?.mpr
          ((idxOf?_eq_some_iff_getElem? hnodup).mp hplace)

/-- If numbers and keys correspond, so do naming by position and the reverse map. -/
theorem numbersByOccurrence_ofList (hnodup : names.Nodup) (hlt : names.length < UInt32.size)
    (hindex : ∀ {position}, position < UInt32.size → index (number position) = position)
    (hnumber : ∀ key, number (index key) = key) {occurrences : List String}
    {Counts : String → Prop}
    (hmem : ∀ name, name ∈ names ↔ name ∈ occurrences ∧ Counts name)
    (hordered : names.Pairwise fun earlier later =>
      occurrences.idxOf earlier < occurrences.idxOf later) :
    NumbersByOccurrence index names.length (fun key => names[index key]?)
      (fun name => (Std.ExtTreeMap.ofList
        (names.zipIdx.map fun (name, index) => (name, number index)))[name]?)
      occurrences Counts where
  exists_key position hposition := ⟨number position, hindex (hposition.trans hlt)⟩
  isSome_nameOf? key := by simp
  lookup?_eq_some_iff name key := by
    rw [getElem?_ofList_zipIdx hnodup, Option.map_eq_some_iff]
    constructor
    · rintro ⟨position, hplace, rfl⟩
      rw [idxOf?_eq_some_iff_getElem? hnodup] at hplace
      have hposition := (List.getElem?_eq_some_iff.mp hplace).1
      rw [hindex (hposition.trans hlt)]
      exact hplace
    · intro hname
      exact ⟨index key, (idxOf?_eq_some_iff_getElem? hnodup).mpr hname, hnumber key⟩
  isSome_lookup? name := by
    rw [getElem?_ofList_zipIdx hnodup, Option.isSome_map, ← hmem, Option.isSome_iff_ne_none,
      ne_eq, List.idxOf?_eq_none_iff, not_not]
  index_lt_iff left right leftName rightName hleftName hrightName := by
    obtain ⟨hleft, rfl⟩ := List.getElem?_eq_some_iff.mp hleftName
    obtain ⟨hright, rfl⟩ := List.getElem?_eq_some_iff.mp hrightName
    have hmono := List.pairwise_iff_getElem.mp hordered
    constructor
    · exact hmono _ _ hleft hright
    · intro hoccurs
      rcases Nat.lt_trichotomy (index left) (index right) with hlt | heq | hgt
      · exact hlt
      · simp only [heq, Nat.lt_irrefl] at hoccurs
      · exact absurd hoccurs (Nat.lt_asymm (hmono _ _ hright hleft hgt))

end ReverseMap

namespace Draft

variable {draft : Draft} {start name : String}

theorem mem_nonterminalNames_iff :
    name ∈ draft.nonterminalNames ↔ name ∈ draft.alternatives.map (·.lhs) :=
  mem_distinctNames

theorem mem_terminalNames_iff :
    name ∈ draft.terminalNames ↔
      name ∈ draft.alternatives.flatMap (·.rhs) ∧ name ∉ draft.alternatives.map (·.lhs) := by
  rw [terminalNames, mem_distinctNames, List.mem_filter, decide_eq_true_eq,
    mem_nonterminalNames_iff]

theorem nodup_nonterminalNames (draft : Draft) : draft.nonterminalNames.Nodup :=
  nodup_distinctNames _

theorem nodup_terminalNames (draft : Draft) : draft.terminalNames.Nodup :=
  nodup_distinctNames _

/-- The names of terminals are in the order in which right-hand sides bring them up. -/
theorem pairwise_terminalNames (draft : Draft) :
    draft.terminalNames.Pairwise fun earlier later =>
      (draft.alternatives.flatMap (·.rhs)).idxOf earlier <
        (draft.alternatives.flatMap (·.rhs)).idxOf later := by
  rw [terminalNames, distinctNames_filter]
  exact (pairwise_distinctNames _).filter _

theorem mem_namesIn_of_mem_nonterminalNames (hname : name ∈ draft.nonterminalNames) :
    name ∈ Alternative.namesIn draft.alternatives := by
  obtain ⟨alternative, hmem, rfl⟩ := List.mem_map.mp (mem_nonterminalNames_iff.mp hname)
  exact Alternative.lhs_mem_namesIn hmem

theorem mem_namesIn_of_mem_terminalNames (hname : name ∈ draft.terminalNames) :
    name ∈ Alternative.namesIn draft.alternatives := by
  obtain ⟨alternative, hmem, hrhs⟩ := List.mem_flatMap.mp (mem_terminalNames_iff.mp hname).1
  exact Alternative.rhs_mem_namesIn hmem hrhs

theorem length_nonterminalNames_le (draft : Draft) :
    draft.nonterminalNames.length ≤ (Alternative.namesIn draft.alternatives).card := by
  rw [← List.toFinset_card_of_nodup draft.nodup_nonterminalNames]
  exact Finset.card_le_card fun name hname =>
    mem_namesIn_of_mem_nonterminalNames (List.mem_toFinset.mp hname)

theorem length_terminalNames_le (draft : Draft) :
    draft.terminalNames.length ≤ (Alternative.namesIn draft.alternatives).card := by
  rw [← List.toFinset_card_of_nodup draft.nodup_terminalNames]
  exact Finset.card_le_card fun name hname =>
    mem_namesIn_of_mem_terminalNames (List.mem_toFinset.mp hname)

/-- Few alternatives and few names make a grammar in which no number wraps. -/
theorem finished_of_finish {grammar : Grammar} (hfinish : draft.finish start = .ok grammar)
    (hproductions : draft.alternatives.length < 2 ^ 32)
    (hnames : (Alternative.namesIn draft.alternatives).card < 2 ^ 32) : grammar.Finished := by
  obtain ⟨_, rfl⟩ := finish_eq_ok hfinish
  exact {
    finish_eq := ⟨draft, start, hfinish⟩
    productions_lt := List.length_mapIdx.trans_lt hproductions
    nonterminals_lt := draft.length_nonterminalNames_le.trans_lt hnames
    terminals_lt := draft.length_terminalNames_le.trans_lt hnames }

theorem nameOf?_nonterminal (hlt : draft.nonterminalNames.length < 2 ^ 32)
    (hname : name ∈ draft.nonterminalNames) :
    (draft.resolve start).nameOf?
      (.nonterminal (.ofIndex (draft.nonterminalNames.idxOf name))) = some name := by
  change draft.nonterminalNames[(NonTerminal.ofIndex _).index]? = some name
  rw [index_nonterminal hlt hname, List.getElem?_idxOf hname]

/-- The symbol that a name stands for has that name. -/
theorem nameOf?_symbolOf (hnonterminals : draft.nonterminalNames.length < 2 ^ 32)
    (hterminals : draft.terminalNames.length < 2 ^ 32)
    (hname : name ∈ draft.alternatives.flatMap (·.rhs)) :
    (draft.resolve start).nameOf?
      (symbolOf draft.nonterminalNames draft.terminalNames name) = some name := by
  unfold symbolOf
  split
  · rename_i hmem
    exact nameOf?_nonterminal hnonterminals hmem
  · rename_i hother
    rw [mem_nonterminalNames_iff] at hother
    have hterminal : name ∈ draft.terminalNames := mem_terminalNames_iff.mpr ⟨hname, hother⟩
    have hplace := List.idxOf_lt_length_of_mem hterminal
    change draft.terminalNames[(Terminal.ofIndex _).index]? = some name
    rw [Terminal.index_ofIndex (hplace.trans hterminals), List.getElem?_idxOf hterminal]

theorem mapM_nameOf? (hnonterminals : draft.nonterminalNames.length < 2 ^ 32)
    (hterminals : draft.terminalNames.length < 2 ^ 32) {side : List String}
    (hside : ∀ name ∈ side, name ∈ draft.alternatives.flatMap (·.rhs)) :
    (side.map (symbolOf draft.nonterminalNames draft.terminalNames)).mapM
      (draft.resolve start).nameOf? = some side :=
  mapM_map_eq_some fun name hname =>
    nameOf?_symbolOf hnonterminals hterminals (hside name hname)

theorem rhs_production_eq_epsilon_iff (nonterminals terminals : List String) (position : Nat)
    (alternative : Alternative) :
    (production nonterminals terminals position alternative).rhs = [.epsilon] ↔
      alternative.rhs = [] := by
  rw [rhs_production]
  cases hside : alternative.rhs with
  | nil => simp
  | cons name rest => simp [symbolOf_ne_epsilon]

/-- The grammar of a draft resolves the draft's names. -/
theorem resolves (hproductions : draft.alternatives.length < 2 ^ 32)
    (hnames : (Alternative.namesIn draft.alternatives).card < 2 ^ 32)
    (hstart : start ∈ draft.nonterminalNames) :
    (draft.resolve start).Resolves draft.alternatives start := by
  have hnonterminals := draft.length_nonterminalNames_le.trans_lt hnames
  have hterminals := draft.length_terminalNames_le.trans_lt hnames
  have hlefts : NumbersByOccurrence NonTerminal.index draft.nonterminalNames.length
      (fun n => (draft.resolve start).nameOf? (.nonterminal n))
      (draft.resolve start).nonterminal? (draft.alternatives.map (·.lhs)) (fun _ => True) :=
    numbersByOccurrence_ofList draft.nodup_nonterminalNames hnonterminals
      NonTerminal.index_ofIndex NonTerminal.ofIndex_index
      (fun name => by rw [mem_nonterminalNames_iff, and_true]) (pairwise_distinctNames _)
  have hrights : NumbersByOccurrence Terminal.index draft.terminalNames.length
      (fun t => (draft.resolve start).nameOf? (.terminal t))
      (draft.resolve start).terminal? (draft.alternatives.flatMap (·.rhs))
      (· ∉ draft.alternatives.map (·.lhs)) :=
    numbersByOccurrence_ofList draft.nodup_terminalNames hterminals
      Terminal.index_ofIndex Terminal.ofIndex_index
      (fun name => mem_terminalNames_iff) draft.pairwise_terminalNames
  constructor
  case length_productions => exact List.length_mapIdx
  case productions =>
    intro position alternative halternative
    obtain ⟨hposition, _⟩ := List.getElem?_eq_some_iff.mp halternative
    have hmem := List.mem_of_getElem? halternative
    refine ⟨production draft.nonterminalNames draft.terminalNames position alternative,
      ?_, ?_, ?_, ?_, rhs_production_eq_epsilon_iff _ _ _ _⟩
    · change (draft.alternatives.mapIdx _)[position]? = _
      rw [List.getElem?_mapIdx, halternative, Option.map_some]
    · exact ProductionId.index_ofIndex (hposition.trans hproductions)
    · exact nameOf?_nonterminal hnonterminals (lhs_mem_nonterminalNames hmem)
    · rw [symbols_production]
      apply mapM_nameOf? hnonterminals hterminals
      exact fun name hname => List.mem_flatMap.mpr ⟨alternative, hmem, hname⟩
  case nonterminals => exact hlefts
  case terminals => exact hrights
  case apart =>
    intro name
    by_cases hleft : name ∈ draft.alternatives.map (·.lhs)
    · exact .inr (by simpa [hleft] using hrights.isSome_lookup? name)
    · exact .inl (by simpa [hleft] using hlefts.isSome_lookup? name)
  case nameOf?_start => exact nameOf?_nonterminal hnonterminals hstart

end Draft

namespace Builder

/-- What calls on an empty builder are finished to resolves the names of the alternatives
that they add, whatever the start symbol. -/
theorem finish_resolves {calls : List BuilderCall} (hcalls : BuilderCall.FromEmpty calls)
    (hproductions : (BuilderCall.added none calls).length < 2 ^ 32)
    (hnames : (Alternative.namesIn (BuilderCall.added none calls)).card < 2 ^ 32) :
    ∃ builder, empty.calls? calls = some builder ∧
      ∀ start grammar, builder.finish start = .ok grammar →
        grammar.Resolves (BuilderCall.added none calls) start := by
  obtain ⟨builder, hbuilder, hadded⟩ := exists_calls?_empty hcalls
  refine ⟨builder, hbuilder, ?_⟩
  intro start grammar hfinish
  rw [finish_eq_finish_draft] at hfinish
  obtain ⟨hstart, rfl⟩ := Draft.finish_eq_ok hfinish
  rw [← hadded] at hproductions hnames ⊢
  exact Draft.resolves hproductions hnames hstart

/-- A rule that comes to nothing, a name that is used before its own rule, and a rule that is
opened twice. -/
def lateRule : List BuilderCall :=
  [.rule "Z", .rule "S", .alternative ["b", "A", "a"], .epsilon, .rule "A",
    .alternative ["c", "b"], .rule "S", .alternative ["d"]]

/-- The unused rule has no number, and the late rule makes its name a nonterminal. -/
theorem finish_resolves_lateRule :
    BuilderCall.FromEmpty lateRule ∧
    ∃ builder grammar, empty.calls? lateRule = some builder ∧
      builder.finish "S" = .ok grammar ∧
      grammar.Resolves (BuilderCall.added none lateRule) "S" ∧
      grammar.names.nonterminals = ["S", "A"] ∧
      grammar.names.terminals = ["b", "a", "c", "d"] := by
  obtain ⟨builder, hbuilder, hresolves⟩ := @finish_resolves lateRule trivial
    (by decide +kernel) (by decide +kernel)
  have hfinish : (empty.calls? lateRule).map (·.finish "S") =
      some (.ok (Draft.resolve ⟨BuilderCall.added none lateRule, none⟩ "S")) := by
    decide +kernel
  rw [hbuilder, Option.map_some] at hfinish
  have hgrammar := Option.some.inj hfinish
  exact ⟨trivial, builder, _, hbuilder, hgrammar, hresolves "S" _ hgrammar,
    by decide +kernel, by decide +kernel⟩

end Builder

end Predictive
