import Predictive.Grammar
import Predictive.Interchange.Value

/-!
Interchange forms of symbols, productions and grammars.  A numbered symbol or
production is its number.
-/

namespace Predictive.Interchange

instance : Encode NonTerminal := ⟨fun nonterminal => encode nonterminal.index⟩

instance : Decode NonTerminal :=
  ⟨fun value => (value.natural? UInt32.size).map NonTerminal.ofIndex⟩

instance : Encode Terminal := ⟨fun terminal => encode terminal.index⟩

instance : Decode Terminal :=
  ⟨fun value => (value.natural? UInt32.size).map Terminal.ofIndex⟩

instance : Encode ProductionId := ⟨fun production => encode production.index⟩

instance : Decode ProductionId :=
  ⟨fun value => (value.natural? UInt32.size).map ProductionId.ofIndex⟩

instance : Encode Symbol where
  encode
    | .terminal t => .choice "Terminal" (encode t)
    | .nonterminal n => .choice "NonTerminal" (encode n)
    | .epsilon => .text "Epsilon"
    | .endMarker => .text "EndMarker"

instance : Decode Symbol where
  decode?
    | .text "Epsilon" => some .epsilon
    | .text "EndMarker" => some .endMarker
    | value =>
        match value.choice? with
        | some ("Terminal", data) => (decode? data).map .terminal
        | some ("NonTerminal", data) => (decode? data).map .nonterminal
        | _ => none

instance : Encode Lookahead where
  encode
    | .terminal t => .choice "Terminal" (encode t)
    | .endMarker => .text "EndMarker"

instance : Decode Lookahead where
  decode?
    | .text "EndMarker" => some .endMarker
    | value =>
        match value.choice? with
        | some ("Terminal", data) => (decode? data).map .terminal
        | _ => none

instance : Encode Production where
  encode production := .record [
    ("id", encode production.id),
    ("lhs", encode production.lhs),
    ("rhs", encode production.rhs)]

instance : Decode Production where
  decode? value := do
    let id ← value.get? "id"
    let lhs ← value.get? "lhs"
    let rhs ← value.get? "rhs"
    return { id, lhs, rhs }

instance : Encode NameTable where
  encode table := .record [
    ("nonterminals", encode table.nonterminals),
    ("terminals", encode table.terminals),
    ("nonterminal_ids", encode table.nonterminalIds),
    ("terminal_ids", encode table.terminalIds)]

instance : Decode NameTable where
  decode? value := do
    let nonterminals ← value.get? "nonterminals"
    let terminals ← value.get? "terminals"
    let nonterminalIds ← value.get? "nonterminal_ids"
    let terminalIds ← value.get? "terminal_ids"
    return { nonterminals, terminals, nonterminalIds, terminalIds }

instance : Encode Grammar where
  encode grammar := .record [
    ("productions", encode grammar.productions),
    ("names", encode grammar.names),
    ("start", encode grammar.start)]

instance : Decode Grammar where
  decode? value := do
    let productions ← value.get? "productions"
    let names ← value.get? "names"
    let start ← value.get? "start"
    return { productions, names, start }

end Predictive.Interchange
