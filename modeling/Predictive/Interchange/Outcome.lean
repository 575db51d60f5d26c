import Predictive.Interchange.Grammar
import Predictive.Parse.Outcome

/-!
Interchange forms of parse outcomes.  A stack is listed from its bottom.
-/

namespace Predictive.Interchange

instance : Encode Action where
  encode
    | .consume => .text "Match"
    | .expand production => .choice "Apply" (encode production)
    | .mismatch => .text "Mismatch"
    | .noRule => .text "NoRule"
    | .accept => .text "Accept"
    | .reject => .text "Reject"
    | .stepBoundExceeded => .text "StepBoundExceeded"

instance : Decode Action where
  decode?
    | .text "Match" => some .consume
    | .text "Mismatch" => some .mismatch
    | .text "NoRule" => some .noRule
    | .text "Accept" => some .accept
    | .text "Reject" => some .reject
    | .text "StepBoundExceeded" => some .stepBoundExceeded
    | value =>
        match value.choice? with
        | some ("Apply", data) => (decode? data).map .expand
        | _ => none

instance : Encode Step where
  encode step := .record [
    ("stack", encode step.stack.reverse),
    ("position", encode step.position),
    ("action", encode step.action)]

instance : Decode Step where
  decode? value := do
    let stack : List Symbol ← value.get? "stack"
    let position ← value.get? "position"
    let action ← value.get? "action"
    return { stack := stack.reverse, position, action }

instance : Encode Trace where
  encode trace := .record [
    ("input", encode trace.input),
    ("steps", encode trace.steps)]

instance : Decode Trace where
  decode? value := do
    let input ← value.get? "input"
    let steps ← value.get? "steps"
    return { input, steps }

instance : Encode RejectReason where
  encode
    | .mismatch expected found => .choice "Mismatch" (.record [
        ("expected", encode expected), ("found", encode found)])
    | .noRule nonterminal lookahead => .choice "NoRule" (.record [
        ("nonterminal", encode nonterminal), ("lookahead", encode lookahead)])
    | .unconsumedInput => .text "UnconsumedInput"
    | .inputExhausted => .text "InputExhausted"

instance : Decode RejectReason where
  decode?
    | .text "UnconsumedInput" => some .unconsumedInput
    | .text "InputExhausted" => some .inputExhausted
    | value =>
        match value.choice? with
        | some ("Mismatch", data) => do
            let expected ← data.get? "expected"
            let found ← data.get? "found"
            return .mismatch expected found
        | some ("NoRule", data) => do
            let nonterminal ← data.get? "nonterminal"
            let lookahead ← data.get? "lookahead"
            return .noRule nonterminal lookahead
        | _ => none

instance : Encode Verdict where
  encode
    | .accepted => .text "Accepted"
    | .rejected reason step => .choice "Rejected" (.record [
        ("reason", encode reason), ("step", encode step)])
    | .stepBoundExceeded limit step => .choice "StepBoundExceeded" (.record [
        ("limit", encode limit), ("step", encode step)])

instance : Decode Verdict where
  decode?
    | .text "Accepted" => some .accepted
    | value =>
        match value.choice? with
        | some ("Rejected", data) => do
            let reason ← data.get? "reason"
            let step ← data.get? "step"
            return .rejected reason step
        | some ("StepBoundExceeded", data) => do
            let limit ← data.get? "limit"
            let step ← data.get? "step"
            return .stepBoundExceeded limit step
        | _ => none

instance : Encode Outcome where
  encode outcome := .record [
    ("trace", encode outcome.trace),
    ("verdict", encode outcome.verdict)]

instance : Decode Outcome where
  decode? value := do
    let trace ← value.get? "trace"
    let verdict ← value.get? "verdict"
    return { trace, verdict }

end Predictive.Interchange
