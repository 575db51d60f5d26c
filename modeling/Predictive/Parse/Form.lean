import Predictive.Parse.Outcome
import Predictive.Symbol.Form

/-!
Constructor forms of verdicts.
-/

namespace Predictive

def RejectReason.form : RejectReason → String
  | mismatch expected found =>
      "Mismatch \x7b expected: " ++ expected.form ++ ", found: " ++ found.form ++ " \x7d"
  | noRule nonterminal lookahead =>
      "NoRule \x7b nonterminal: " ++ nonterminal.form ++ ", lookahead: " ++ lookahead.form
        ++ " \x7d"
  | unconsumedInput => "UnconsumedInput"
  | inputExhausted => "InputExhausted"

def Verdict.form : Verdict → String
  | accepted => "Accepted"
  | rejected reason step =>
      "Rejected(Rejection \x7b reason: " ++ reason.form ++ ", step: " ++ toString step
        ++ " \x7d)"
  | stepBoundExceeded limit step =>
      "StepBoundExceeded \x7b limit: " ++ toString limit ++ ", step: " ++ toString step
        ++ " \x7d"

end Predictive
