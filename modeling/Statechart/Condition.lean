import Statechart.Record
import Statechart.Variant

/-! Conditions on parameters, the guards of edges. -/

namespace Statechart

inductive Comparison where
  | isTrue
  | isFalse
  | greater
  | less
  | equals
  | differs
  deriving DecidableEq

namespace Comparison

def symbol : Comparison → String
  | isTrue => "is true"
  | isFalse => "is false"
  | greater => ">"
  | less => "<"
  | equals => "=="
  | differs => "!="

def codec : Codec Comparison :=
  .names
    [("If", isTrue), ("IfNot", isFalse), ("Greater", greater), ("Less", less), ("Equals", equals),
      ("NotEqual", differs)]

end Comparison

structure Condition where
  parameter : String
  comparison : Comparison
  threshold : Single
  deriving BEq, DecidableEq

namespace Condition

/-- The threshold is shown only where the comparison uses it. -/
def describe (c : Condition) : String :=
  let subject := c.parameter ++ " " ++ c.comparison.symbol
  match c.comparison with
  | .isTrue | .isFalse => subject
  | _ => subject ++ " " ++ String.ofList c.threshold.toPlain

def codec : Codec Condition :=
  (Codec.record
    (.field "parameter" .text (.field "mode" Comparison.codec (.field "threshold" .single .done)))
    false).along
    (fun r => ⟨r.1, r.2.1, r.2.2.1⟩) fun c => (c.parameter, c.comparison, c.threshold, ())

end Condition

end Statechart
