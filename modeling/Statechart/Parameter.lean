import Statechart.Condition

/-! Declared parameters and the kinds of comparison that fit them. -/

namespace Statechart

inductive ParameterKind where
  | bool
  | trigger
  | int
  | float
  deriving DecidableEq

namespace ParameterKind

def label : ParameterKind → String
  | bool => "bool"
  | trigger => "trigger"
  | int => "int"
  | float => "float"

def accepts : ParameterKind → Comparison → Bool
  | bool, .isTrue | bool, .isFalse => true
  | trigger, .isTrue => true
  | int, .greater | int, .less | int, .equals | int, .differs => true
  | float, .greater | float, .less => true
  | _, _ => false

def codec : Codec ParameterKind :=
  .names [("Bool", bool), ("Trigger", trigger), ("Int", int), ("Float", float)]

end ParameterKind

structure Parameter where
  name : String
  kind : ParameterKind
  deriving BEq, DecidableEq

def Parameter.codec : Codec Parameter :=
  (Codec.record (.field "name" .text (.field "kind" ParameterKind.codec .done)) false).along
    (fun r => ⟨r.1, r.2.1⟩) fun p => (p.name, p.kind, ())

end Statechart
