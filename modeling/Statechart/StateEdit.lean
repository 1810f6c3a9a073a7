import Statechart.Hierarchy
import Statechart.Reference

/-! Editing the settings of a state, and the objects attached to nodes. -/

namespace Statechart

/-- A change of the settings of a state, where `ρ` names parameters. -/
inductive StateEdit (ρ : Type) where
  | animation (motion : String)
  | writeDefaults (value : Bool)
  | speed (value : Single)
  | speedParameter (parameter : ρ)
  | motionTime (parameter : ρ)
  | cycleOffset (value : Single)
  | cycleOffsetParameter (parameter : ρ)
  deriving DecidableEq

namespace StateEdit

def mapM {ρ τ : Type} {m : Type → Type} [Monad m] (f : ρ → m τ) : StateEdit ρ → m (StateEdit τ)
  | animation motion => return animation motion
  | writeDefaults b => return writeDefaults b
  | speed x => return speed x
  | speedParameter p => return speedParameter (← f p)
  | motionTime p => return motionTime (← f p)
  | cycleOffset x => return cycleOffset x
  | cycleOffsetParameter p => return cycleOffsetParameter (← f p)

/-- A constant speed or offset takes the place of a parameter that drove it. -/
def apply (s : StateSettings) : StateEdit (Reference .float) → StateSettings
  | animation motion => { s with motion := some motion }
  | writeDefaults b => { s with writeDefaults := b }
  | speed x => { s with speedParameter := none, speed := x }
  | speedParameter p => { s with speedParameter := some p.name }
  | motionTime p => { s with timeParameter := some p.name }
  | cycleOffset x => { s with cycleOffsetParameter := none, cycleOffset := x }
  | cycleOffsetParameter p => { s with cycleOffsetParameter := some p.name }

def trail (s : StateSettings) : List (StateEdit (Reference .float)) → List StateSettings
  | [] => []
  | e :: es => apply s e :: trail (apply s e) es

end StateEdit

namespace Controller

def editState (c : Controller) (h : StateHandle) (edits : List (StateEdit (Reference .float))) :
    Except Fault Controller := do
  let s ← c.stateSettings h
  return c.modifyNode h.node fun n => { n with kind := .state (edits.foldl StateEdit.apply s) }

/-- Changes the object of a kind on a node, which is created when it is first asked for. -/
def attach (c : Controller) (h : NodeHandle) (kind : AttachmentKind)
    (change : kind.Value → kind.Value) : Except Fault Controller := do
  let _ ← c.node h
  return { c with attachments := c.attachments.amend h kind kind.initial change }

end Controller

end Statechart
