import Statechart.Record
import Statechart.Variant

/-! Settings of timed transitions and the steps that change them. -/

namespace Statechart

inductive Interruption where
  | none
  | source
  | destination
  | sourceThenDestination
  | destinationThenSource
  deriving DecidableEq

def Interruption.codec : Codec Interruption :=
  .names
    [("None", none), ("Source", source), ("Destination", destination),
      ("SourceThenDestination", sourceThenDestination),
      ("DestinationThenSource", destinationThenSource)]

/-- The duration is in seconds where it is fixed, and otherwise in lengths of the source state. -/
structure TransitionSettings where
  duration : Single
  offset : Single
  hasFixedDuration : Bool
  hasExitTime : Bool
  exitTime : Single
  interruption : Interruption
  orderedInterruption : Bool
  canTransitionToSelf : Bool
  deriving BEq, DecidableEq

namespace TransitionSettings

/-- A fixed duration of zero without an exit time. -/
def initial : TransitionSettings where
  duration := .zero false
  offset := .zero false
  hasFixedDuration := true
  hasExitTime := false
  exitTime := .zero false
  interruption := .none
  orderedInterruption := true
  canTransitionToSelf := false

def codec : Codec TransitionSettings :=
  (Codec.record
    (.field "duration" .single
      (.field "offset" .single
        (.field "has_fixed_duration" .bool
          (.field "has_exit_time" .bool
            (.field "exit_time" .single
              (.field "interruption_source" Interruption.codec
                (.field "ordered_interruption" .bool
                  (.field "can_transition_to_self" .bool .done))))))))
    false).along
    (fun (a, b, c, d, e, f, g, h, _) => ⟨a, b, c, d, e, f, g, h⟩)
    fun s =>
      (s.duration, s.offset, s.hasFixedDuration, s.hasExitTime, s.exitTime, s.interruption,
        s.orderedInterruption, s.canTransitionToSelf, ())

end TransitionSettings

inductive SettingsEdit where
  | durationSeconds (value : Single)
  | durationPercent (value : Single)
  | offset (value : Single)
  | interruption (value : Interruption)
  | orderedInterruption (value : Bool)
  | transitionToSelf (value : Bool)
  | exitTime (value : Single)
  deriving DecidableEq

/-- A duration also says how it is measured, and an exit time that there is one. -/
def SettingsEdit.apply (s : TransitionSettings) : SettingsEdit → TransitionSettings
  | durationSeconds x => { s with hasFixedDuration := true, duration := x }
  | durationPercent x => { s with hasFixedDuration := false, duration := x }
  | offset x => { s with offset := x }
  | interruption i => { s with interruption := i }
  | orderedInterruption b => { s with orderedInterruption := b }
  | transitionToSelf b => { s with canTransitionToSelf := b }
  | exitTime x => { s with hasExitTime := true, exitTime := x }

end Statechart
