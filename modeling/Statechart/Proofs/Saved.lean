import Mathlib
import Statechart.Proofs.Documents
import Statechart.Proofs.Spellings
import Statechart.Snapshot

/-! Snapshots as documents: a snapshot is read back from its text exactly if all its numbers are
finite. -/

namespace Statechart

open Codec (Spells)

def Condition.isFinite (c : Condition) : Bool := c.threshold.isFinite

def TransitionSettings.isFinite (s : TransitionSettings) : Bool :=
  s.duration.isFinite && s.offset.isFinite && s.exitTime.isFinite

def Edge.isFinite (e : Edge) : Bool :=
  e.settings.all (·.isFinite) && e.conditions.all (·.isFinite)

def Position.isFinite (p : Position) : Bool := p.x.isFinite && p.y.isFinite

def Grid.isFinite (g : Grid) : Bool := g.x.isFinite && g.y.isFinite

def StateSettings.isFinite (s : StateSettings) : Bool :=
  s.speed.isFinite && s.cycleOffset.isFinite

def Anchors.isFinite (a : Anchors) : Bool :=
  a.entry.isFinite && a.exit.isFinite && a.anyState.isFinite && a.parentMachine.isFinite

def Machine.isFinite (m : Machine) : Bool := m.anchors.isFinite

def NodeKind.isFinite : NodeKind → Bool
  | state s => s.isFinite
  | machine m => m.isFinite

def Node.isFinite (n : Node) : Bool := n.position.isFinite && n.kind.isFinite

def Defaults.isFinite (d : Defaults) : Bool := d.grid.isFinite && d.transition.isFinite

/-- Whether all numbers of single precision that a snapshot holds are finite. -/
def Snapshot.isFinite (s : Snapshot) : Bool :=
  s.defaults.isFinite && s.nodes.all (·.isFinite) && s.edges.all (·.isFinite)

theorem NodeHandle.spells : codec.Spells fun _ => true :=
  Spells.word.along (fun _ => rfl) fun _ => rfl

theorem StateHandle.spells : codec.Spells fun _ => true :=
  NodeHandle.spells.along (fun _ => rfl) fun _ => rfl

theorem MachineHandle.spells : codec.Spells fun _ => true :=
  NodeHandle.spells.along (fun _ => rfl) fun _ => rfl

theorem Endpoint.spells : codec.Spells fun _ => true := by
  refine .variants ?_ (fun e => ?_) (by decide)
  · simp only [List.forall_mem_cons]
    refine ⟨.holding StateHandle.spells "State" (fun e s h => ?_) fun _ => rfl,
      .holding MachineHandle.spells "SubMachine" (fun e m h => ?_) fun _ => rfl,
      .bare "Absent" rfl, nofun⟩
    · cases e <;> simp_all [state?]
    · cases e <;> simp_all [machine?]
  · cases e <;> simp [Case.holding, Case.bare, state?, machine?]

theorem Route.spells_targetFields {α : Type} {c : Codec α} (h : c.Spells fun _ => true)
    {name : String} (hname : name ≠ "to") : (targetFields name c).Spells fun _ => true := by
  refine .record (.field h (.field Endpoint.spells .done _) _) ?_ false
  simpa [Fields.field, Fields.cons, Fields.done] using hname

theorem Route.spells : codec.Spells fun _ => true := by
  refine .variants ?_ (fun r => ?_) (by decide)
  · simp only [List.forall_mem_cons]
    refine ⟨.holding (spells_targetFields StateHandle.spells (by decide)) "StateTo"
        (fun r b h => ?_) fun _ => rfl,
      .holding (.record (.field StateHandle.spells .done _) (by decide) false) "StateExit"
        (fun r b h => ?_) fun _ => rfl,
      .holding (spells_targetFields MachineHandle.spells (by decide)) "AnyState"
        (fun r b h => ?_) fun _ => rfl,
      .holding (spells_targetFields MachineHandle.spells (by decide)) "Entry"
        (fun r b h => ?_) fun _ => rfl,
      .holding (.record (.field MachineHandle.spells (.field MachineHandle.spells
        (.field Endpoint.spells .done _) _) _) (by decide) false) "MachineTo"
        (fun r b h => ?_) fun _ => rfl,
      .holding (.record (.field MachineHandle.spells (.field MachineHandle.spells .done _) _)
        (by decide) false) "MachineExit" (fun r b h => ?_) fun _ => rfl, nofun⟩
    all_goals
      cases r <;> simp at h
      subst h
      rfl
  · cases r <;> simp [Case.holding]

theorem Comparison.spells : codec.Spells fun _ => true :=
  .names (fun c => by cases c <;> simp) (by decide)

theorem Condition.spells : codec.Spells isFinite :=
  (Spells.record (.field .text (.field Comparison.spells (.field .single .done _) _) _)
    (by decide) false).along (fun _ => rfl) fun _ => by simp [isFinite]

theorem ParameterKind.spells : codec.Spells fun _ => true :=
  .names (fun k => by cases k <;> simp) (by decide)

theorem Parameter.spells : codec.Spells fun _ => true :=
  (Spells.record (.field .text (.field ParameterKind.spells .done _) _) (by decide)
    false).along (fun _ => rfl) fun _ => rfl

theorem Interruption.spells : codec.Spells fun _ => true :=
  .names (fun i => by cases i <;> simp) (by decide)

theorem TransitionSettings.spells : codec.Spells isFinite :=
  (Spells.record (.field .single (.field .single (.field .bool (.field .bool (.field .single
    (.field Interruption.spells (.field .bool (.field .bool .done _) _) _) _) _) _) _) _)
    (by decide) false).along (fun _ => rfl) fun _ => by simp [isFinite, Bool.and_assoc]

theorem Position.spells : codec.Spells isFinite :=
  (Spells.record (.field .single (.field .single .done _) _) (by decide)
    false).along (fun _ => rfl) fun _ => by simp [isFinite]

theorem Cell.spells : codec.Spells fun _ => true :=
  (Spells.record (.field .integer (.field .integer .done _) _) (by decide)
    false).along (fun _ => rfl) fun _ => rfl

theorem Grid.spells : codec.Spells isFinite :=
  (Spells.record (.field .single (.field .single .done _) _) (by decide)
    false).along (fun _ => rfl) fun _ => by simp [isFinite]

theorem StateSettings.spells : codec.Spells isFinite :=
  -- only what is never written as a null may be left out
  (Spells.record (.field (.option .text nofun) (.field .bool (.field .single
    (.field (.option .text nofun) (.field (.option .text nofun) (.field .single
      (.field (.option .text nofun) .done _) _) _) _) _) _) _) (by decide)
    false).along (fun _ => rfl) fun _ => by simp [isFinite]

theorem Anchors.spells : codec.Spells isFinite :=
  (Spells.record (.field Position.spells (.field Position.spells (.field Position.spells
    (.field Position.spells .done _) _) _) _) (by decide)
    false).along (fun _ => rfl) fun _ => by simp [isFinite, Bool.and_assoc]

theorem Machine.spells : codec.Spells isFinite :=
  (Spells.record (.field (.list NodeHandle.spells) (.field (.option StateHandle.spells nofun)
    (.field Anchors.spells .done _) _) _) (by decide)
    false).along (fun _ => rfl) fun _ => by simp [isFinite]

theorem NodeKind.spells : codec.Spells isFinite := by
  refine .variants ?_ (fun k => ?_) (by decide)
  · simp only [List.forall_mem_cons]
    refine ⟨.holding StateSettings.spells "State" (fun k s h => ?_) fun _ => rfl,
      .holding Machine.spells "SubMachine" (fun k m h => ?_) fun _ => rfl, nofun⟩
    · cases k <;> simp_all [settings?]
    · cases k <;> simp_all [machine?]
  · cases k <;> simp [Case.holding, settings?, machine?]

theorem Node.spells : codec.Spells isFinite :=
  (Spells.record (.field .text (.field (.option MachineHandle.spells nofun)
    (.field Position.spells (.field NodeKind.spells .done _) _) _) _) (by decide)
    false).along (fun _ => rfl) fun _ => by simp [isFinite]

theorem Edge.spells : codec.Spells isFinite :=
  (Spells.record (.field MachineHandle.spells (.field Route.spells
    (.field (.option TransitionSettings.spells nofun) (.field (.list Condition.spells)
      .done _) _) _) _) (by decide)
    false).along (fun _ => rfl) fun _ => by simp [isFinite]

theorem Layer.spells : codec.Spells fun _ => true :=
  (Spells.record (.field .text (.field MachineHandle.spells .done _) _) (by decide)
    false).along (fun _ => rfl) fun _ => rfl

theorem Defaults.isFinite_standard : standard.isFinite = true := by
  decide +kernel

theorem Defaults.spells : codec.Spells isFinite := by
  obtain ⟨hgrid, htransition⟩ := (Bool.and_eq_true _ _).mp isFinite_standard
  exact (Spells.record (.fieldOr Grid.spells (.fieldOr .bool (.fieldOr TransitionSettings.spells
    (.fieldOr Cell.spells (.fieldOr Cell.spells (.fieldOr Cell.spells (.fieldOr Cell.spells
      .done _ rfl) _ rfl) _ rfl) _ rfl) _ htransition) _ rfl) _ hgrid) (by decide)
    true).along (fun _ => rfl) fun _ => by simp [isFinite]

/-- In documents an identity is a text, although its bytes are not. -/
theorem Uuid.spells : codec.Spells fun _ => true :=
  have h : (Codec.spelled render parse?).Spells fun _ => true := .spelled parse?_render
  ⟨h.wellFormed, h.ofJson_toJson, fun _ _ _ _ => rfl, fun _ _ => rfl⟩

theorem Timestamp.spells : codec.Spells fun _ => true := .spelled parse?_render

namespace Snapshot

theorem spells : codec.Spells isFinite :=
  (Spells.record (.field .word (.field Uuid.spells (.field Timestamp.spells (.field .text
    (.field Defaults.spells (.field (.list Parameter.spells) (.field (.list Layer.spells)
      (.field (.list Node.spells) (.field (.list Edge.spells) .done _) _) _) _) _) _) _) _) _)
    (by decide) false).along (fun _ => rfl) fun _ => by
      have hall {α : Type} (as : List α) : (as.all fun _ => true) = true :=
        List.all_eq_true.mpr fun _ _ => rfl
      simp [isFinite, Bool.and_assoc, hall]

theorem ofText?_toText_eq (s : Snapshot) :
    ofText? s.toText = if s.isFinite then some s else none := by
  have hparse : Json.parse? (codec.toJson s).indented = some (codec.toJson s) :=
    Json.parse?_indented (spells.wellFormed s)
  rw [ofText?, toText, Codec.decode?, hparse, Option.bind_some, spells.ofJson_toJson]

theorem ofText?_toText (s : Snapshot) (h : s.isFinite = true) : ofText? s.toText = some s := by
  rw [ofText?_toText_eq, if_pos h]

/-- A machine with a state and edges of every kind, some with a minus zero or a tiny number. -/
def varied : Snapshot where
  version := 1
  id := ⟨List.replicate 16 0x0a, rfl⟩
  exportedAt := ⟨⟨2024, 2, 29, 23, 59, 59, 120000000⟩, by decide⟩
  name := "\u0007Größe \"x\"\n\\"
  defaults := { Defaults.standard with grid := ⟨.zero true, ⟨1⟩⟩ }
  parameters := [⟨"Speed", .float⟩, ⟨"", .trigger⟩]
  layers := [⟨"Base", ⟨.ofIndex 0⟩⟩]
  nodes := [
    ⟨"Base", none, ⟨.one, .zero true⟩, .machine ⟨[.ofIndex 1], none, Defaults.standard.newAnchors⟩⟩,
    ⟨"Idle", some ⟨.ofIndex 0⟩, ⟨⟨0x7f7fffff⟩, .one⟩, .state Defaults.standard.newState⟩]
  edges := [
    ⟨⟨.ofIndex 0⟩, .stateTo ⟨.ofIndex 1⟩ (.state ⟨.ofIndex 1⟩), some .initial,
      [⟨"Speed", .less, .zero true⟩]⟩,
    ⟨⟨.ofIndex 0⟩, .stateExit ⟨.ofIndex 1⟩, some .initial, []⟩,
    ⟨⟨.ofIndex 0⟩, .anyState ⟨.ofIndex 0⟩ .absent, none, []⟩,
    ⟨⟨.ofIndex 0⟩, .entry ⟨.ofIndex 0⟩ (.machine ⟨.ofIndex 0⟩), none, []⟩]

theorem ofText?_toText_varied : varied.isFinite = true ∧ ofText? varied.toText = some varied :=
  have h : varied.isFinite = true := by decide +kernel
  ⟨h, ofText?_toText varied h⟩

/-- What was read from a text is read again, once it is written, exactly if all its numbers are
finite; they are if those of the text are in range. -/
theorem ofText?_toText_of_ofText? {t : String} {s : Snapshot} (h : ofText? t = some s) :
    (ofText? s.toText = if s.isFinite then some s else none) ∧
      (Json.textInRange t = true → s.isFinite = true) := by
  refine ⟨ofText?_toText_eq s, fun hrange => ?_⟩
  obtain ⟨j, hparse, hread⟩ := Option.bind_eq_some_iff.mp h
  rw [Json.textInRange, hparse, Option.all_some] at hrange
  exact spells.finite_ofJson j s hrange hread

/-- A text with other spellings than those that are written, and defaults that are incomplete. -/
def loose : String :=
  "[1, \"6BA7B8109DAD41D180B400C04FD430C8\", \"2024-03-01T12:00:00.5+01:00\", \"\\u0041\",
    \x7b\"more\":0,\"grid\":[25e1,-0.1e-400]\x7d,[],[],[],[]]"

theorem ofText?_toText_of_ofText?_loose :
    ∃ s, ofText? loose = some s ∧ ofText? s.toText = some s := by
  have hread : (ofText? loose).isSome = true := by decide +kernel
  have hrange : Json.textInRange loose = true := by decide +kernel
  obtain ⟨s, hs⟩ := Option.isSome_iff_exists.mp hread
  obtain ⟨heq, hfinite⟩ := ofText?_toText_of_ofText? hs
  rw [if_pos (hfinite hrange)] at heq
  exact ⟨s, hs, heq⟩

/-- Its grid is wider than single precision reaches. -/
def overflowing : String :=
  "[1, \"6ba7b8109dad41d180b400c04fd430c8\", \"2024-03-01T12:00:00Z\", \"\", [[1e39,1]],[],[],[],[]]"

theorem not_reread_overflowing : ∃ s, ofText? overflowing = some s ∧ ofText? s.toText = none := by
  have hread : (ofText? overflowing).map (·.isFinite) = some false := by decide +kernel
  obtain ⟨s, hs, hinfinite⟩ := Option.map_eq_some_iff.mp hread
  refine ⟨s, hs, ?_⟩
  rw [ofText?_toText_eq, hinfinite]
  rfl

end Snapshot

end Statechart
