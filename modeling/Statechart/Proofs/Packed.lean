import Mathlib
import Statechart.Proofs.Bytes
import Statechart.Proofs.Spellings
import Statechart.Snapshot

/-! Snapshots in bytes: every type that a snapshot holds packs its values, so that a snapshot is
read back from its bytes and from no less than all of them. -/

namespace Statechart

open Codec (Packs)

theorem NodeHandle.packs : codec.Packs := Packs.word.along fun _ => rfl

theorem StateHandle.packs : codec.Packs := NodeHandle.packs.along fun _ => rfl

theorem MachineHandle.packs : codec.Packs := NodeHandle.packs.along fun _ => rfl

theorem Endpoint.packs : codec.Packs := by
  refine .variants ?_ (fun e => ?_) (by decide)
  · simp only [List.forall_mem_cons]
    refine ⟨.holding StateHandle.packs "State" fun e s h => ?_,
      .holding MachineHandle.packs "SubMachine" fun e m h => ?_, .bare "Absent" absent, nofun⟩
    · cases e <;> simp_all [state?]
    · cases e <;> simp_all [machine?]
  · cases e <;> simp [Case.holding, Case.bare, state?, machine?]

theorem Route.packs_targetFields {α : Type} {c : Codec α} (h : c.Packs) (name : String) :
    (targetFields name c).Packs :=
  .record h (.cons Endpoint.packs .done "to" _) false

theorem Route.packs : codec.Packs := by
  refine .variants ?_ (fun r => ?_) (by decide)
  · simp only [List.forall_mem_cons]
    refine ⟨.holding (packs_targetFields StateHandle.packs "from") "StateTo" fun r b h => ?_,
      .holding (.record StateHandle.packs .done false) "StateExit" fun r b h => ?_,
      .holding (packs_targetFields MachineHandle.packs "machine") "AnyState" fun r b h => ?_,
      .holding (packs_targetFields MachineHandle.packs "machine") "Entry" fun r b h => ?_,
      .holding (.record MachineHandle.packs
        (.cons MachineHandle.packs (.cons Endpoint.packs .done "to" _) "from" _) false)
        "MachineTo" fun r b h => ?_,
      .holding (.record MachineHandle.packs (.cons MachineHandle.packs .done "from" _) false)
        "MachineExit" fun r b h => ?_, nofun⟩
    all_goals
      cases r <;> simp at h
      subst h
      rfl
  · cases r <;> simp [Case.holding]

theorem Comparison.packs : codec.Packs :=
  .names (fun c => by cases c <;> simp) (by decide)

theorem Condition.packs : codec.Packs :=
  (Packs.record .text (.cons Comparison.packs (.cons .single .done "threshold" _) "mode" _)
    false).along fun _ => rfl

theorem ParameterKind.packs : codec.Packs :=
  .names (fun k => by cases k <;> simp) (by decide)

theorem Parameter.packs : codec.Packs :=
  (Packs.record .text (.cons ParameterKind.packs .done "kind" _) false).along fun _ => rfl

theorem Interruption.packs : codec.Packs :=
  .names (fun i => by cases i <;> simp) (by decide)

theorem TransitionSettings.packs : codec.Packs :=
  (Packs.record .single (.cons .single (.cons .bool (.cons .bool (.cons .single
    (.cons Interruption.packs (.cons .bool (.cons .bool .done _ _) _ _) _ _) _ _) _ _) _ _) _ _)
    false).along fun _ => rfl

theorem Position.packs : codec.Packs :=
  (Packs.record .single (.cons .single .done _ _) false).along fun _ => rfl

theorem Cell.packs : codec.Packs :=
  (Packs.record .integer (.cons .integer .done _ _) false).along fun _ => rfl

theorem Grid.packs : codec.Packs :=
  (Packs.record .single (.cons .single .done _ _) false).along fun _ => rfl

theorem StateSettings.packs : codec.Packs :=
  (Packs.record (.option .text) (.cons .bool (.cons .single (.cons (.option .text)
    (.cons (.option .text) (.cons .single (.cons (.option .text) .done _ _) _ _) _ _) _ _) _ _) _ _)
    false).along fun _ => rfl

theorem Anchors.packs : codec.Packs :=
  (Packs.record Position.packs (.cons Position.packs (.cons Position.packs
    (.cons Position.packs .done _ _) _ _) _ _) false).along fun _ => rfl

theorem Machine.packs : codec.Packs :=
  (Packs.record (.list NodeHandle.packs) (.cons (.option StateHandle.packs)
    (.cons Anchors.packs .done _ _) _ _) false).along fun _ => rfl

theorem NodeKind.packs : codec.Packs := by
  refine .variants ?_ (fun k => ?_) (by decide)
  · simp only [List.forall_mem_cons]
    refine ⟨.holding StateSettings.packs "State" fun k s h => ?_,
      .holding Machine.packs "SubMachine" fun k m h => ?_, nofun⟩
    · cases k <;> simp_all [settings?]
    · cases k <;> simp_all [machine?]
  · cases k <;> simp [Case.holding, settings?, machine?]

theorem Node.packs : codec.Packs :=
  (Packs.record .text (.cons (.option MachineHandle.packs) (.cons Position.packs
    (.cons NodeKind.packs .done _ _) _ _) _ _) false).along fun _ => rfl

theorem Edge.packs : codec.Packs :=
  (Packs.record MachineHandle.packs (.cons Route.packs (.cons (.option TransitionSettings.packs)
    (.cons (.list Condition.packs) .done _ _) _ _) _ _) false).along fun _ => rfl

theorem Layer.packs : codec.Packs :=
  (Packs.record .text (.cons MachineHandle.packs .done _ _) false).along fun _ => rfl

theorem Defaults.packs : codec.Packs :=
  (Packs.record Grid.packs (.cons .bool (.cons TransitionSettings.packs (.cons Cell.packs
    (.cons Cell.packs (.cons Cell.packs (.cons Cell.packs .done _ _) _ _) _ _) _ _) _ _) _ _)
    true).along fun _ => rfl

theorem Uuid.packs : codec.Packs where
  steady := steady_readCounted?.filterMap ofBytes?
  ne_nil u := by simp [codec, countedBytes, littleEndian]
  ofBytes_append u hb more := by
    have hsize := u.size
    have hcount : readCounted? (countedBytes u.bytes ++ more) = some (u.bytes, more) :=
      readCounted?_append (by omega) more
    simp only [codec, hcount, Option.bind_eq_bind, Option.bind_some, ofBytes?, dif_pos hsize]
    rfl

theorem Timestamp.packs : codec.Packs := .spelled parse?_render

namespace Snapshot

theorem packs : codec.Packs :=
  (Packs.record .word (.cons Uuid.packs (.cons Timestamp.packs (.cons .text (.cons Defaults.packs
    (.cons (.list Parameter.packs) (.cons (.list Layer.packs) (.cons (.list Node.packs)
      (.cons (.list Edge.packs) .done _ _) _ _) _ _) _ _) _ _) _ _) _ _) _ _)
    false).along fun _ => rfl

/-- A snapshot is read from its bytes whatever follows them, and from nothing that ends before they
do. Their number has to be one that eight bytes can tell. -/
theorem ofBytes?_toBytes_append (s : Snapshot) (h : s.toBytes.length < 2 ^ 64) :
    (∀ more, ofBytes? (s.toBytes ++ more) = some s) ∧
      ∀ bs, bs <+: s.toBytes → bs ≠ s.toBytes → ofBytes? bs = none := by
  refine ⟨fun more => ?_, fun bs hfront hne => ?_⟩
  · have hread := packs.ofBytes_append s h more
    rw [ofBytes?, toBytes, hread, Option.map_some]
  · rw [ofBytes?, packs.ofBytes_eq_none h hfront hne, Option.map_none]

/-- A layer with one edge, taken at a leap second. Its conditions compare with a minus zero and with
what is no number. -/
def odd : Snapshot where
  version := 7
  id := ⟨List.replicate 16 0xfe, rfl⟩
  exportedAt := ⟨⟨-43, 12, 31, 23, 59, 60, 5000⟩, by decide⟩
  name := "Größe \"x\""
  defaults := .standard
  parameters := [⟨"Speed", .float⟩]
  layers := [⟨"", ⟨.ofIndex 0⟩⟩]
  nodes := []
  edges := [⟨⟨.ofIndex 0⟩, .anyState ⟨.ofIndex 0⟩ .absent, some .initial,
    [⟨"Speed", .less, .zero true⟩, ⟨"Speed", .greater, .invalid⟩]⟩]

set_option maxRecDepth 4096 in
theorem ofBytes?_toBytes_append_odd :
    odd.toBytes.length < 2 ^ 64 ∧ ofBytes? (odd.toBytes ++ [0, 255]) = some odd ∧
      ofBytes? odd.toBytes.dropLast = none := by
  have hb : odd.toBytes.length < 2 ^ 64 := by cbv
  have hne : odd.toBytes.dropLast ≠ odd.toBytes := by
    intro h
    have hlen := congrArg List.length h
    have hpos := List.length_pos_iff.mpr (packs.ne_nil odd)
    rw [List.length_dropLast, toBytes] at hlen
    omega
  obtain ⟨hread, hshort⟩ := ofBytes?_toBytes_append odd hb
  exact ⟨hb, hread [0, 255], hshort _ (List.dropLast_prefix _) hne⟩

end Snapshot

end Statechart
