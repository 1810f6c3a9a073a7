import Mathlib
import Statechart.Proofs.Members
import Statechart.Proofs.Saved

/-! Defaults from documents that leave some of them out. What is listed is taken as it is written,
in any order; what is not keeps its standard value. This holds for the fields only, not for the
parts of a field. -/

namespace Statechart

theorem Grid.ofJson_eq_none {j : Json} (h : j.Omits ["x", "y"]) : codec.ofJson j = none := by
  have hfields : (Fields.field "x" Codec.single (.field "y" .single .done)).Required :=
    .field (.field .done rfl _) rfl _
  exact Option.map_eq_none_iff.mpr (Codec.ofJson_record_eq_none hfields h)

theorem Cell.ofJson_eq_none {j : Json} (h : j.Omits ["x", "y"]) : codec.ofJson j = none := by
  have hfields : (Fields.field "x" Codec.integer (.field "y" .integer .done)).Required :=
    .field (.field .done rfl _) rfl _
  exact Option.map_eq_none_iff.mpr (Codec.ofJson_record_eq_none hfields h)

theorem TransitionSettings.ofJson_eq_none {j : Json}
    (h : j.Omits ["duration", "offset", "has_fixed_duration", "has_exit_time", "exit_time",
      "interruption_source", "ordered_interruption", "can_transition_to_self"]) :
    codec.ofJson j = none := by
  refine Option.map_eq_none_iff.mpr (Codec.ofJson_record_eq_none ?_ h)
  exact .field (.field (.field (.field (.field (.field (.field (.field .done rfl _) rfl _) rfl _)
    rfl _) rfl _) rfl _) rfl _) rfl _

namespace Defaults

inductive Field where
  | grid
  | writeDefaults
  | transition
  | entryCell
  | exitCell
  | anyStateCell
  | parentMachineCell
  deriving DecidableEq

namespace Field

def name : Field → String
  | grid => "grid"
  | writeDefaults => "write_defaults"
  | transition => "transition"
  | entryCell => "entry_anchor"
  | exitCell => "exit_anchor"
  | anyStateCell => "any_state_anchor"
  | parentMachineCell => "parent_machine_anchor"

def toJson (d : Defaults) : Field → Json
  | grid => Grid.codec.toJson d.grid
  | writeDefaults => Codec.bool.toJson d.writeDefaults
  | transition => TransitionSettings.codec.toJson d.transition
  | entryCell => Cell.codec.toJson d.entryCell
  | exitCell => Cell.codec.toJson d.exitCell
  | anyStateCell => Cell.codec.toJson d.anyStateCell
  | parentMachineCell => Cell.codec.toJson d.parentMachineCell

/-- The names of what a field consists of, if it is a record itself. -/
def parts : Field → List String
  | writeDefaults => []
  | transition =>
    ["duration", "offset", "has_fixed_duration", "has_exit_time", "exit_time",
      "interruption_source", "ordered_interruption", "can_transition_to_self"]
  | _ => ["x", "y"]

theorem name_inj {f g : Field} : f.name = g.name ↔ f = g := by
  refine ⟨fun h => ?_, congrArg name⟩
  cases f <;> cases g <;> first | rfl | exact absurd h (by decide)

end Field

variable {d : Defaults} {S : Finset Field} {ms : List (Option String × Json)}

/-- The fields in `S` come from `d`, the others are the standard ones. -/
def taking (S : Finset Field) (d : Defaults) : Defaults where
  grid := if .grid ∈ S then d.grid else standard.grid
  writeDefaults := if .writeDefaults ∈ S then d.writeDefaults else standard.writeDefaults
  transition := if .transition ∈ S then d.transition else standard.transition
  entryCell := if .entryCell ∈ S then d.entryCell else standard.entryCell
  exitCell := if .exitCell ∈ S then d.exitCell else standard.exitCell
  anyStateCell := if .anyStateCell ∈ S then d.anyStateCell else standard.anyStateCell
  parentMachineCell :=
    if .parentMachineCell ∈ S then d.parentMachineCell else standard.parentMachineCell

/-- Members that are the fields in `S` as `d` writes them, each once and in any order, among others
under names that no field has. -/
def Lists (d : Defaults) (S : Finset Field) (ms : List (Option String × Json)) : Prop :=
  ∃ others : List (Option String × Json),
    (ms : Multiset (Option String × Json)) =
      S.val.map (fun f => (some f.name, f.toJson d)) + (others : Multiset _) ∧
    ∀ m ∈ others, ∃ key, m.1 = some key ∧ ∀ f : Field, f.name ≠ key

namespace Lists

theorem isSome_key (h : d.Lists S ms) : ∀ m ∈ ms, m.1.isSome := by
  obtain ⟨others, hms, hothers⟩ := h
  intro m hm
  rw [← Multiset.mem_coe, hms, Multiset.mem_add, Multiset.mem_map] at hm
  rcases hm with ⟨f, -, rfl⟩ | hm
  · rfl
  · obtain ⟨key, hkey, -⟩ := hothers m hm
    rw [hkey]
    rfl

theorem filter_eq (h : d.Lists S ms) (f : Field) :
    ms.filter (·.1 == some f.name) = if f ∈ S then [(some f.name, f.toJson d)] else [] := by
  obtain ⟨others, hms, hothers⟩ := h
  have hnone : (others : Multiset (Option String × Json)).filter (·.1 == some f.name) = 0 := by
    refine Multiset.filter_eq_nil.mpr fun m hm heq => ?_
    obtain ⟨key, hkey, hf⟩ := hothers m hm
    rw [beq_iff_eq, hkey, Option.some.injEq] at heq
    exact hf f heq.symm
  have hown : S.val.filter (fun g : Field => (some g.name == some f.name) = true) =
      if f ∈ S then {f} else 0 := by
    have hsame (g : Field) : (some g.name == some f.name) = true ↔ g = f := by
      rw [beq_iff_eq, Option.some.injEq, Field.name_inj]
    rw [Multiset.filter_congr fun g _ => hsame g, Multiset.filter_eq',
      Multiset.count_eq_of_nodup S.nodup]
    simp only [Finset.mem_val]
    split <;> rfl
  have hfilter : (ms : Multiset (Option String × Json)).filter (·.1 == some f.name) =
      if f ∈ S then {(some f.name, f.toJson d)} else 0 := by
    rw [hms, Multiset.filter_add, hnone, add_zero, Multiset.filter_map]
    show (S.val.filter fun g : Field => (some g.name == some f.name) = true).map _ = _
    rw [hown]
    split <;> rfl
  simp only [Multiset.filter_coe, Bool.decide_eq_true] at hfilter
  split
  · rename_i hf
    rwa [if_pos hf, Multiset.coe_eq_singleton] at hfilter
  · rename_i hf
    rwa [if_neg hf, Multiset.coe_eq_zero] at hfilter

theorem readMember {α : Type} {c : Codec α} {a missing : α} (h : d.Lists S ms) (f : Field)
    (hread : c.ofJson (f.toJson d) = some a) :
    c.readMember (some missing) ms f.name = some (if f ∈ S then a else missing) := by
  have hfilter := h.filter_eq f
  split
  · rename_i hf
    rw [if_pos hf] at hfilter
    rw [Codec.readMember_eq_ofJson hfilter, hread]
  · rename_i hf
    rw [if_neg hf] at hfilter
    rw [Codec.readMember_eq_missing hfilter]

end Lists

theorem ofJson_object (hkeys : ∀ m ∈ ms, m.1.isSome) : codec.ofJson (.object ms) = do
    let grid ← Grid.codec.readMember (some standard.grid) ms Field.grid.name
    let writeDefaults ←
      Codec.bool.readMember (some standard.writeDefaults) ms Field.writeDefaults.name
    let transition ←
      TransitionSettings.codec.readMember (some standard.transition) ms Field.transition.name
    let entry ← Cell.codec.readMember (some standard.entryCell) ms Field.entryCell.name
    let exit ← Cell.codec.readMember (some standard.exitCell) ms Field.exitCell.name
    let anyState ← Cell.codec.readMember (some standard.anyStateCell) ms Field.anyStateCell.name
    let parent ←
      Cell.codec.readMember (some standard.parentMachineCell) ms Field.parentMachineCell.name
    return ⟨grid, writeDefaults, transition, entry, exit, anyState, parent⟩ := by
  have hrecord {α : Type} (fs : Fields α) := @Codec.ofJson_record_object α fs true ms hkeys
  simp only [codec, Codec.along, hrecord, Fields.fieldOr, Fields.ofMembers_cons,
    Fields.ofMembers_done, Option.bind_eq_bind, Option.map_bind, Function.comp_def,
    Option.bind_assoc, Option.bind_some, Option.map_some, Option.pure_def, Field.name]

theorem ofJson_listed (hd : d.isFinite = true) (h : d.Lists S ms) :
    codec.ofJson (.object ms) = some (d.taking S) := by
  obtain ⟨hgrid, htransition⟩ := (Bool.and_eq_true _ _).mp hd
  have hcell (a : Cell) : Cell.codec.ofJson (Cell.codec.toJson a) = some a :=
    Cell.spells.ofJson_toJson a
  have hread := ofJson_object h.isSome_key
  rw [h.readMember .grid ((Grid.spells.ofJson_toJson d.grid).trans (if_pos hgrid)),
    h.readMember .writeDefaults (Codec.Spells.bool.ofJson_toJson d.writeDefaults),
    h.readMember .transition
      ((TransitionSettings.spells.ofJson_toJson d.transition).trans (if_pos htransition)),
    h.readMember .entryCell (hcell d.entryCell), h.readMember .exitCell (hcell d.exitCell),
    h.readMember .anyStateCell (hcell d.anyStateCell),
    h.readMember .parentMachineCell (hcell d.parentMachineCell)] at hread
  exact hread

/-- Nothing is read from members that one of the fields cannot be read from. -/
def Field.Refuses (ms : List (Option String × Json)) : Field → Prop
  | grid => Grid.codec.readMember (some standard.grid) ms grid.name = none
  | writeDefaults =>
    Codec.bool.readMember (some standard.writeDefaults) ms writeDefaults.name = none
  | transition =>
    TransitionSettings.codec.readMember (some standard.transition) ms transition.name = none
  | entryCell => Cell.codec.readMember (some standard.entryCell) ms entryCell.name = none
  | exitCell => Cell.codec.readMember (some standard.exitCell) ms exitCell.name = none
  | anyStateCell => Cell.codec.readMember (some standard.anyStateCell) ms anyStateCell.name = none
  | parentMachineCell =>
    Cell.codec.readMember (some standard.parentMachineCell) ms parentMachineCell.name = none

theorem ofJson_eq_none {f : Field} (h : f.Refuses ms) : codec.ofJson (.object ms) = none := by
  by_cases hkeys : ∀ m ∈ ms, m.1.isSome
  · rw [ofJson_object hkeys]
    cases f <;> simp only [Field.Refuses] at h <;> simp [h]
  · have hany : ms.any (·.1.isNone) = true := by simpa using hkeys
    show ((Json.slots? _ ms).bind _).map _ = none
    rw [Json.slots?_eq, if_pos hany]
    rfl

theorem Field.refuses_of_repeated {f : Field}
    (h : 2 ≤ (ms.filter (·.1 == some f.name)).length) : f.Refuses ms := by
  cases f <;> exact Codec.readMember_eq_none_of_repeated h

theorem Field.refuses_of_omits {f : Field} {j : Json} (hj : (some f.name, j) ∈ ms)
    (h : j.Omits f.parts) : f.Refuses ms := by
  cases f with
  | grid => exact Codec.readMember_eq_none_of_refused hj (Grid.ofJson_eq_none h)
  | writeDefaults => exact absurd h (by cases j <;> simp [parts, Json.Omits])
  | transition => exact Codec.readMember_eq_none_of_refused hj (TransitionSettings.ofJson_eq_none h)
  | _ => exact Codec.readMember_eq_none_of_refused hj (Cell.ofJson_eq_none h)

/-- However an object is spelled, the fields it lists are read and the others are standard. A field
that is listed twice or lacks a part is refused. -/
theorem parse?_object {s : String} (hs : (Json.object ms).Spelled s) :
    (∀ (d : Defaults) (S : Finset Field), d.isFinite = true → d.Lists S ms →
      parse? s = some (d.taking S)) ∧
    (∀ f : Field, 2 ≤ (ms.filter (·.1 == some f.name)).length → parse? s = none) ∧
    ∀ (f : Field) (j : Json), (some f.name, j) ∈ ms → j.Omits f.parts → parse? s = none := by
  have hparse : parse? s = codec.ofJson (.object ms) := by
    rw [parse?, Codec.decode?, hs.parse?, Option.bind_some]
  rw [hparse]
  exact ⟨fun d S hd h => ofJson_listed hd h,
    fun f h => ofJson_eq_none (Field.refuses_of_repeated h),
    fun f j hj h => ofJson_eq_none (Field.refuses_of_omits hj h)⟩

/-- Three fields in reverse order, and twice a name that no field has. -/
def unordered (d : Defaults) : List (Option String × Json) :=
  [(some Field.exitCell.name, Field.exitCell.toJson d),
    (some Field.writeDefaults.name, Field.writeDefaults.toJson d),
    (some "more", .bool false), (some "more", .array [.text none, .object [(none, .null)]]),
    (some Field.grid.name, Field.grid.toJson d)]

theorem lists_unordered (d : Defaults) :
    d.Lists {.grid, .writeDefaults, .exitCell} d.unordered := by
  refine ⟨[(some "more", .array [.text none, .object [(none, .null)]]), (some "more", .bool false)],
    ?_, ?_⟩
  · refine Multiset.coe_eq_coe.mpr ((List.reverse_perm d.unordered).symm.trans ?_)
    exact (@List.perm_append_comm _ [_, _] _).cons _
  · intro m hm
    have hkey : m.1 = some "more" := by
      simp only [List.mem_cons, List.not_mem_nil, or_false] at hm
      rcases hm with rfl | rfl <;> rfl
    exact ⟨"more", hkey, fun f => by cases f <;> decide⟩

theorem wellFormed_unordered (d : Defaults) : (Json.object d.unordered).WellFormed := by
  refine .object fun m hm => ?_
  simp only [unordered, List.mem_cons, List.not_mem_nil, or_false] at hm
  rcases hm with rfl | rfl | rfl | rfl | rfl
  · exact Cell.spells.wellFormed d.exitCell
  · exact .bool d.writeDefaults
  · exact .bool false
  · refine .array fun x hx => ?_
    simp only [List.mem_cons, List.not_mem_nil, or_false] at hx
    rcases hx with rfl | rfl
    · exact .text none
    · refine .object fun m hm => ?_
      rw [List.mem_singleton.mp hm]
      exact .null
  · exact Grid.spells.wellFormed d.grid

theorem parse?_object_unordered :
    (Json.object unitGrid.unordered).Spelled (Json.object unitGrid.unordered).indented ∧
      parse? (Json.object unitGrid.unordered).indented =
        some (unitGrid.taking {.grid, .writeDefaults, .exitCell}) := by
  have hs := (wellFormed_unordered unitGrid).spelled_indented
  exact ⟨hs, (parse?_object hs).1 unitGrid _ (by decide +kernel) (lists_unordered unitGrid)⟩

end Defaults

end Statechart
