import Mathlib
import Statechart.Record

/-! Records read member by member. Each field depends on the members under its own name alone, so
that neither the order of the members nor the members under other names matter. -/

namespace Statechart

namespace Json

/-- What the members of an object say about one name, unless they say it twice. -/
def slot? (ms : List (Option String × Json)) (name : String) : Option (Option Json) :=
  match ms.filter (·.1 == some name) with
  | [] => some none
  | [m] => some (some m.2)
  | _ => none

theorem mem_of_mapM_slot? {ms : List (Option String × Json)} {names : List String}
    {slots : List (Option Json)} (h : names.mapM (slot? ms) = some slots) {name : String}
    (hname : name ∈ names) {slot : Option Json} (hslot : slot? ms name = some slot) :
    slot ∈ slots := by
  induction names generalizing slots with
  | nil => cases hname
  | cons first names ih =>
    rw [List.mapM_cons] at h
    obtain ⟨own, hown, h⟩ := Option.bind_eq_some_iff.mp h
    obtain ⟨rest, hrest, h⟩ := Option.bind_eq_some_iff.mp h
    obtain rfl := Option.some.inj h
    rcases List.mem_cons.mp hname with rfl | hname
    · obtain rfl := Option.some.inj (hown.symm.trans hslot)
      exact List.mem_cons_self
    · exact List.mem_cons_of_mem _ (ih hrest hname)

theorem slots?_eq (names : List String) (ms : List (Option String × Json)) :
    slots? names ms = if ms.any (·.1.isNone) then none else names.mapM (slot? ms) := rfl

end Json

/-- One field, read from the members of an object. -/
def Codec.readMember {α : Type} (c : Codec α) (missing : Option α)
    (ms : List (Option String × Json)) (name : String) : Option α :=
  (Json.slot? ms name).bind fun
    | none => missing
    | some j => c.ofJson j

namespace Codec

variable {α : Type} {c : Codec α} {missing : Option α} {ms : List (Option String × Json)}
  {name : String}

theorem readMember_eq_missing (h : ms.filter (·.1 == some name) = []) :
    c.readMember missing ms name = missing := by
  rw [readMember, Json.slot?, h]
  rfl

theorem readMember_eq_ofJson {m : Option String × Json}
    (h : ms.filter (·.1 == some name) = [m]) :
    c.readMember missing ms name = c.ofJson m.2 := by
  rw [readMember, Json.slot?, h]
  rfl

theorem readMember_eq_none_of_repeated (h : 2 ≤ (ms.filter (·.1 == some name)).length) :
    c.readMember missing ms name = none := by
  rw [readMember, Json.slot?]
  generalize ms.filter (·.1 == some name) = listed at h
  match listed, h with
  | _ :: _ :: _, _ => rfl

/-- A member that is refused cannot be made up for by another one under its name. -/
theorem readMember_eq_none_of_refused {j : Json} (hj : (some name, j) ∈ ms)
    (hrefused : c.ofJson j = none) : c.readMember missing ms name = none := by
  have hmem : (some name, j) ∈ ms.filter (·.1 == some name) := by simp [hj]
  match hms : ms.filter (·.1 == some name) with
  | [] => simp [hms] at hmem
  | [m] =>
    rw [hms, List.mem_singleton] at hmem
    rw [readMember_eq_ofJson hms, ← hmem, hrefused]
  | _ :: _ :: _ => exact readMember_eq_none_of_repeated (by simp [hms])

end Codec

namespace Fields

variable {α β : Type}

/-- All fields, read from the members of an object. -/
def ofMembers (fs : Fields α) (ms : List (Option String × Json)) : Option α :=
  (fs.names.mapM (Json.slot? ms)).bind fs.ofSlots

theorem ofMembers_done (ms : List (Option String × Json)) : done.ofMembers ms = some () := rfl

theorem ofMembers_cons (name : String) (c : Codec α) (missing : Option α) (fs : Fields β)
    (ms : List (Option String × Json)) : (cons name c missing fs).ofMembers ms =
      (c.readMember missing ms name).bind fun a => (fs.ofMembers ms).bind fun b => some (a, b) := by
  have hnames : (cons name c missing fs).names = name :: fs.names := rfl
  rw [ofMembers, hnames, List.mapM_cons, Codec.readMember, ofMembers]
  cases Json.slot? ms name with
  | none => rfl
  | some slot =>
    cases hslots : fs.names.mapM (Json.slot? ms) with
    | none => cases slot <;> simp
    | some slots => cases slot <;> rfl

/-- None of the fields may be left out. -/
def Required (fs : Fields α) : Prop := ∀ slots, none ∈ slots → fs.ofSlots slots = none

theorem Required.done : Fields.done.Required := by
  intro slots h
  cases slots with
  | nil => cases h
  | cons => rfl

theorem Required.field {c : Codec α} {fs : Fields β} (hfs : fs.Required) (hc : c.absent = none)
    (name : String) : (Fields.field name c fs).Required := by
  intro slots h
  cases slots with
  | nil => cases h
  | cons slot slots =>
    simp only [Fields.field, Fields.cons, hc]
    cases slot with
    | none => rfl
    | some j =>
      rcases List.mem_cons.mp h with h | h
      · cases h
      · rw [hfs slots h]
        show (c.ofJson j).bind (fun _ => none) = none
        exact Option.bind_fun_none _

end Fields

/-- A record without one of the fields of these names, as an object or as an array. -/
def Json.Omits (names : List String) : Json → Prop
  | .object ms => ∃ name ∈ names, ∀ m ∈ ms, m.1 ≠ some name
  | .array js => js.length < names.length
  | _ => False

namespace Codec

variable {α : Type} {fs : Fields α}

theorem ofJson_record_object (short : Bool) {ms : List (Option String × Json)}
    (hkeys : ∀ m ∈ ms, m.1.isSome) : (record fs short).ofJson (.object ms) = fs.ofMembers ms := by
  have hnone : ms.any (·.1.isNone) = false := by
    refine List.any_eq_false.mpr fun m hm => ?_
    rw [Bool.not_eq_true, ← Option.not_isSome, hkeys m hm]
    rfl
  show (Json.slots? fs.names ms).bind fs.ofSlots = _
  rw [Json.slots?_eq, hnone]
  rfl

theorem ofJson_record_eq_none (hfs : fs.Required) {j : Json} (h : j.Omits fs.names) :
    (record fs false).ofJson j = none := by
  cases j with
  | object ms =>
    obtain ⟨name, hname, habsent⟩ := h
    have hslot : Json.slot? ms name = some none := by
      rw [Json.slot?, List.filter_eq_nil_iff.mpr fun m hm => by simpa using habsent m hm]
    refine Option.bind_eq_none_iff.mpr fun slots hslots => hfs slots ?_
    rw [Json.slots?_eq, Option.ite_none_left_eq_some] at hslots
    exact Json.mem_of_mapM_slot? hslots.2 hname hslot
  | array js =>
    have hshort : ¬(js.length = fs.names.length ∨ false ∧ js.length < fs.names.length) := by
      have hlt : js.length < fs.names.length := h
      simp [hlt.ne]
    exact if_neg hshort
  | _ => rfl

end Codec

end Statechart
