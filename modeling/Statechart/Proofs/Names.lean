import Statechart.Proofs.Concerns
import Statechart.Proofs.Strays

/-! The names of parameters. Operations declare new names only, so that names are repeated in a
controller only where the snapshot repeats them that it was restored from. -/

namespace Statechart

/-- The name of the parameter is declared with another kind in front of it. -/
def Snapshot.Shadows (s : Snapshot) (p : Parameter) : Prop :=
  ∃ q, s.parameters.find? (·.name == p.name) = some q ∧ q.kind ≠ p.kind

namespace Controller

variable {b c d : Controller} {p : Parameter}

/-- What a controller makes of the name of a parameter is what the parameter says: the name can be
registered again with the kind of the parameter and no other, and conditions on it are checked by
that kind. -/
structure GoesBy (c : Controller) (p : Parameter) : Prop where
  registers : ∀ kind, (∃ d r, c.register kind p.name = .ok (d, r)) ↔ kind = p.kind
  checks : ∀ (e : EdgeHandle) (x : Condition), x.parameter = p.name →
    c.conditionIssue? e x = if p.kind.accepts x.comparison then none
      else some (.incompatible e p.name p.kind x.comparison)

theorem goesBy_iff {q : Parameter} (hq : c.parameter? p.name = some q) :
    c.GoesBy p ↔ q.kind = p.kind := by
  have hregister (kind : ParameterKind) :
      (∃ d r, c.register kind p.name = .ok (d, r)) ↔ kind = q.kind := by
    by_cases hkind : q.kind = kind
    · simp [register, conflict?, hq, hkind, Option.filter]
    · simp [register, conflict?, hq, hkind, Ne.symm hkind, Option.filter]
  constructor
  · intro h
    exact ((h.registers q.kind).mp ((hregister q.kind).mpr rfl))
  · intro hkind
    refine ⟨fun kind => by rw [hregister, hkind], fun e x hx => ?_⟩
    simp only [conditionIssue?, hx, hq, hkind]

/-- Parameters are added behind those that there are, under names of their own. -/
def Enlists (c d : Controller) : Prop :=
  ∃ new, d.parameters = c.parameters ++ new ∧ (new.map (·.name)).Nodup ∧
    ∀ p ∈ new, c.parameter? p.name = none

/-- Names stay distinct when others that are distinct are added to them. -/
theorem nodup_names_append {old new : List Parameter} (hold : (old.map (·.name)).Nodup)
    (hnames : (new.map (·.name)).Nodup)
    (hnew : ∀ q ∈ new, old.find? (·.name == q.name) = none) :
    ((old ++ new).map (·.name)).Nodup := by
  rw [List.map_append, List.nodup_append]
  refine ⟨hold, hnames, fun a ha b hb hab => ?_⟩
  obtain ⟨p, hp, rfl⟩ := List.mem_map.mp ha
  obtain ⟨q, hq, rfl⟩ := List.mem_map.mp hb
  have hne : ¬p.name = q.name := by simpa using List.find?_eq_none.mp (hnew q hq) p hp
  exact hne hab

/-- Where names are distinct, each parameter is found by its own. -/
theorem find?_eq_some_of_nodup {ps : List Parameter} (h : (ps.map (·.name)).Nodup) (hp : p ∈ ps) :
    ps.find? (·.name == p.name) = some p := by
  obtain ⟨before, behind, rfl⟩ := List.append_of_mem hp
  rw [List.map_append, List.nodup_append] at h
  refine List.find?_eq_some_iff_append.mpr ⟨by simp, before, behind, rfl, fun q hq => ?_⟩
  have hne := h.2.2 q.name (List.mem_map_of_mem hq) p.name (by simp)
  simpa using hne

namespace Enlists

theorem of_parameters_eq (h : d.parameters = c.parameters) : c.Enlists d :=
  ⟨[], by rw [h, List.append_nil], List.nodup_nil, fun _ hp => absurd hp List.not_mem_nil⟩

theorem trans (hc : b.Enlists c) (hd : c.Enlists d) : b.Enlists d := by
  obtain ⟨first, hfirst, hfirstNames, hfirstNew⟩ := hc
  obtain ⟨second, hsecond, hsecondNames, hsecondNew⟩ := hd
  have hnew (q : Parameter) (hq : q ∈ second) :
      b.parameter? q.name = none ∧ first.find? (·.name == q.name) = none := by
    have hnone := hsecondNew q hq
    rwa [parameter?, hfirst, List.find?_append, Option.or_eq_none_iff] at hnone
  refine ⟨first ++ second, by rw [hsecond, hfirst, List.append_assoc], ?_, fun p hp => ?_⟩
  · exact nodup_names_append hfirstNames hsecondNames fun q hq => (hnew q hq).2
  · rcases List.mem_append.mp hp with hp | hp
    · exact hfirstNew p hp
    · exact (hnew p hp).1

theorem declare (c : Controller) (kind : ParameterKind) (name : String) :
    c.Enlists (c.declare kind name) := by
  rw [Controller.declare]
  split
  · exact of_parameters_eq rfl
  · rename_i hnew
    refine ⟨[⟨name, kind⟩], rfl, by simp, fun p hp => ?_⟩
    rw [List.mem_singleton.mp hp]
    exact Option.not_isSome_iff_eq_none.mp hnew

theorem declareAll (kind : ParameterKind) (names : List String) :
    c.Enlists (names.foldl (·.declare kind) c) := by
  induction names generalizing c with
  | nil => exact of_parameters_eq rfl
  | cons name names ih => exact (declare c kind name).trans ih

theorem of_register {kind : ParameterKind} {name : String} {r : Reference kind}
    (h : c.register kind name = .ok (d, r)) : c.Enlists d := by
  simp only [register] at h
  split at h
  · cases h
  · obtain ⟨rfl, -⟩ := Prod.mk.inj (Except.ok.inj h)
    exact declare c kind name

theorem of_registerAll {kind : ParameterKind} {names : List String} {g : ReferenceGroup kind}
    (h : c.registerAll kind names = .ok (d, g)) : c.Enlists d := by
  simp only [registerAll] at h
  split at h
  · cases h
  · obtain ⟨rfl, -⟩ := Prod.mk.inj (Except.ok.inj h)
    exact declareAll kind names

theorem of_perform {a : Action} {answer : Answer} (hpart : a.part? = some .parameters)
    (h : a.perform c = .ok (d, answer)) : c.Enlists d := by
  cases a with
  | register kind name =>
    simp only [Action.perform, bind_eq_ok, pure_eq_ok, Prod.mk.injEq] at h
    obtain ⟨⟨declared, r⟩, hdeclared, rfl, -⟩ := h
    exact of_register hdeclared
  | registerAll kind names =>
    simp only [Action.perform, bind_eq_ok, pure_eq_ok, Prod.mk.injEq] at h
    obtain ⟨⟨declared, g⟩, hdeclared, rfl, -⟩ := h
    exact of_registerAll hdeclared
  | _ => cases hpart

theorem apply (c : Controller) (op : Operation) : c.Enlists (op.apply c) := by
  by_cases hpart : op.part? = some .parameters
  · cases op with
    | act a =>
      simp only [Operation.apply]
      cases hd : a.perform c with
      | error fault => exact of_parameters_eq rfl
      | ok r => exact of_perform hpart hd
    | _ => cases hpart
  · exact of_parameters_eq
      (op.eq_apply (·.parameters) (fun _ => rfl) (fun _ _ _ => rfl) hpart c)

theorem after (c : Controller) (ops : List Operation) : c.Enlists (c.after ops) := by
  induction ops generalizing c with
  | nil => exact of_parameters_eq rfl
  | cons op ops ih => exact (apply c op).trans (ih (op.apply c))

theorem nodup_iff (h : c.Enlists d) :
    (d.parameters.map (·.name)).Nodup ↔ (c.parameters.map (·.name)).Nodup := by
  obtain ⟨new, hnew, hnames, hfresh⟩ := h
  rw [hnew]
  refine ⟨fun hd => ?_, fun hc => nodup_names_append hc hnames hfresh⟩
  rw [List.map_append, List.nodup_append] at hd
  exact hd.1

/-- A name is looked up as before, if it was there, and is that of one new parameter otherwise. -/
theorem parameter?_eq (h : c.Enlists d) (hp : p ∈ d.parameters) :
    d.parameter? p.name = (c.parameter? p.name).or (some p) := by
  obtain ⟨new, hnew, hnames, hfresh⟩ := h
  rw [parameter?, hnew, List.find?_append, ← parameter?]
  cases hold : c.parameter? p.name with
  | some q => rfl
  | none =>
    -- then the parameter is a new one, and the new ones have names of their own
    rw [hnew] at hp
    rcases List.mem_append.mp hp with hp | hp
    · have hne := List.find?_eq_none.mp hold p hp
      simp at hne
    · rw [find?_eq_some_of_nodup hnames hp]

end Enlists

/-- In every controller that comes from a restored one, names are distinct exactly if they are so in
the snapshot, and the name of a parameter stands for what the parameter says unless the snapshot
declares it with another kind first. -/
theorem goesBy_iff_of_restore {s : Snapshot} (hs : restore s = .ok c) (ops : List Operation) :
    (((c.after ops).parameters.map (·.name)).Nodup ↔ (s.parameters.map (·.name)).Nodup) ∧
      ∀ p ∈ (c.after ops).parameters, (c.after ops).GoesBy p ↔ ¬s.Shadows p := by
  have hc : c.parameters = s.parameters := congrArg (·.parameters) (eq_ofSnapshot hs)
  have hlists : c.Enlists (c.after ops) := .after c ops
  refine ⟨by rw [hlists.nodup_iff, hc], fun p hp => ?_⟩
  have hfound := hlists.parameter?_eq hp
  have hlookup : c.parameter? p.name = s.parameters.find? (·.name == p.name) := by
    rw [parameter?, hc]
  rw [hlookup] at hfound
  cases hold : s.parameters.find? (·.name == p.name) with
  | none =>
    rw [hold, Option.none_or] at hfound
    refine iff_of_true ((goesBy_iff hfound).mpr rfl) ?_
    rintro ⟨q, hq, -⟩
    cases hold.symm.trans hq
  | some q =>
    rw [hold, Option.some_or] at hfound
    rw [goesBy_iff hfound, Snapshot.Shadows, hold]
    simp

/-- A snapshot that declares one name with two kinds, and has a condition for the second of them. -/
def twofold : Snapshot :=
  let inner : MachineHandle := ⟨.ofIndex 1⟩
  let target : Endpoint := .state ⟨.ofIndex 2⟩
  { nested none [⟨inner, .anyState inner target, some .initial, [⟨"speed", .isTrue, .zero false⟩]⟩]
    with parameters := [⟨"speed", .float⟩, ⟨"speed", .bool⟩] }

/-- A new name stands for its parameter, and the repeated one still does not for the second. -/
theorem goesBy_iff_of_restore_twofold :
    let ops : List Operation := [.act (.register .bool "speed"), .act (.register .float "turn")]
    let d := (ofSnapshot twofold).after ops
    restore twofold = .ok (ofSnapshot twofold) ∧
      d.parameters.map (·.name) = ["speed", "speed", "turn"] ∧
      ¬(d.parameters.map (·.name)).Nodup ∧ d.GoesBy ⟨"turn", .float⟩ ∧
      ¬d.GoesBy ⟨"speed", .bool⟩ := by
  intro ops d
  have hs : restore twofold = .ok (ofSnapshot twofold) := rfl
  have hparameters : d.parameters = [⟨"speed", .float⟩, ⟨"speed", .bool⟩, ⟨"turn", .float⟩] := rfl
  obtain ⟨hnodup, hgoes⟩ := goesBy_iff_of_restore hs ops
  have hturn : ¬twofold.Shadows ⟨"turn", .float⟩ := by
    rintro ⟨q, hq, -⟩
    cases hq
  have hspeed : twofold.Shadows ⟨"speed", .bool⟩ := ⟨⟨"speed", .float⟩, rfl, by decide⟩
  refine ⟨hs, by rw [hparameters]; rfl, ?_, ?_, ?_⟩
  · rw [hnodup]
    decide
  · exact (hgoes _ (by simp [d, hparameters])).mpr hturn
  · exact fun h => (hgoes _ (by simp [d, hparameters])).mp h hspeed

/-- The second declaration cannot be made again, and what is declared by it is reported. -/
theorem not_distinct_twofold :
    let c := ofSnapshot twofold
    restore twofold = .ok c ∧ ¬(c.parameters.map (·.name)).Nodup ∧
      ⟨"speed", .bool⟩ ∈ c.parameters ∧
      c.register .bool "speed" = .error (.kindMismatch "speed" .float .bool) ∧
      c.parameterIssues = [.incompatible (.ofIndex 0) "speed" .float .isTrue] := by
  intro c
  have hmem : ⟨"speed", .bool⟩ ∈ c.parameters := List.mem_cons_of_mem _ (List.mem_singleton_self _)
  exact ⟨rfl, by decide, hmem, rfl, rfl⟩

end Controller

end Statechart
