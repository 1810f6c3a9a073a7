import Statechart.Proofs.Guards
import Statechart.Proofs.Lineage
import Statechart.Source

/-! Conditions that typed references offer. As long as a controller gets no others, and each
reference was obtained by a registration on it, every condition names a parameter that is declared
with a kind that fits. -/

namespace Statechart

namespace AnyReference

def kind : AnyReference → ParameterKind
  | one kind _ | group kind _ => kind

def names : AnyReference → List String
  | one _ r => [r.name]
  | group _ g => g.members.map (·.name)

/-- A condition that a reference makes by one of its comparisons. -/
def Offers (r : AnyReference) (x : Condition) : Prop :=
  ∃ o reach how cs, r.conditions? o reach how = some cs ∧ x ∈ cs

variable {r : AnyReference} {x : Condition}

/-- No comparison that a reference allows is one that its kind does not accept. -/
theorem Offers.fits (h : r.Offers x) :
    x.parameter ∈ r.names ∧ r.kind.accepts x.comparison = true := by
  obtain ⟨o, reach, how, cs, hcs, hx⟩ := h
  cases r with
  | one kind ref =>
    cases kind <;> cases reach <;> cases how <;>
      simp only [conditions?, Option.some.injEq, Option.map_eq_some_iff, reduceCtorEq] at hcs
    case bool.one.equals =>
      obtain ⟨b, -, rfl⟩ := hcs
      obtain rfl := List.mem_singleton.mp hx
      cases b <;> exact ⟨List.mem_singleton_self _, rfl⟩
    all_goals
      first
      | obtain rfl := hcs
      | obtain ⟨_, -, rfl⟩ := hcs
      obtain rfl := List.mem_singleton.mp hx
      exact ⟨List.mem_singleton_self _, rfl⟩
  | group kind refs =>
    cases kind <;> cases reach <;> cases how <;>
      simp only [conditions?, Option.some.injEq, Option.map_eq_some_iff, reduceCtorEq] at hcs
    all_goals
      first
      | obtain rfl := hcs
      | obtain ⟨_, -, rfl⟩ := hcs
      obtain ⟨ref, href, rfl⟩ := List.mem_map.mp hx
      exact ⟨List.mem_map_of_mem href, rfl⟩

end AnyReference

namespace Controller

variable {c d : Controller} {kind : ParameterKind} {name : String}

/-- Every name of a reference is declared with its kind. -/
def Declares (c : Controller) (r : AnyReference) : Prop :=
  ∀ name ∈ r.names, c.parameter? name = some ⟨name, r.kind⟩

/-- A name keeps its declaration when others are added behind it. -/
theorem parameter?_of_isPrefix (h : c.parameters <+: d.parameters) {p : Parameter}
    (hp : c.parameter? name = some p) : d.parameter? name = some p := by
  obtain ⟨new, hnew⟩ := h
  rw [parameter?, ← hnew, List.find?_append, ← parameter?, hp, Option.some_or]

theorem Declares.mono {r : AnyReference} (h : c.Declares r) (hle : c.parameters <+: d.parameters) :
    d.Declares r :=
  fun name hname => parameter?_of_isPrefix hle (h name hname)

theorem Change.parameters (h : c.Change d) : c.parameters <+: d.parameters := by
  cases h with
  | aside hid hl hn he hp => exact hp
  | relabel hf | layer name | adopt ha | extend hes | guard e cs => exact List.prefix_rfl

theorem Builds.parameters (h : c.Builds d) : c.parameters <+: d.parameters := by
  induction h with
  | refl => exact List.prefix_rfl
  | tail _ hlast ih => exact ih.trans hlast.parameters

theorem parameter?_declare (h : c.conflict? kind name = none) :
    (c.declare kind name).parameter? name = some ⟨name, kind⟩ := by
  cases hp : c.parameter? name with
  | none =>
    rw [parameter?, List.find?_eq_none] at hp
    rw [declare, if_neg (by simpa [parameter?] using hp), parameter?, List.find?_append,
      List.find?_eq_none.mpr hp]
    simp
  | some p =>
    -- without a conflict the name has that kind already
    obtain rfl : p.name = name := by simpa using List.find?_some hp
    have hkind : p.kind = kind := by simpa [conflict?, hp, Option.filter] using h
    rw [declare, if_pos (by rw [hp]; rfl), hp, ← hkind]

theorem declares_register {r : Reference kind} (h : c.register kind name = .ok (d, r)) :
    d.Declares (.one kind r) := by
  simp only [register] at h
  split at h
  · cases h
  · rename_i hconflict
    obtain ⟨rfl, rfl⟩ := Prod.mk.inj (Except.ok.inj h)
    intro other hother
    rw [List.mem_singleton.mp hother]
    exact parameter?_declare hconflict

theorem parameter?_declareAll {names : List String}
    (h : ∀ name ∈ names, c.conflict? kind name = none) (hname : name ∈ names) :
    (names.foldl (·.declare kind) c).parameter? name = some ⟨name, kind⟩ := by
  induction names generalizing c with
  | nil => cases hname
  | cons first names ih =>
    obtain ⟨hfirst, hrest⟩ := List.forall_mem_cons.mp h
    rcases List.mem_cons.mp hname with rfl | hname
    · exact parameter?_of_isPrefix (builds_declareAll kind names).parameters
        (parameter?_declare hfirst)
    · exact ih (fun other hother => conflict?_declare_eq_none (hrest other hother)) hname

theorem declares_registerAll {names : List String} {g : ReferenceGroup kind}
    (h : c.registerAll kind names = .ok (d, g)) : d.Declares (.group kind g) := by
  simp only [registerAll] at h
  split at h
  · cases h
  · rename_i hconflict
    obtain ⟨rfl, rfl⟩ := Prod.mk.inj (Except.ok.inj h)
    intro name hname
    obtain ⟨ref, href, rfl⟩ := List.mem_map.mp hname
    obtain ⟨name, hlisted, rfl⟩ := List.mem_map.mp href
    exact parameter?_declareAll (List.findSome?_eq_none_iff.mp hconflict) hlisted

end Controller

/-- Later on the parameters are those of before, with further ones behind them. -/
theorem Operation.parameters_apply (op : Operation) (c : Controller) :
    c.parameters <+: (op.apply c).parameters := by
  rcases op.builds_or_withEdges c with h | ⟨es, h⟩
  · exact h.parameters
  · rw [h]
    exact List.prefix_rfl

/-- What is made of a new controller by registrations and operations, where conditions are used only
as they are offered by references that the registrations gave. -/
inductive Typed : List AnyReference → Controller → Prop
  | new (id : Uuid) (name : String) (defaults : Defaults) : Typed [] (.new id name defaults)
  | register {rs : List AnyReference} {c d : Controller} {kind : ParameterKind} {name : String}
      {r : Reference kind} (h : Typed rs c) (hr : c.register kind name = .ok (d, r)) :
      Typed (.one kind r :: rs) d
  | registerAll {rs : List AnyReference} {c d : Controller} {kind : ParameterKind}
      {names : List String} {g : ReferenceGroup kind} (h : Typed rs c)
      (hg : c.registerAll kind names = .ok (d, g)) : Typed (.group kind g :: rs) d
  | operate {rs : List AnyReference} {c : Controller} (h : Typed rs c) (op : Operation)
      (hop : ∀ x ∈ op.conditions, ∃ r ∈ rs, r.Offers x) : Typed rs (op.apply c)

namespace Typed

variable {rs : List AnyReference} {c : Controller}

theorem declares (h : Typed rs c) : ∀ r ∈ rs, c.Declares r := by
  induction h with
  | new id name defaults => exact fun _ hr => absurd hr List.not_mem_nil
  | register h hr ih =>
    have hprefix := (Controller.builds_register hr).parameters
    exact List.forall_mem_cons.mpr ⟨Controller.declares_register hr, fun r hmem =>
      (ih r hmem).mono hprefix⟩
  | registerAll h hg ih =>
    have hprefix := (Controller.builds_registerAll hg).parameters
    exact List.forall_mem_cons.mpr ⟨Controller.declares_registerAll hg, fun r hmem =>
      (ih r hmem).mono hprefix⟩
  | operate h op hop ih => exact fun r hmem => (ih r hmem).mono (op.parameters_apply _)

theorem guardedBy (h : Typed rs c) : c.GuardedBy fun x => ∃ r ∈ rs, r.Offers x := by
  induction h with
  | new id name defaults => exact fun _ hx => absurd hx List.not_mem_nil
  | register h hr ih =>
    have hd := ((Work.within_register _ _).guardedBy nofun).of_eq_ok (Work.performs_register _ _) hr
      ih
    exact hd.imp fun x ⟨r, hmem, hx⟩ => ⟨r, List.mem_cons_of_mem _ hmem, hx⟩
  | registerAll h hg ih =>
    have hd := ((Work.within_registerAll _ _).guardedBy nofun).of_eq_ok
      (Work.performs_registerAll _ _) hg ih
    exact hd.imp fun x ⟨r, hmem, hx⟩ => ⟨r, List.mem_cons_of_mem _ hmem, hx⟩
  | operate h op hop ih => exact op.guardedBy_apply hop ih

/-- No check finds a condition whose parameter is not declared, or declared with another kind than
the condition is for. -/
theorem parameterIssues_eq_nil (h : Typed rs c) : c.parameterIssues = [] := by
  have hnone (e : EdgeHandle) (x : Edge) (hx : (e, x) ∈ c.numberedEdges) :
      ∀ y ∈ x.conditions, c.conditionIssue? e y = none := by
    intro y hy
    obtain ⟨r, hmem, hoffers⟩ := h.guardedBy x (Controller.mem_of_mem_numberedEdges.mp ⟨e, hx⟩) y hy
    obtain ⟨hname, haccepts⟩ := hoffers.fits
    have hdeclared : c.parameter? y.parameter = some ⟨y.parameter, r.kind⟩ :=
      h.declares r hmem y.parameter hname
    simp only [Controller.conditionIssue?, hdeclared, haccepts, if_true]
  rw [Controller.parameterIssues, List.flatMap_eq_nil_iff]
  exact fun ⟨e, x⟩ hx => List.filterMap_eq_nil_iff.mpr (hnone e x hx)

/-- A flag and two numbers are declared, one of the numbers is refused as a flag, and the conditions
go to alternatives and behind them. -/
theorem parameterIssues_eq_nil_run :
    let go : Reference .bool := ⟨"go"⟩
    let speeds : ReferenceGroup .float := .ofNames ["speed", "turn"]
    let new := Controller.new ⟨List.replicate 16 0, rfl⟩ "" .standard
    let layered := (Operation.act (.addLayer "")).apply new
    let flagged := layered.declare .bool "go"
    let declared := (flagged.declare .float "speed").declare .float "turn"
    let refused := (Operation.act (.register .bool "speed")).apply declared
    let chain : Chain Supply (.fresh true) :=
      .whenAnyOf (.ofConditions (speeds.exceed .one))
        (.andEach (.ofConditions [go.isFalse]) .stop)
    let c := (Operation.travel (.anyState Controller.bareRoot (.machine Controller.bareRoot)) chain
      []).apply refused
    Typed [.group .float speeds, .one .bool go] c ∧
      c.edges.map (·.conditions.map (·.parameter)) = [["speed", "go"], ["turn", "go"]] ∧
      c.parameterIssues = [] := by
  intro go speeds new layered flagged declared refused chain c
  have hlayered : Typed [] layered := .operate (.new _ "" .standard) _ nofun
  have hgo : layered.register .bool "go" = .ok (flagged, go) := rfl
  have hflagged : Typed [.one .bool go] flagged := .register hlayered hgo
  have hspeeds : flagged.registerAll .float ["speed", "turn"] = .ok (declared, speeds) := rfl
  have hdeclared : Typed [.group .float speeds, .one .bool go] declared :=
    .registerAll hflagged hspeeds
  have hrefused : Typed [.group .float speeds, .one .bool go] refused :=
    .operate hdeclared _ nofun
  have hc : Typed [.group .float speeds, .one .bool go] c := by
    refine .operate hrefused _ fun x hx => ?_
    rcases List.mem_append.mp hx with hx | hx
    · exact ⟨.group .float speeds, by simp, ⟨none, none, some .one⟩, .every, .greater, _, rfl, hx⟩
    · exact ⟨.one .bool go, by simp, ⟨none, none, none⟩, .one, .isFalse, _, rfl, hx⟩
  exact ⟨hc, by decide, hc.parameterIssues_eq_nil⟩

end Typed

end Statechart
