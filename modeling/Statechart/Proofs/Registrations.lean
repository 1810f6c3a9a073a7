import Mathlib.Data.List.Induction
import Statechart.Proofs.Names
import Statechart.Proofs.Typing

/-! Parameters as a map from names to kinds, in the order of their declaration. A registration of a
group checks all names before it declares the first one, and the two agree on every name. -/

namespace Statechart

def Controller.parameterNames (c : Controller) : List String := c.parameters.map (·.name)

/-- A call that registers one name, or several names with one kind. -/
inductive Registration where
  | one (kind : ParameterKind) (name : String)
  | group (kind : ParameterKind) (names : List String)

namespace Registration

def kind : Registration → ParameterKind
  | one kind _ | group kind _ => kind

def names : Registration → List String
  | one _ name => [name]
  | group _ names => names

def reference : Registration → AnyReference
  | one kind name => .one kind ⟨name⟩
  | group kind names => .group kind (.ofNames names)

def work : Registration → Work AnyReference
  | one kind name => do return .one kind (← Work.register kind name)
  | group kind names => do return .group kind (← Work.registerAll kind names)

def operation : Registration → Operation
  | one kind name => .act (.register kind name)
  | group kind names => .act (.registerAll kind names)

def Agrees (r : Registration) (c : Controller) : Prop :=
  ∀ name ∈ r.names, ∀ p ∈ c.parameters, p.name = name → p.kind = r.kind

/-- The names that are not declared yet, each of them once. -/
def newNames (r : Registration) (c : Controller) : List String :=
  (r.names.filter (· ∉ c.parameterNames)).eraseDups

end Registration

namespace Controller

variable {c : Controller} {kind : ParameterKind} {name : String}

theorem conflict?_eq_none_iff (hd : c.parameterNames.Nodup) :
    c.conflict? kind name = none ↔ ∀ p ∈ c.parameters, p.name = name → p.kind = kind := by
  constructor
  · rintro h p hp rfl
    rw [conflict?, parameter?, find?_eq_some_of_nodup hd hp] at h
    simpa [Option.filter] using h
  · intro h
    cases hp : c.parameter? name with
    | none => simp [conflict?, hp]
    | some p =>
      have hname : p.name = name := by simpa using List.find?_some hp
      have hkind : p.kind = kind := h p (List.mem_of_find?_eq_some hp) hname
      simp [conflict?, hp, hkind, Option.filter]

theorem conflict?_eq_some {fault : Fault} (h : c.conflict? kind name = some fault) :
    ∃ p ∈ c.parameters, p.name = name ∧ p.kind ≠ kind ∧
      fault = .kindMismatch name p.kind kind := by
  obtain ⟨p, hp, rfl⟩ := Option.map_eq_some_iff.mp h
  obtain ⟨hfound, hkind⟩ := Option.filter_eq_some_iff.mp hp
  exact ⟨p, List.mem_of_find?_eq_some hfound, by simpa using List.find?_some hfound,
    by simpa using hkind, rfl⟩

theorem declare_eq (c : Controller) (kind : ParameterKind) (name : String) :
    c.declare kind name =
      if name ∈ c.parameterNames then c
      else { c with parameters := c.parameters ++ [⟨name, kind⟩] } := by
  have hfound : (c.parameter? name).isSome = true ↔ name ∈ c.parameterNames := by
    simp [parameter?, parameterNames, List.find?_isSome]
  rw [declare]
  exact if_congr hfound rfl rfl

/-- Names that are declared one after the other come behind those that there are, without those
that are declared by then. -/
theorem declareAll_eq (c : Controller) (kind : ParameterKind) (names : List String) :
    names.foldl (·.declare kind) c = { c with
      parameters := c.parameters ++
        (names.filter (· ∉ c.parameterNames)).eraseDups.map (⟨·, kind⟩) } := by
  induction names using List.reverseRecOn with
  | nil => simp
  | append_singleton names name ih =>
    rw [List.foldl_append, List.foldl_cons, List.foldl_nil, ih, declare_eq, List.filter_append]
    have hnames : parameterNames { c with parameters := c.parameters ++
        (names.filter (· ∉ c.parameterNames)).eraseDups.map (⟨·, kind⟩) } =
          c.parameterNames ++ (names.filter (· ∉ c.parameterNames)).eraseDups := by
      simp [parameterNames, Function.comp_def]
    rw [hnames]
    by_cases hold : name ∈ c.parameterNames
    · simp [hold]
    · by_cases hmem : name ∈ names <;> simp [hold, hmem, eraseDups_concat]

end Controller

namespace Registration

variable {c : Controller}

theorem tried_work (r : Registration) (c : Controller) :
    r.work.tried c = match r.names.findSome? (c.conflict? r.kind) with
      | some fault => (.error fault, c)
      | none => (.ok r.reference, r.names.foldl (·.declare r.kind) c) := by
  cases r with
  | one kind name =>
    rw [work, Work.tried, Work.run_bind, Work.performs_register, names, List.findSome?_singleton]
    simp only [Controller.register, Registration.kind]
    cases c.conflict? kind name <;> rfl
  | group kind names =>
    rw [work, Work.tried, Work.run_bind, Work.performs_registerAll, Registration.names]
    simp only [Controller.registerAll, Registration.kind]
    cases names.findSome? (c.conflict? kind) <;> rfl

theorem apply_operation (r : Registration) (c : Controller) :
    r.operation.apply c = (r.work.tried c).2 := by
  rw [tried_work]
  cases r with
  | one kind name =>
    simp only [operation, Operation.apply, Action.perform, Controller.register, bind, Except.bind,
      names, List.findSome?_singleton, Registration.kind]
    cases c.conflict? kind name <;> rfl
  | group kind names =>
    simp only [operation, Operation.apply, Action.perform, Controller.registerAll, bind,
      Except.bind, Registration.names, Registration.kind]
    cases names.findSome? (c.conflict? kind) <;> rfl

theorem agrees_iff {r : Registration} (hd : c.parameterNames.Nodup) :
    r.Agrees c ↔ r.names.findSome? (c.conflict? r.kind) = none := by
  rw [List.findSome?_eq_none_iff]
  exact forall₂_congr fun name _ => (Controller.conflict?_eq_none_iff hd).symm

theorem tried_of_agrees {r : Registration} (hd : c.parameterNames.Nodup) (h : r.Agrees c) :
    r.work.tried c = (.ok r.reference,
      { c with parameters := c.parameters ++ (r.newNames c).map (⟨·, r.kind⟩) }) := by
  rw [tried_work, (agrees_iff hd).mp h, Controller.declareAll_eq]
  rfl

theorem tried_of_not_agrees {r : Registration} (hd : c.parameterNames.Nodup) (h : ¬r.Agrees c) :
    ∃ front taken rest, ∃ p ∈ c.parameters, r.names = front ++ taken :: rest ∧
      (∀ other ∈ front, ∀ q ∈ c.parameters, q.name = other → q.kind = r.kind) ∧
      p.name = taken ∧ p.kind ≠ r.kind ∧
      r.work.tried c = (.error (.kindMismatch taken p.kind r.kind), c) := by
  rw [agrees_iff hd] at h
  obtain ⟨fault, hfault⟩ := Option.ne_none_iff_exists'.mp h
  obtain ⟨front, taken, rest, hsplit, htaken, hfront⟩ := List.findSome?_eq_some_iff.mp hfault
  obtain ⟨p, hp, hpname, hkind, rfl⟩ := Controller.conflict?_eq_some htaken
  refine ⟨front, taken, rest, p, hp, hsplit, fun other hother => ?_, hpname, hkind, ?_⟩
  · exact (Controller.conflict?_eq_none_iff hd).mp (hfront other hother)
  · rw [tried_work, hfault]

/-- In a controller that was started new, whatever was done to it since, names are distinct. A
registration declares those of its names that are new, once each and in order, unless one of them
has another kind. Then it changes nothing, and tells the first such name with its two kinds. What is
declared stays as it is. -/
theorem registers_in_order (id : Uuid) (name : String) (defaults : Defaults) (ops : List Operation)
    (r : Registration) :
    let c := (Controller.new id name defaults).after ops
    c.parameterNames.Nodup ∧
      (r.Agrees c → r.work.tried c = (.ok r.reference,
        { c with parameters := c.parameters ++ (r.newNames c).map (⟨·, r.kind⟩) })) ∧
      (¬r.Agrees c → ∃ front taken rest, ∃ p ∈ c.parameters, r.names = front ++ taken :: rest ∧
        (∀ other ∈ front, ∀ q ∈ c.parameters, q.name = other → q.kind = r.kind) ∧
        p.name = taken ∧ p.kind ≠ r.kind ∧
        r.work.tried c = (.error (.kindMismatch taken p.kind r.kind), c)) ∧
      r.operation.apply c = (r.work.tried c).2 ∧
      ∀ more, c.parameters <+: (c.after more).parameters ∧
        ∀ p ∈ c.parameters, (c.after more).parameter? p.name = some p := by
  intro c
  have hlists : (Controller.new id name defaults).Enlists c := .after _ ops
  have hd : c.parameterNames.Nodup := hlists.nodup_iff.mpr List.nodup_nil
  refine ⟨hd, tried_of_agrees hd, tried_of_not_agrees hd, r.apply_operation c, fun more => ?_⟩
  obtain ⟨new, hnew, -⟩ := Controller.Enlists.after c more
  have hle : c.parameters <+: (c.after more).parameters := hnew ▸ List.prefix_append ..
  exact ⟨hle, fun p hp =>
    Controller.parameter?_of_isPrefix hle (Controller.find?_eq_some_of_nodup hd hp)⟩

/-- A group with a repeated name, and one with a name in the middle that has another kind. -/
theorem registers_in_order_repeated :
    let ops : List Operation := [.act (.register .float "a"), .act (.addLayer "")]
    let c := (Controller.new ⟨List.replicate 16 0, rfl⟩ "" .standard).after ops
    let repeated := Registration.group .int ["b", "c", "b"]
    let mixed := Registration.group .int ["b", "a", "c"]
    repeated.Agrees c ∧ (repeated.work.tried c).2.parameters =
        [⟨"a", .float⟩, ⟨"b", .int⟩, ⟨"c", .int⟩] ∧
      ¬mixed.Agrees c ∧ mixed.work.tried c = (.error (.kindMismatch "a" .float .int), c) := by
  intro ops c repeated mixed
  obtain ⟨-, hagree, -⟩ := registers_in_order ⟨List.replicate 16 0, rfl⟩ "" .standard ops repeated
  obtain ⟨-, -, hrefuse, -⟩ := registers_in_order ⟨List.replicate 16 0, rfl⟩ "" .standard ops mixed
  have hrepeated : repeated.Agrees c := by
    unfold Agrees
    decide
  have hmixed : ¬mixed.Agrees c := by
    unfold Agrees
    decide
  refine ⟨hrepeated, ?_, hmixed, ?_⟩
  · rw [hagree hrepeated]
    rfl
  · obtain ⟨front, taken, rest, p, hp, -, -, rfl, -, hrun⟩ := hrefuse hmixed
    obtain rfl : p = ⟨"a", .float⟩ := List.mem_singleton.mp hp
    exact hrun

end Registration

end Statechart
