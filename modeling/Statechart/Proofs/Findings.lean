import Mathlib.Data.List.Basic
import Statechart.Rules

/-! What is wrong with a controller, place by place, and that checking it reports just that: one
issue for each place, in the order of the places. -/

namespace Statechart

/-- A place that an issue is found at. What a demand finds has its place among the demands and then
in what it says itself. -/
inductive Site where
  | condition (edge position : Nat)
  | edge (edge : Nat)
  | node (node : Nat)
  | demand (demand position : Nat)
  deriving DecidableEq

/-- Sites are in the lexicographic order of their keys. -/
def Site.key : Site → List Nat
  | condition i j => [0, i, j]
  | edge i => [1, i]
  | node i => [2, i]
  | demand i j => [3, i, j]

/-- What a controller is checked for besides the standard checks. -/
inductive Demand where
  | check (check : Check)
  | predicate (holds : Controller → Bool) (message : String)

namespace Demand

def raises (c : Controller) : Demand → List Issue
  | check k => (k c).issues
  | predicate holds message => if holds c then [] else [.custom message]

def addTo (r : Rules) : Demand → Rules
  | check k => r.require k
  | predicate holds message => r.requireThat holds message

end Demand

/-- The standard checks that are wanted, and demands in the order they were added. -/
structure Inquiry where
  parameters : Bool
  firing : Bool
  defaultStates : Bool
  demands : List Demand

namespace Inquiry

def rules (q : Inquiry) : Rules :=
  q.demands.foldl Demand.addTo ⟨q.parameters, q.firing, q.defaultStates, []⟩

theorem foldl_addTo (c : Controller) (ds : List Demand) (r : Rules) :
    ∃ checks, ds.foldl Demand.addTo r = { r with required := r.required ++ checks } ∧
      checks.map (fun check => (check c).issues) = ds.map (·.raises c) := by
  induction ds generalizing r with
  | nil => exact ⟨[], by simp, rfl⟩
  | cons d ds ih =>
    obtain ⟨check, hcheck, hissues⟩ : ∃ check, d.addTo r = r.require check ∧
        (check c).issues = d.raises c := by
      cases d with
      | check k => exact ⟨k, rfl, rfl⟩
      | predicate holds message =>
        refine ⟨_, rfl, ?_⟩
        cases h : holds c <;> simp [Demand.raises, Verdict.issues, h]
    obtain ⟨checks, hrest, hmap⟩ := ih (r.require check)
    refine ⟨check :: checks, ?_, by simp only [List.map_cons, hissues, hmap]⟩
    rw [List.foldl_cons, hcheck, hrest]
    simp [Rules.require]

theorem rules_eq (q : Inquiry) (c : Controller) :
    ∃ checks, q.rules = ⟨q.parameters, q.firing, q.defaultStates, checks⟩ ∧
      checks.map (fun check => (check c).issues) = q.demands.map (·.raises c) := by
  obtain ⟨checks, hrules, hmap⟩ := foldl_addTo c q.demands
    ⟨q.parameters, q.firing, q.defaultStates, []⟩
  exact ⟨checks, hrules, hmap⟩

theorem foldl_check (checks : List Check) (r : Rules) :
    (checks.map Demand.check).foldl Demand.addTo r =
      { r with required := r.required ++ checks } := by
  induction checks generalizing r with
  | nil => simp
  | cons check checks ih =>
    rw [List.map_cons, List.foldl_cons, ih]
    simp [Demand.addTo, Rules.require]

/-- There are no rules but those that an inquiry comes to. -/
theorem exists_rules_eq (r : Rules) : ∃ q : Inquiry, q.rules = r := by
  refine ⟨⟨r.parameters, r.firing, r.defaultStates, r.required.map .check⟩, ?_⟩
  rw [rules, foldl_check, List.nil_append]

end Inquiry

namespace Controller

/-- What is wrong at a site, as far as the inquiry asks for it. -/
inductive Finds (c : Controller) (q : Inquiry) : Site → Issue → Prop
  | undeclared {i j : Nat} {x : Edge} {y : Condition} (wanted : q.parameters = true)
      (edge : c.edges[i]? = some x) (condition : x.conditions[j]? = some y)
      (unknown : ∀ p ∈ c.parameters, p.name ≠ y.parameter) :
      Finds c q (.condition i j) (.undeclared (.ofIndex i) y.parameter)
  | incompatible {i j : Nat} {x : Edge} {y : Condition} {p : Parameter}
      (wanted : q.parameters = true) (edge : c.edges[i]? = some x)
      (condition : x.conditions[j]? = some y) (known : c.parameter? y.parameter = some p)
      (unfit : p.kind.accepts y.comparison = false) :
      Finds c q (.condition i j) (.incompatible (.ofIndex i) y.parameter p.kind y.comparison)
  | neverFires {i : Nat} {x : Edge} {s : TransitionSettings} (wanted : q.firing = true)
      (edge : c.edges[i]? = some x) (timed : x.settings = some s) (endless : s.hasExitTime = false)
      (unguarded : x.conditions = []) :
      Finds c q (.edge i) (.neverFires (.ofIndex i))
  | noDefaultState {i : Nat} {n k : Node} {m : Machine} {child : NodeHandle}
      (wanted : q.defaultStates = true) (node : c.nodes[i]? = some n)
      (machine : n.kind = .machine m) (unentered : m.defaultState = none)
      (listed : child ∈ m.children) (found : c.nodes[child.index]? = some k)
      (state : k.isState = true) :
      Finds c q (.node i) (.noDefaultState ⟨.ofIndex i⟩)
  | demanded {i j : Nat} {d : Demand} {x : Issue} (asked : q.demands[i]? = some d)
      (raised : (d.raises c)[j]? = some x) :
      Finds c q (.demand i j) x

end Controller

/-- What `f` finds at each item of a list, item by item. -/
def survey {α β : Type} (l : List α) (f : Nat → α → List β) : List β :=
  l.zipIdx.flatMap fun x => f x.2 x.1

section Survey

variable {α β γ : Type} {l : List α} {f : Nat → α → List β}

theorem mem_survey {b : β} : b ∈ survey l f ↔ ∃ i x, l[i]? = some x ∧ b ∈ f i x := by
  simp only [survey, List.mem_flatMap, Prod.exists, List.mem_zipIdx_iff_getElem?]
  exact ⟨fun ⟨x, i, hx, hb⟩ => ⟨i, x, hx, hb⟩, fun ⟨i, x, hx, hb⟩ => ⟨x, i, hx, hb⟩⟩

theorem map_survey (g : β → γ) : (survey l f).map g = survey l fun i x => (f i x).map g :=
  List.map_flatMap ..

theorem survey_eq_flatMap (g : α → List β) : (survey l fun _ x => g x) = l.flatMap g := by
  rw [survey, ← List.flatMap_map Prod.fst, List.zipIdx_map_fst]

theorem survey_if (p : α → Bool) (g : Nat → α → β) :
    (survey l fun i x => if p x then [g i x] else []) =
      (l.zipIdx.filter fun x => p x.1).map fun x => g x.2 x.1 := by
  rw [survey]
  induction l.zipIdx with
  | nil => rfl
  | cons x xs ih =>
    rw [List.flatMap_cons, ih, List.filter_cons]
    cases p x.1 <;> rfl

end Survey

namespace Controller

variable (c : Controller) (q : Inquiry)

def conditionFindings : List (Site × Issue) :=
  survey c.edges fun i x => survey x.conditions fun j y =>
    (c.conditionIssue? (.ofIndex i) y).toList.map (.condition i j, ·)

def firingFindings : List (Site × Issue) :=
  survey c.edges fun i x => if neverFires x then [(.edge i, .neverFires (.ofIndex i))] else []

def defaultStateFindings : List (Site × Issue) :=
  survey c.nodes fun i n =>
    if c.lacksDefault n then [(.node i, .noDefaultState ⟨.ofIndex i⟩)] else []

def demandFindings : List (Site × Issue) :=
  survey q.demands fun i d => survey (d.raises c) fun j x => [(.demand i j, x)]

/-- All that is found, in the order of the sites. -/
def findings : List (Site × Issue) :=
  (if q.parameters then c.conditionFindings else []) ++
    ((if q.firing then c.firingFindings else []) ++
      ((if q.defaultStates then c.defaultStateFindings else []) ++ c.demandFindings q))

variable {c q}

theorem issues_conditionFindings : c.conditionFindings.map (·.2) = c.parameterIssues := by
  have hedge (i : Nat) (x : Edge) :
      ((survey x.conditions fun j y =>
        (c.conditionIssue? (.ofIndex i) y).toList.map (Site.condition i j, ·)).map (·.2)) =
        x.conditions.filterMap (c.conditionIssue? (.ofIndex i)) := by
    rw [map_survey, List.filterMap_eq_flatMap_toList, ← survey_eq_flatMap]
    simp only [List.map_map, Function.comp_def, List.map_id']
  rw [conditionFindings, map_survey, parameterIssues, numberedEdges, List.flatMap_map]
  exact congrArg (survey c.edges) (funext₂ hedge)

theorem issues_firingFindings : c.firingFindings.map (·.2) = c.firingIssues := by
  rw [firingFindings, survey_if, firingIssues, numberedEdges, List.filter_map, List.map_map,
    List.map_map]
  rfl

theorem issues_defaultStateFindings : c.defaultStateFindings.map (·.2) = c.defaultStateIssues := by
  rw [defaultStateFindings, survey_if, defaultStateIssues, numberedNodes, List.filter_map,
    List.map_map, List.map_map]
  rfl

theorem issues_demandFindings :
    (c.demandFindings q).map (·.2) = q.demands.flatMap (·.raises c) := by
  have hdemand (i : Nat) (d : Demand) :
      (survey (d.raises c) fun j x => [(Site.demand i j, x)]).map (·.2) = d.raises c := by
    rw [map_survey]
    exact (survey_eq_flatMap fun x => [x]).trans (List.flatMap_singleton' _)
  rw [demandFindings, map_survey, ← survey_eq_flatMap]
  exact congrArg (survey q.demands) (funext₂ hdemand)

theorem issues_findings : (c.verdict q.rules).issues = (c.findings q).map (·.2) := by
  obtain ⟨checks, hrules, hmap⟩ := q.rules_eq c
  have hdemands : (checks.map fun check => check c).flatMap Verdict.issues =
      q.demands.flatMap (·.raises c) := by
    rw [List.flatMap_map, List.flatMap_def, hmap, List.flatMap_def]
  have hchosen (wanted : Bool) (found : List (Site × Issue)) :
      (if wanted then Verdict.ofIssues (found.map (·.2)) else .sound).issues =
        (if wanted then found else []).map (·.2) := by
    cases wanted
    · rfl
    · exact Verdict.issues_ofIssues _
  rw [hrules, verdict, Verdict.all, Verdict.issues_ofIssues, List.flatMap_append, hdemands,
    findings, List.map_append, List.map_append, List.map_append, issues_demandFindings, ← hchosen,
    ← hchosen, ← hchosen, issues_conditionFindings, issues_firingFindings,
    issues_defaultStateFindings]
  simp only [List.map_cons, List.map_nil, List.flatMap_cons, List.flatMap_nil, List.append_nil,
    List.append_assoc]

section Membership

variable {s : Site} {issue : Issue}

theorem conditionIssue?_eq_some {e : EdgeHandle} {y : Condition} :
    c.conditionIssue? e y = some issue ↔
      (∀ p ∈ c.parameters, p.name ≠ y.parameter) ∧ issue = .undeclared e y.parameter ∨
        ∃ p, c.parameter? y.parameter = some p ∧ p.kind.accepts y.comparison = false ∧
          issue = .incompatible e y.parameter p.kind y.comparison := by
  have hunknown : c.parameter? y.parameter = none ↔ ∀ p ∈ c.parameters, p.name ≠ y.parameter := by
    simp [parameter?]
  rw [conditionIssue?, ← hunknown]
  cases hp : c.parameter? y.parameter with
  | none => simpa using ⟨Eq.symm, Eq.symm⟩
  | some p =>
    cases ha : p.kind.accepts y.comparison
    · simpa [ha] using ⟨Eq.symm, Eq.symm⟩
    · simp [ha]

theorem neverFires_iff {x : Edge} :
    neverFires x = true ↔
      ∃ t, x.settings = some t ∧ t.hasExitTime = false ∧ x.conditions = [] := by
  cases ht : x.settings <;> simp [neverFires, ht]

theorem lacksDefault_iff {n : Node} :
    c.lacksDefault n = true ↔
      ∃ m child k, n.kind = .machine m ∧ m.defaultState = none ∧ child ∈ m.children ∧
        c.nodes[child.index]? = some k ∧ k.isState = true := by
  cases hk : n.kind with
  | state t => simp [lacksDefault, hk, NodeKind.machine?]
  | machine m =>
    simp only [lacksDefault, hk, NodeKind.machine?, Option.any_some, Bool.and_eq_true,
      Option.isNone_iff_eq_none, List.any_eq_true, Option.any_eq_true]
    constructor
    · rintro ⟨hdefault, child, hchild, k, hk, hstate⟩
      exact ⟨m, child, k, rfl, hdefault, hchild, hk, hstate⟩
    · rintro ⟨_, child, k, hm, hdefault, hchild, hk, hstate⟩
      cases hm
      exact ⟨hdefault, child, hchild, k, hk, hstate⟩

theorem mem_conditionFindings :
    (s, issue) ∈ c.conditionFindings ↔
      ∃ i x j y, c.edges[i]? = some x ∧ x.conditions[j]? = some y ∧
        c.conditionIssue? (.ofIndex i) y = some issue ∧ s = .condition i j := by
  simp only [conditionFindings, mem_survey, List.mem_map, Option.mem_toList,
    Prod.mk.injEq]
  constructor
  · rintro ⟨i, x, hx, j, y, hy, _, hissue, rfl, rfl⟩
    exact ⟨i, x, j, y, hx, hy, hissue, rfl⟩
  · rintro ⟨i, x, j, y, hx, hy, hissue, rfl⟩
    exact ⟨i, x, hx, j, y, hy, _, hissue, rfl, rfl⟩

theorem mem_firingFindings :
    (s, issue) ∈ c.firingFindings ↔
      ∃ i x, c.edges[i]? = some x ∧ neverFires x = true ∧ s = .edge i ∧
        issue = .neverFires (.ofIndex i) := by
  simp only [firingFindings, mem_survey, List.mem_ite_nil_right, List.mem_singleton, Prod.mk.injEq]

theorem mem_defaultStateFindings :
    (s, issue) ∈ c.defaultStateFindings ↔
      ∃ i n, c.nodes[i]? = some n ∧ c.lacksDefault n = true ∧ s = .node i ∧
        issue = .noDefaultState ⟨.ofIndex i⟩ := by
  simp only [defaultStateFindings, mem_survey, List.mem_ite_nil_right, List.mem_singleton,
    Prod.mk.injEq]

theorem mem_demandFindings :
    (s, issue) ∈ c.demandFindings q ↔
      ∃ i d j, q.demands[i]? = some d ∧ (d.raises c)[j]? = some issue ∧ s = .demand i j := by
  simp only [demandFindings, mem_survey, List.mem_singleton, Prod.mk.injEq]
  constructor
  · rintro ⟨i, d, hd, j, _, hissue, rfl, rfl⟩
    exact ⟨i, d, j, hd, hissue, rfl⟩
  · rintro ⟨i, d, j, hd, hissue, rfl⟩
    exact ⟨i, d, hd, j, _, hissue, rfl, rfl⟩

theorem mem_findings : (s, issue) ∈ c.findings q ↔ c.Finds q s issue := by
  simp only [findings, List.mem_append, List.mem_ite_nil_right, mem_conditionFindings,
    mem_firingFindings, mem_defaultStateFindings, mem_demandFindings, conditionIssue?_eq_some,
    neverFires_iff, lacksDefault_iff]
  constructor
  · rintro (⟨hq, i, x, j, y, hx, hy, ⟨hp, rfl⟩ | ⟨p, hp, ha, rfl⟩, rfl⟩ |
      ⟨hq, i, x, hx, ⟨t, ht, he, hc⟩, rfl, rfl⟩ |
      ⟨hq, i, n, hn, ⟨m, child, k, hm, hd, hchild, hk, hstate⟩, rfl, rfl⟩ |
      ⟨i, d, j, hd, hissue, rfl⟩)
    · exact .undeclared hq hx hy hp
    · exact .incompatible hq hx hy hp ha
    · exact .neverFires hq hx ht he hc
    · exact .noDefaultState hq hn hm hd hchild hk hstate
    · exact .demanded hd hissue
  · intro h
    cases h with
    | undeclared hq hx hy hp => exact .inl ⟨hq, _, _, _, _, hx, hy, .inl ⟨hp, rfl⟩, rfl⟩
    | incompatible hq hx hy hp ha =>
      exact .inl ⟨hq, _, _, _, _, hx, hy, .inr ⟨_, hp, ha, rfl⟩, rfl⟩
    | neverFires hq hx ht he hc => exact .inr (.inl ⟨hq, _, _, hx, ⟨_, ht, he, hc⟩, rfl, rfl⟩)
    | noDefaultState hq hn hm hd hchild hk hstate =>
      exact .inr (.inr (.inl ⟨hq, _, _, hn, ⟨_, _, _, hm, hd, hchild, hk, hstate⟩, rfl, rfl⟩))
    | demanded hd hissue => exact .inr (.inr (.inr ⟨_, _, _, hd, hissue, rfl⟩))

end Membership

end Controller

end Statechart
