import Statechart.Chain
import Statechart.Supply

/-! The disjunctive normal form of a chain: the clauses that its calls describe, one for each edge,
beside the guard that the calls read as. Both are recursions on the chain and know nothing of
edges. -/

namespace Statechart

def Series.conditions : Series Supply → List Condition
  | done => []
  | and s next => s.conditions ++ next.conditions
  | nested inner next => inner.conditions ++ next.conditions

@[simp] theorem Series.flatten_map_conditions (s : Series Supply) :
    (s.map (·.conditions)).flatten = s.conditions := by
  induction s with
  | done => rfl
  | and s next ih => simp only [map, flatten, conditions, ih]
  | nested inner next ihInner ih => simp only [map, flatten, conditions, ihInner, ih]

/-- One clause for each condition. Without any there is still a clause, which asks for nothing. -/
def alternatives : List Condition → List (List Condition)
  | [] => [[]]
  | x :: xs => (x :: xs).map ([·])

namespace Chain

variable {σ : Type}

/-- No call of a chain chooses its alternatives by tokens. -/
def Tokenless : {r : Role} → Chain σ r → Prop
  | _, stop | _, unreadable _ => True
  | _, set _ next | _, settle next | _, when _ next | _, whenAll _ next | _, whenAlways next
  | _, whenAnyOf _ next | _, and _ next | _, andAll _ next | _, keep _ next | _, or next
  | _, orElse next | _, andEach _ next | _, andAllEach _ next => next.Tokenless
  | _, whenWithOr inner next => inner.Tokenless ∧ next.Tokenless
  | _, whenAny _ _ _ => False

def edits : {r : Role} → Chain σ r → List SettingsEdit
  | _, set edit next => edit :: next.edits
  | _, _ => []

/-- How many edges a chain adds: one for each further alternative, and one for each condition behind
the first where any of them is enough. -/
def forks : {r : Role} → Chain Supply r → Nat
  | _, stop | _, unreadable _ | _, whenAny _ _ _ => 0
  | _, set _ next | _, settle next | _, when _ next | _, whenAll _ next | _, whenAlways next
  | _, and _ next | _, andAll _ next | _, keep _ next | _, andEach _ next
  | _, andAllEach _ next => next.forks
  | _, whenWithOr inner next => inner.forks + next.forks
  | _, whenAnyOf s next => (s.conditions.length - 1) + next.forks
  | _, or next | _, orElse next => next.forks + 1

/-- The clauses of a chain, given those of the edges it begins with. What is required in addition
goes to every clause at hand, and a further alternative begins with a clause that asks for nothing.
Chains that choose their alternatives by tokens are not described. -/
def dnf : {r : Role} → Chain Supply r → List (List Condition) → List (List Condition)
  | _, stop, ds | _, unreadable _, ds | _, whenAny _ _ _, ds => ds
  | _, set _ next, ds | _, settle next, ds | _, whenAlways next, ds | _, keep _ next, ds =>
    next.dnf ds
  | _, when s next, ds | _, and s next, ds | _, andEach s next, ds =>
    next.dnf (ds.map (· ++ s.conditions))
  | _, whenAll s next, ds | _, andAll s next, ds | _, andAllEach s next, ds =>
    next.dnf (ds.map (· ++ s.conditions))
  | _, whenWithOr inner next, ds => next.dnf (inner.dnf ds)
  | _, whenAnyOf s next, ds =>
    next.dnf (ds.flatMap fun d => (alternatives s.conditions).map (d ++ ·))
  | _, or next, ds | _, orElse next, ds => ds ++ next.dnf [[]]

/-- The truth of the guard that a chain reads as, where `p` is the truth of what was required so
far. -/
def Holds (v : Condition → Prop) : {r : Role} → Chain Supply r → Prop → Prop
  | _, stop, p | _, unreadable _, p | _, whenAny _ _ _, p => p
  | _, set _ next, p | _, settle next, p | _, whenAlways next, p | _, keep _ next, p =>
    next.Holds v p
  | _, when s next, p | _, and s next, p | _, andEach s next, p =>
    next.Holds v (p ∧ ∀ x ∈ s.conditions, v x)
  | _, whenAll s next, p | _, andAll s next, p | _, andAllEach s next, p =>
    next.Holds v (p ∧ ∀ x ∈ s.conditions, v x)
  | _, whenWithOr inner next, p => next.Holds v (inner.Holds v p)
  | _, whenAnyOf s next, p =>
    next.Holds v (p ∧ (s.conditions = [] ∨ ∃ x ∈ s.conditions, v x))
  | _, or next, p | _, orElse next, p => p ∨ next.Holds v True

@[simp] theorem edits_eq_nil {r : Role} (chain : Chain σ r) (h : r ≠ .fresh true) :
    chain.edits = [] := by
  cases chain with
  | set edit next => exact absurd rfl h
  | _ => rfl

end Chain

def SomeHolds (v : Condition → Prop) (ds : List (List Condition)) : Prop :=
  ∃ d ∈ ds, ∀ x ∈ d, v x

namespace SomeHolds

variable {v : Condition → Prop}

theorem append {ds ds' : List (List Condition)} :
    SomeHolds v (ds ++ ds') ↔ SomeHolds v ds ∨ SomeHolds v ds' := by
  simp only [SomeHolds, List.mem_append, or_and_right, exists_or]

theorem nothing : SomeHolds v [[]] ↔ True := by
  simp [SomeHolds]

theorem map_append {ds : List (List Condition)} {cs : List Condition} :
    SomeHolds v (ds.map (· ++ cs)) ↔ SomeHolds v ds ∧ ∀ x ∈ cs, v x := by
  constructor
  · rintro ⟨_, hm, h⟩
    obtain ⟨d, hd, rfl⟩ := List.mem_map.mp hm
    exact ⟨⟨d, hd, fun x hx => h x (List.mem_append_left _ hx)⟩,
      fun x hx => h x (List.mem_append_right _ hx)⟩
  · rintro ⟨⟨d, hd, h⟩, hc⟩
    refine ⟨d ++ cs, List.mem_map.mpr ⟨d, hd, rfl⟩, fun x hx => ?_⟩
    exact (List.mem_append.mp hx).elim (h x) (hc x)

theorem alternatives {cs : List Condition} :
    SomeHolds v (alternatives cs) ↔ cs = [] ∨ ∃ x ∈ cs, v x := by
  cases cs with
  | nil => simp [Statechart.alternatives, SomeHolds]
  | cons x xs =>
    simp only [Statechart.alternatives, SomeHolds, List.mem_map, reduceCtorEq, false_or]
    constructor
    · rintro ⟨_, ⟨y, hy, rfl⟩, h⟩
      exact ⟨y, hy, h y (List.mem_singleton_self y)⟩
    · rintro ⟨y, hy, h⟩
      exact ⟨[y], ⟨y, hy, rfl⟩, fun z hz => List.mem_singleton.mp hz ▸ h⟩

/-- The conjunction of two disjunctions, multiplied out. -/
theorem flatMap_append {ds es : List (List Condition)} :
    SomeHolds v (ds.flatMap fun d => es.map (d ++ ·)) ↔ SomeHolds v ds ∧ SomeHolds v es := by
  constructor
  · rintro ⟨_, hm, h⟩
    obtain ⟨d, hd, hm⟩ := List.mem_flatMap.mp hm
    obtain ⟨e, he, rfl⟩ := List.mem_map.mp hm
    exact ⟨⟨d, hd, fun x hx => h x (List.mem_append_left _ hx)⟩,
      ⟨e, he, fun x hx => h x (List.mem_append_right _ hx)⟩⟩
  · rintro ⟨⟨d, hd, h⟩, ⟨e, he, h'⟩⟩
    refine ⟨d ++ e, List.mem_flatMap.mpr ⟨d, hd, List.mem_map.mpr ⟨e, he, rfl⟩⟩, fun x hx => ?_⟩
    exact (List.mem_append.mp hx).elim (h x) (h' x)

end SomeHolds

namespace Chain

/-- The normal form of a chain is true exactly where the guard that the chain reads as is true. -/
theorem someHolds_dnf (v : Condition → Prop) {r : Role} (chain : Chain Supply r)
    (ds : List (List Condition)) :
    SomeHolds v (chain.dnf ds) ↔ chain.Holds v (SomeHolds v ds) := by
  induction chain generalizing ds with
  | stop | unreadable => exact Iff.rfl
  | whenAny => exact Iff.rfl
  | set _ _ ih | settle _ ih | whenAlways _ ih | keep _ _ ih => exact ih ds
  | when _ _ ih | and _ _ ih | andEach _ _ ih => simp only [dnf, Holds, ih, SomeHolds.map_append]
  | whenAll _ _ ih | andAll _ _ ih | andAllEach _ _ ih =>
    simp only [dnf, Holds, ih, SomeHolds.map_append]
  | whenWithOr _ _ ihInner ih => simp only [dnf, Holds, ih, ihInner]
  | whenAnyOf s _ ih =>
    simp only [dnf, Holds, ih, SomeHolds.flatMap_append, SomeHolds.alternatives]
  | or _ ih | orElse _ ih =>
    simp only [dnf, Holds, ih, SomeHolds.append, SomeHolds.nothing]

end Chain

end Statechart
