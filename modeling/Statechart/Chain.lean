import Statechart.TransitionSettings

/-! Chains of calls that give a transition its conditions. A chain is typed by the role it starts
in, so that it can only make the calls which that role offers. -/

namespace Statechart

/-- A fresh edge has no conditions yet, and may still have its settings changed where it is timed.
A clause is an edge that takes further conditions. Behind a forked series only another alternative
can follow, and conditions on spread edges go to all of them. -/
inductive Role where
  | fresh (timed : Bool)
  | clause
  | forked
  | spread
  deriving DecidableEq

/-- Conditions that all go to one edge; a series may contain another one. -/
inductive Series (σ : Type) where
  | done
  | and (conditions : σ) (next : Series σ)
  | nested (inner next : Series σ)

/-- Calls on a transition, with conditions given by `σ`. A chain may end in a call that its role
does not offer, as long as that call is never reached. -/
inductive Chain (σ : Type) : Role → Type where
  | stop {r : Role} : Chain σ r
  | unreadable {r : Role} (reason : String) : Chain σ r
  | set (edit : SettingsEdit) (next : Chain σ (.fresh true)) : Chain σ (.fresh true)
  | settle (next : Chain σ (.fresh false)) : Chain σ (.fresh true)
  | when {timed : Bool} (conditions : σ) (next : Chain σ .clause) : Chain σ (.fresh timed)
  | whenAll {timed : Bool} (series : Series σ) (next : Chain σ .clause) : Chain σ (.fresh timed)
  | whenAlways {timed : Bool} (next : Chain σ .clause) : Chain σ (.fresh timed)
  | whenWithOr {timed : Bool} (inner : Chain σ (.fresh false)) (next : Chain σ .forked) :
      Chain σ (.fresh timed)
  | whenAnyOf {timed : Bool} (conditions : σ) (next : Chain σ .spread) : Chain σ (.fresh timed)
  | whenAny {timed : Bool} (inner : Chain σ (.fresh false)) (returned : List String)
      (next : Chain σ .spread) : Chain σ (.fresh timed)
  | and (conditions : σ) (next : Chain σ .clause) : Chain σ .clause
  | andAll (series : Series σ) (next : Chain σ .clause) : Chain σ .clause
  | keep (slot : String) (next : Chain σ .clause) : Chain σ .clause
  | or (next : Chain σ (.fresh false)) : Chain σ .clause
  | orElse (next : Chain σ (.fresh false)) : Chain σ .forked
  | andEach (conditions : σ) (next : Chain σ .spread) : Chain σ .spread
  | andAllEach (series : Series σ) (next : Chain σ .spread) : Chain σ .spread

namespace Series

variable {σ τ : Type}

instance : Inhabited (Series σ) := ⟨done⟩

/-- The number of calls in a series, those of the series inside it included. -/
def size : Series σ → Nat
  | done => 0
  | and _ next => next.size + 1
  | nested inner next => inner.size + next.size + 1

/-- What a series adds, from left to right. -/
def flatten : Series (List τ) → List τ
  | done => []
  | and cs next => cs ++ next.flatten
  | nested inner next => inner.flatten ++ next.flatten

def map (f : σ → τ) : Series σ → Series τ
  | done => done
  | and cs next => and (f cs) (next.map f)
  | nested inner next => nested (inner.map f) (next.map f)

end Series

namespace Chain

variable {σ τ : Type}

instance {r : Role} : Inhabited (Chain σ r) := ⟨stop⟩

def map (f : σ → τ) : {r : Role} → Chain σ r → Chain τ r
  | _, stop => stop
  | _, unreadable reason => unreadable reason
  | _, set edit next => set edit (next.map f)
  | _, settle next => settle (next.map f)
  | _, when cs next => when (f cs) (next.map f)
  | _, whenAll s next => whenAll (s.map f) (next.map f)
  | _, whenAlways next => whenAlways (next.map f)
  | _, whenWithOr inner next => whenWithOr (inner.map f) (next.map f)
  | _, whenAnyOf cs next => whenAnyOf (f cs) (next.map f)
  | _, whenAny inner slots next => whenAny (inner.map f) slots (next.map f)
  | _, and cs next => and (f cs) (next.map f)
  | _, andAll s next => andAll (s.map f) (next.map f)
  | _, keep slot next => keep slot (next.map f)
  | _, or next => or (next.map f)
  | _, orElse next => orElse (next.map f)
  | _, andEach cs next => andEach (f cs) (next.map f)
  | _, andAllEach s next => andAllEach (s.map f) (next.map f)

end Chain

end Statechart
