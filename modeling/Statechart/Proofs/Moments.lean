import Statechart.Proofs.Arena

/-! The points that a run of a chain passes through, and the choice among alternatives as a call
with an answer of its own. -/

namespace Statechart

@[simp] def Cursor.edges : {r : Role} → Cursor r → List EdgeHandle
  | _, .fresh e | _, .clause e | _, .forked e => [e]
  | _, .spread es => es

/-- A role at a point of a run, with the edges that the roles further out wait on. -/
structure Moment where
  role : Role
  cursor : Cursor role
  waiting : List EdgeHandle
  controller : Controller

/-- Alternatives are given as conditions, or as the tokens that a chain has kept. -/
inductive Choice where
  | each (conditions : Supply)
  | returned (inner : Chain Supply (.fresh false)) (slots : List String)

namespace Choice

def chain {timed : Bool} (next : Chain Supply .spread) : Choice → Chain Supply (.fresh timed)
  | each s => .whenAnyOf s next
  | returned inner slots => .whenAny inner slots next

def make (route : Route) (e : EdgeHandle) (w : Run) : Choice → Run × List Clause
  | each s => ((w.meet s.gaps).report (.anyOf s.conditions)).forkEach route e s.conditions
  | returned inner slots => (inner.run route (.fresh e) w).collect slots

def run (choice : Choice) (route : Route) (e : EdgeHandle) (w : Run) :
    Run × Except Fault (List EdgeHandle) :=
  (choice.make route e w).1.claim (w.controller.mark e) route (choice.make route e w).2

theorem run_chain (choice : Choice) (route : Route) {timed : Bool} (next : Chain Supply .spread)
    (e : EdgeHandle) (w : Run) :
    (choice.chain next : Chain Supply (.fresh timed)).run route (.fresh e) w =
      match choice.run route e (w.reportRole (r := .fresh timed) (.fresh e)) with
      | (w, .ok es) => next.run route (.spread es) w
      | (w, .error f) => w.report (.refused f) := by
  cases choice <;> rfl

end Choice

namespace Chain

/-- The points of a run: one in front of each call that is made, one behind the last call, and one
where each condition has got its edge and the edges are still to be claimed. -/
def moments (route : Route) :
    {r : Role} → Chain Supply r → Cursor r → List EdgeHandle → Run → List Moment
  | _, stop, k, es, w | _, unreadable _, k, es, w => [⟨_, k, es, w.controller⟩]
  | _, set edit next, k@(.fresh e), es, w =>
    ⟨_, k, es, w.controller⟩ :: next.moments route (.fresh e) es
      ((w.reportRole k).onController (·.modifySettings e (edit.apply ·)))
  | _, settle next, k@(.fresh e), es, w =>
    ⟨_, k, es, w.controller⟩ :: next.moments route (.fresh e) es (w.reportRole k)
  | _, when s next, k@(.fresh e), es, w =>
    ⟨_, k, es, w.controller⟩ :: next.moments route (.clause e) es ((w.reportRole k).append e s)
  | _, whenAll s next, k@(.fresh e), es, w =>
    ⟨_, k, es, w.controller⟩ ::
      next.moments route (.clause e) es ((w.reportRole k).appendSeries e s)
  | _, whenAlways next, k@(.fresh e), es, w =>
    ⟨_, k, es, w.controller⟩ :: next.moments route (.clause e) es (w.reportRole k)
  | _, whenWithOr inner next, k@(.fresh e), es, w =>
    ⟨_, k, es, w.controller⟩ :: inner.moments route (.fresh e) (e :: es) (w.reportRole k) ++
      next.moments route (.forked e) es (inner.run route (.fresh e) (w.reportRole k))
  | _, whenAnyOf s next, k@(.fresh e), es, w =>
    let choice := Choice.each s
    let made := choice.make route e (w.reportRole k)
    ⟨_, k, es, w.controller⟩ ::
      ⟨_, .spread (made.2.map (·.edge)), e :: es, made.1.controller⟩ ::
      match choice.run route e (w.reportRole k) with
      | (w, .ok fs) => next.moments route (.spread fs) es w
      | (_, .error _) => []
  | _, whenAny inner slots next, k@(.fresh e), es, w =>
    let choice := Choice.returned inner slots
    ⟨_, k, es, w.controller⟩ :: inner.moments route (.fresh e) (e :: es) (w.reportRole k) ++
      match choice.run route e (w.reportRole k) with
      | (w, .ok fs) => next.moments route (.spread fs) es w
      | (_, .error _) => []
  | _, and s next, k@(.clause e), es, w =>
    ⟨_, k, es, w.controller⟩ :: next.moments route (.clause e) es ((w.reportRole k).append e s)
  | _, andAll s next, k@(.clause e), es, w =>
    ⟨_, k, es, w.controller⟩ ::
      next.moments route (.clause e) es ((w.reportRole k).appendSeries e s)
  | _, keep slot next, k@(.clause e), es, w =>
    ⟨_, k, es, w.controller⟩ :: next.moments route (.clause e) es ((w.reportRole k).keep slot e)
  | _, or next, k@(.clause e), es, w =>
    let forked := (w.reportRole k).fork e route
    ⟨_, k, es, w.controller⟩ :: next.moments route (.fresh forked.2) es forked.1
  | _, orElse next, k@(.forked e), es, w =>
    let forked := (w.reportRole k).fork e route
    ⟨_, k, es, w.controller⟩ :: next.moments route (.fresh forked.2) es forked.1
  | _, andEach s next, k@(.spread fs), es, w =>
    ⟨_, k, es, w.controller⟩ ::
      next.moments route k es (fs.foldl (·.append · s) (w.reportRole k))
  | _, andAllEach s next, k@(.spread fs), es, w =>
    ⟨_, k, es, w.controller⟩ ::
      next.moments route k es (fs.foldl (·.appendSeries · s) (w.reportRole k))

theorem mem_moments (route : Route) {r : Role} (chain : Chain Supply r) (k : Cursor r)
    (es : List EdgeHandle) (w : Run) :
    (⟨r, k, es, w.controller⟩ : Moment) ∈ chain.moments route k es w := by
  cases chain <;> cases k <;> simp [moments]

/-- The edges of a run never get to more than handles can name. -/
def Fits (route : Route) {r : Role} (chain : Chain Supply r) (k : Cursor r) (es : List EdgeHandle)
    (w : Run) : Prop :=
  ∀ m ∈ chain.moments route k es w, m.controller.edges.length < 2 ^ 32

theorem Fits.length_lt {route : Route} {r : Role} {chain : Chain Supply r} {k : Cursor r}
    {es : List EdgeHandle} {w : Run} (h : chain.Fits route k es w) :
    w.controller.edges.length < 2 ^ 32 :=
  h _ (mem_moments route chain k es w)

/-- A run comes to a controller at one of its points or at its end. -/
def Passes (route : Route) {r : Role} (chain : Chain Supply r) (k : Cursor r)
    (es : List EdgeHandle) (w : Run) (d : Controller) : Prop :=
  d = (chain.run route k w).controller ∨ ∃ m ∈ chain.moments route k es w, m.controller = d

theorem Passes.later {route : Route} {r r' : Role} {chain : Chain Supply r}
    {next : Chain Supply r'} {k : Cursor r} {k' : Cursor r'} {es : List EdgeHandle} {w v : Run}
    {m : Moment} {d : Controller} (hrun : chain.run route k w = next.run route k' v)
    (hmoments : chain.moments route k es w = m :: next.moments route k' es v)
    (h : chain.Passes route k es w d) : d = m.controller ∨ next.Passes route k' es v d := by
  rcases h with rfl | ⟨m', hm', rfl⟩
  · exact .inr (.inl (by rw [hrun]))
  · rw [hmoments] at hm'
    rcases List.mem_cons.mp hm' with rfl | hm'
    · exact .inl rfl
    · exact .inr (.inr ⟨m', hm', rfl⟩)

end Chain

namespace Choice

/-- The points of a choice before its tokens are claimed. -/
def moments (route : Route) (e : EdgeHandle) (es : List EdgeHandle) (w : Run) :
    Choice → List Moment
  | each s =>
    let made := (each s).make route e w
    [⟨.spread, .spread (made.2.map (·.edge)), e :: es, made.1.controller⟩]
  | returned inner _ => inner.moments route (.fresh e) (e :: es) w

theorem moments_chain (choice : Choice) (route : Route) {timed : Bool} (next : Chain Supply .spread)
    (e : EdgeHandle) (es : List EdgeHandle) (w : Run) :
    (choice.chain next : Chain Supply (.fresh timed)).moments route (.fresh e) es w =
      ⟨.fresh timed, .fresh e, es, w.controller⟩ ::
        choice.moments route e es (w.reportRole (r := .fresh timed) (.fresh e)) ++
        match choice.run route e (w.reportRole (r := .fresh timed) (.fresh e)) with
        | (w, .ok fs) => next.moments route (.spread fs) es w
        | (_, .error _) => [] := by
  cases choice <;> rfl

def Fits (route : Route) (e : EdgeHandle) (es : List EdgeHandle) (w : Run) (choice : Choice) :
    Prop :=
  ∀ m ∈ choice.moments route e es w, m.controller.edges.length < 2 ^ 32

def Passes (route : Route) (e : EdgeHandle) (es : List EdgeHandle) (w : Run) (choice : Choice)
    (d : Controller) : Prop :=
  d = (choice.make route e w).1.controller ∨ ∃ m ∈ choice.moments route e es w, m.controller = d

theorem passes_chain {choice : Choice} {route : Route} {timed : Bool}
    {next : Chain Supply .spread} {e : EdgeHandle} {es : List EdgeHandle} {w v : Run}
    {d : Controller} (hv : w.reportRole (r := .fresh timed) (.fresh e) = v)
    (h : (choice.chain next : Chain Supply (.fresh timed)).Passes route (.fresh e) es w d) :
    d = w.controller ∨ choice.Passes route e es v d ∨
      match choice.run route e v with
      | (after, .ok fs) => next.Passes route (.spread fs) es after d
      | (after, .error _) => d = after.controller := by
  rw [Chain.Passes, run_chain, moments_chain, hv] at h
  cases hr : choice.run route e v with
  | mk after answer =>
    rw [hr] at h
    rcases h with h | ⟨m, hm, rfl⟩
    · cases answer with
      | error fault => exact .inr (.inr h)
      | ok fs => exact .inr (.inr (.inl h))
    · rw [List.cons_append, List.mem_cons, List.mem_append] at hm
      rcases hm with rfl | hm | hm
      · exact .inl rfl
      · exact .inr (.inl (.inr ⟨m, hm, rfl⟩))
      · cases answer with
        | error fault => cases hm
        | ok fs => exact .inr (.inr (.inr ⟨m, hm, rfl⟩))

end Choice

end Statechart
