import Statechart.Proofs.Rollback

/-! The choices among alternatives that a run makes, and the tokens that are kept meanwhile. A run
only adds to the tokens that there are, and keeps none but for its own controller. -/

namespace Statechart

/-- A choice that a run makes on an edge, with what there is when it is made. -/
structure Call where
  route : Route
  choice : Choice
  edge : EdgeHandle
  before : Run

namespace Call

section

variable (x : Call)

def made : Run × List Clause := x.choice.make x.route x.edge x.before

def answer : Except Fault (List EdgeHandle) := (x.choice.run x.route x.edge x.before).2

/-- The tokens that are kept while the alternatives are made, under the names they get. -/
def kept : List (String × Clause) :=
  x.made.1.tokens.take (x.made.1.tokens.length - x.before.tokens.length)

/-- Every token that is returned was kept while the alternatives were made. -/
def ReturnsOwn : Prop :=
  ∀ inner slots, x.choice = .returned inner slots → ∀ slot ∈ slots, ∀ t,
    x.made.1.tokens.lookup slot = some t → (slot, t) ∈ x.kept

/-- The choice is made if all tokens that it returns are its own, and refused if one is foreign. -/
def Honest : Prop :=
  x.ReturnsOwn ∧ (∃ es, x.answer = .ok es) ∨
    ¬x.ReturnsOwn ∧ ∃ f, x.answer = .error (.foreignClause f)

/-- The alternatives are taken back, and with them an edge that a token was kept for. -/
def Loses : Prop :=
  (∃ fault, x.answer = .error fault) ∧
    ∃ t ∈ x.kept, x.before.controller.edges.length ≤ t.2.edge.index

end

end Call

namespace Chain

def choices (route : Route) : {r : Role} → Chain Supply r → Cursor r → Run → List Call
  | _, stop, _, _ | _, unreadable _, _, _ => []
  | _, set edit next, k@(.fresh e), w =>
    next.choices route (.fresh e)
      ((w.reportRole k).onController (·.modifySettings e (edit.apply ·)))
  | _, settle next, k@(.fresh e), w => next.choices route (.fresh e) (w.reportRole k)
  | _, when s next, k@(.fresh e), w =>
    next.choices route (.clause e) ((w.reportRole k).append e s)
  | _, whenAll s next, k@(.fresh e), w =>
    next.choices route (.clause e) ((w.reportRole k).appendSeries e s)
  | _, whenAlways next, k@(.fresh e), w => next.choices route (.clause e) (w.reportRole k)
  | _, whenWithOr inner next, k@(.fresh e), w =>
    inner.choices route (.fresh e) (w.reportRole k) ++
      next.choices route (.forked e) (inner.run route (.fresh e) (w.reportRole k))
  | _, whenAnyOf s next, k@(.fresh e), w =>
    ⟨route, .each s, e, w.reportRole k⟩ ::
      match (Choice.each s).run route e (w.reportRole k) with
      | (w, .ok es) => next.choices route (.spread es) w
      | (_, .error _) => []
  | _, whenAny inner slots next, k@(.fresh e), w =>
    inner.choices route (.fresh e) (w.reportRole k) ++
      ⟨route, .returned inner slots, e, w.reportRole k⟩ ::
      match (Choice.returned inner slots).run route e (w.reportRole k) with
      | (w, .ok es) => next.choices route (.spread es) w
      | (_, .error _) => []
  | _, and s next, k@(.clause e), w => next.choices route (.clause e) ((w.reportRole k).append e s)
  | _, andAll s next, k@(.clause e), w =>
    next.choices route (.clause e) ((w.reportRole k).appendSeries e s)
  | _, keep slot next, k@(.clause e), w =>
    next.choices route (.clause e) ((w.reportRole k).keep slot e)
  | _, or next, k@(.clause e), w =>
    next.choices route (.fresh ((w.reportRole k).fork e route).2) ((w.reportRole k).fork e route).1
  | _, orElse next, k@(.forked e), w =>
    next.choices route (.fresh ((w.reportRole k).fork e route).2) ((w.reportRole k).fork e route).1
  | _, andEach s next, k@(.spread es), w =>
    next.choices route k (es.foldl (·.append · s) (w.reportRole k))
  | _, andAllEach s next, k@(.spread es), w =>
    next.choices route k (es.foldl (·.appendSeries · s) (w.reportRole k))

end Chain

namespace Choice

/-- The choices made in front of the one that a choice is itself. -/
def inside (route : Route) (e : EdgeHandle) (w : Run) : Choice → List Call
  | each _ => []
  | returned inner _ => inner.choices route (.fresh e) w

theorem choices_chain (choice : Choice) (route : Route) {timed : Bool}
    (next : Chain Supply .spread) (e : EdgeHandle) (w : Run) :
    (choice.chain next : Chain Supply (.fresh timed)).choices route (.fresh e) w =
      choice.inside route e (w.reportRole (r := .fresh timed) (.fresh e)) ++
        ⟨route, choice, e, w.reportRole (r := .fresh timed) (.fresh e)⟩ ::
        match choice.run route e (w.reportRole (r := .fresh timed) (.fresh e)) with
        | (w, .ok es) => next.choices route (.spread es) w
        | (_, .error _) => [] := by
  cases choice <;> rfl

end Choice

/-- Whatever is changed of the edges, the rest stays as it was. -/
theorem Controller.rest_trans {a b c : Controller} (first : b.withEdges a.edges = a)
    (second : c.withEdges b.edges = b) : c.withEdges a.edges = a := by
  rw [← second] at first
  exact first

namespace Run

/-- Further on in a run, with no token kept and no edge taken back or led elsewhere in between. -/
structure Widens (w v : Run) : Prop where
  rest : v.controller.withEdges w.controller.edges = w.controller
  tokens_eq : v.tokens = w.tokens
  edges : ∀ (i : Nat) (x : Edge), w.controller.edges[i]? = some x →
    ∃ y, v.controller.edges[i]? = some y ∧ y.route = x.route

namespace Widens

variable {u v w : Run}

theorem refl (w : Run) : w.Widens w := ⟨rfl, rfl, fun _ x hx => ⟨x, hx, rfl⟩⟩

theorem trans (first : u.Widens v) (second : v.Widens w) : u.Widens w where
  rest := Controller.rest_trans first.rest second.rest
  tokens_eq := second.tokens_eq.trans first.tokens_eq
  edges i x hx := by
    obtain ⟨y, hy, hroute⟩ := first.edges i x hx
    obtain ⟨z, hz, hroute'⟩ := second.edges i y hy
    exact ⟨z, hz, hroute'.trans hroute⟩

theorem id_eq (h : w.Widens v) : v.controller.id = w.controller.id := congrArg (·.id) h.rest

theorem length_le (h : w.Widens v) : w.controller.edges.length ≤ v.controller.edges.length := by
  refine Nat.le_of_not_lt fun hlt => ?_
  obtain ⟨y, hy, -⟩ := h.edges v.controller.edges.length _ (List.getElem?_eq_getElem hlt)
  simp at hy

theorem of_modify {i : Nat} {f : Edge → Edge}
    (he : v.controller.edges = w.controller.edges.modify i f) (hf : ∀ x, (f x).route = x.route)
    (hrest : v.controller.withEdges w.controller.edges = w.controller)
    (ht : v.tokens = w.tokens) : w.Widens v where
  rest := hrest
  tokens_eq := ht
  edges j x hx := by
    rw [he, List.getElem?_modify, hx]
    refine ⟨_, rfl, ?_⟩
    split
    · exact hf x
    · rfl

theorem reportRole (w : Run) {r : Role} (k : Cursor r) : w.Widens (w.reportRole k) := by
  refine ⟨by rw [controller_reportRole]; rfl, ?_, by simpa using (refl w).edges⟩
  cases k with
  | @fresh timed e => cases timed <;> rfl
  | _ => rfl

theorem append (w : Run) (e : EdgeHandle) (s : Supply) : w.Widens (w.append e s) :=
  .of_modify (w.controller.edges_appendConditions e s.conditions) (fun _ => rfl) rfl rfl

theorem appendSeries (w : Run) (e : EdgeHandle) (s : Series Supply) :
    w.Widens (w.appendSeries e s) := by
  rw [appendSeries_eq]
  exact .of_modify (w.controller.edges_appendConditions e _) (fun _ => rfl) rfl rfl

theorem modifySettings (w : Run) (e : EdgeHandle) (f : TransitionSettings → TransitionSettings) :
    w.Widens (w.onController (·.modifySettings e f)) :=
  .of_modify (w.controller.edges_modifySettings e f) (fun _ => rfl) rfl rfl

theorem fork (w : Run) (e : EdgeHandle) (route : Route) : w.Widens (w.fork e route).1 where
  rest := rfl
  tokens_eq := rfl
  edges i x hx := by
    have hlt := (List.getElem?_eq_some_iff.mp hx).1
    rw [controller_fork, Controller.edges_fork, List.getElem?_append_left hlt]
    exact ⟨x, hx, rfl⟩

theorem foldl {step : Run → EdgeHandle → Run} (hstep : ∀ (w : Run) (e : EdgeHandle),
    w.Widens (step w e)) (es : List EdgeHandle) (w : Run) : w.Widens (es.foldl step w) := by
  induction es generalizing w with
  | nil => exact .refl w
  | cons e es ih => exact (hstep w e).trans (ih _)

end Widens

/-- Later on in a run: the controller is the same one but for its edges, and the tokens kept since
are for it. -/
structure Follows (w v : Run) : Prop where
  rest : v.controller.withEdges w.controller.edges = w.controller
  tokens : ∃ new, v.tokens = new ++ w.tokens ∧ ∀ t ∈ new, t.2.controller = w.controller.id

namespace Follows

variable {u v w : Run}

theorem of_tokens_eq (hrest : v.controller.withEdges w.controller.edges = w.controller)
    (ht : v.tokens = w.tokens) : w.Follows v :=
  ⟨hrest, [], ht, nofun⟩

theorem id_eq (h : w.Follows v) : v.controller.id = w.controller.id := congrArg (·.id) h.rest

theorem trans (first : u.Follows v) (second : v.Follows w) : u.Follows w := by
  obtain ⟨new, hnew, hids⟩ := first.tokens
  obtain ⟨more, hmore, hids'⟩ := second.tokens
  refine ⟨Controller.rest_trans first.rest second.rest, more ++ new, ?_, fun t ht => ?_⟩
  · rw [hmore, hnew, List.append_assoc]
  · rcases List.mem_append.mp ht with ht | ht
    · exact (hids' t ht).trans first.id_eq
    · exact hids t ht

theorem keep (w : Run) (slot : String) (e : EdgeHandle) : w.Follows (w.keep slot e) :=
  ⟨rfl, [(slot, ⟨w.controller.id, e⟩)], rfl, by simp⟩

theorem claim (w : Run) (m : Mark) (route : Route) (ts : List Clause) :
    w.Follows (w.claim m route ts).1 := by
  cases h : w.controller.claim m route ts [] with
  | ok es =>
    simp only [Run.claim, h]
    exact of_tokens_eq rfl rfl
  | error fault =>
    simp only [Run.claim, h]
    exact of_tokens_eq rfl rfl

end Follows

theorem Widens.follows {w v : Run} (h : w.Widens v) : w.Follows v :=
  .of_tokens_eq h.rest h.tokens_eq

end Run

theorem Controller.rest_forkEach (c : Controller) (route : Route) (e : EdgeHandle)
    (cs : List Condition) : (c.forkEach route e cs).1.withEdges c.edges = c := by
  induction cs generalizing c e with
  | nil => rfl
  | cons x cs ih =>
    cases cs with
    | nil => rfl
    | cons y ys =>
      exact Controller.rest_trans (b := ((c.appendConditions e [x]).fork e route).1) rfl (ih _ _)

namespace Choice

variable {route : Route} {e : EdgeHandle} {w : Run}

theorem follows_run (choice : Choice) (hmade : w.Follows (choice.make route e w).1) :
    w.Follows (choice.run route e w).1 :=
  hmade.trans (.claim _ _ route _)

theorem follows_chain (choice : Choice) {next : Chain Supply .spread} {timed : Bool}
    (hmade : ∀ v : Run, v.Follows (choice.make route e v).1)
    (hnext : ∀ (es : List EdgeHandle) (v : Run), v.Follows (next.run route (.spread es) v)) :
    w.Follows
      ((choice.chain next : Chain Supply (.fresh timed)).run route (.fresh e) w) := by
  rw [run_chain]
  refine (Run.Widens.reportRole w (r := .fresh timed) (.fresh e)).follows.trans ?_
  have hrun := choice.follows_run (hmade (w.reportRole (r := .fresh timed) (.fresh e)))
  cases hr : choice.run route e (w.reportRole (r := .fresh timed) (.fresh e)) with
  | mk after answer =>
    rw [hr] at hrun
    cases answer with
    | ok es => exact hrun.trans (hnext es after)
    | error fault => exact hrun.trans (.of_tokens_eq rfl rfl)

end Choice

namespace Chain

theorem follows_run (route : Route) {r : Role} (chain : Chain Supply r) (k : Cursor r) (w : Run) :
    w.Follows (chain.run route k w) := by
  induction chain generalizing w with
  | stop => exact (Run.Widens.reportRole w k).follows
  | unreadable reason =>
    exact (Run.Widens.reportRole w k).follows.trans (.of_tokens_eq rfl rfl)
  | set edit next ih =>
    cases k with | fresh e =>
    exact ((Run.Widens.reportRole w _).trans (.modifySettings _ e _)).follows.trans (ih _ _)
  | settle next ih | whenAlways next ih =>
    cases k with | fresh e =>
    exact (Run.Widens.reportRole w _).follows.trans (ih _ _)
  | when s next ih =>
    cases k with | fresh e =>
    exact ((Run.Widens.reportRole w _).trans (.append _ e s)).follows.trans (ih _ _)
  | whenAll s next ih =>
    cases k with | fresh e =>
    exact ((Run.Widens.reportRole w _).trans (.appendSeries _ e s)).follows.trans (ih _ _)
  | and s next ih =>
    cases k with | clause e =>
    exact ((Run.Widens.reportRole w _).trans (.append _ e s)).follows.trans (ih _ _)
  | andAll s next ih =>
    cases k with | clause e =>
    exact ((Run.Widens.reportRole w _).trans (.appendSeries _ e s)).follows.trans (ih _ _)
  | keep slot next ih =>
    cases k with | clause e =>
    exact ((Run.Widens.reportRole w _).follows.trans (.keep _ slot e)).trans (ih _ _)
  | or next ih =>
    cases k with | clause e =>
    exact ((Run.Widens.reportRole w _).trans (.fork _ e route)).follows.trans (ih _ _)
  | orElse next ih =>
    cases k with | forked e =>
    exact ((Run.Widens.reportRole w _).trans (.fork _ e route)).follows.trans (ih _ _)
  | andEach s next ih =>
    cases k with | spread es =>
    have hspread := Run.Widens.foldl (fun v e => .append v e s) es (w.reportRole (.spread es))
    exact ((Run.Widens.reportRole w _).trans hspread).follows.trans (ih _ _)
  | andAllEach s next ih =>
    cases k with | spread es =>
    have hspread := Run.Widens.foldl (fun v e => .appendSeries v e s) es (w.reportRole (.spread es))
    exact ((Run.Widens.reportRole w _).trans hspread).follows.trans (ih _ _)
  | whenWithOr inner next ihInner ih =>
    cases k with | fresh e =>
    exact ((Run.Widens.reportRole w _).follows.trans (ihInner _ _)).trans (ih _ _)
  | whenAnyOf s next ih =>
    cases k with | fresh e =>
    exact (Choice.each s).follows_chain (fun v => .of_tokens_eq (v.controller.rest_forkEach ..) rfl)
      fun es v => ih _ v
  | whenAny inner slots next ihInner ih =>
    cases k with | fresh e =>
    exact (Choice.returned inner slots).follows_chain
      (fun v => (ihInner (.fresh e) v).trans (.of_tokens_eq rfl rfl)) fun es v => ih _ v

end Chain

end Statechart
