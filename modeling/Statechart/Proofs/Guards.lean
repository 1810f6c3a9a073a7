import Statechart.Proofs.Concerns

/-! Where the conditions on edges come from: operations put none there but those that they are
given. -/

namespace Statechart

/-- All conditions that the calls of a chain are given. -/
def Chain.conditions : {r : Role} → Chain Supply r → List Condition
  | _, stop | _, unreadable _ => []
  | _, set _ next | _, settle next | _, whenAlways next | _, keep _ next | _, or next
  | _, orElse next => next.conditions
  | _, when s next | _, whenAnyOf s next | _, and s next | _, andEach s next =>
    s.conditions ++ next.conditions
  | _, whenAll s next | _, andAll s next | _, andAllEach s next => s.conditions ++ next.conditions
  | _, whenWithOr inner next | _, whenAny inner _ next => inner.conditions ++ next.conditions

def Action.conditions : Action → List Condition
  | appendCondition _ x => [x]
  | _ => []

/-- All conditions that an operation is given. -/
def Operation.conditions : Operation → List Condition
  | act a => a.conditions
  | change _ _ _ => []
  | travel _ chain _ => chain.conditions

namespace Controller

/-- Every condition of an edge is as it should be. -/
def GuardedBy (P : Condition → Prop) (c : Controller) : Prop :=
  ∀ x ∈ c.edges, ∀ y ∈ x.conditions, P y

namespace GuardedBy

variable {P : Condition → Prop} {c d : Controller}

theorem imp {Q : Condition → Prop} (h : c.GuardedBy P) (hQ : ∀ y, P y → Q y) : c.GuardedBy Q :=
  fun x hx y hy => hQ y (h x hx y hy)

theorem of_edges_eq (h : c.GuardedBy P) (he : d.edges = c.edges) : d.GuardedBy P := by
  rwa [GuardedBy, he]

theorem concat (h : c.GuardedBy P) {x : Edge} (hx : x.conditions = []) :
    (c.withEdges (c.edges ++ [x])).GuardedBy P := by
  intro z hz
  rcases List.mem_append.mp hz with hz | hz
  · exact h z hz
  · rw [List.mem_singleton.mp hz, hx]
    exact fun _ hy => absurd hy List.not_mem_nil

theorem modifyEdge (h : c.GuardedBy P) (e : EdgeHandle) {f : Edge → Edge}
    (hf : ∀ x, ∀ y ∈ (f x).conditions, y ∈ x.conditions ∨ P y) :
    (c.modifyEdge e f).GuardedBy P := by
  intro z hz y hy
  obtain ⟨i, hi⟩ := List.getElem?_of_mem hz
  rw [Controller.modifyEdge, List.getElem?_modify] at hi
  obtain ⟨x, hx, rfl⟩ := Option.map_eq_some_iff.mp hi
  have hold := h x (List.mem_of_getElem? hx)
  split at hy
  · exact (hf x y hy).elim (hold y) fun hnew => hnew
  · exact hold y hy

theorem appendConditions (h : c.GuardedBy P) (e : EdgeHandle) {cs : List Condition}
    (hcs : ∀ y ∈ cs, P y) : (c.appendConditions e cs).GuardedBy P :=
  h.modifyEdge e fun _ y hy => (List.mem_append.mp hy).imp_right (hcs y)

theorem modifySettings (h : c.GuardedBy P) (e : EdgeHandle)
    (f : TransitionSettings → TransitionSettings) : (c.modifySettings e f).GuardedBy P :=
  h.modifyEdge e fun _ _ hy => .inl hy

theorem rollback (h : c.GuardedBy P) (m : Mark) : (c.rollback m).GuardedBy P := by
  have htake : (c.withEdges (c.edges.take m.next)).GuardedBy P :=
    fun x hx => h x (List.mem_of_mem_take hx)
  exact htake.modifyEdge m.start fun _ _ hy => .inl (List.mem_of_mem_take hy)

theorem fork (h : c.GuardedBy P) (e : EdgeHandle) (route : Route) :
    (c.fork e route).1.GuardedBy P :=
  h.concat rfl

theorem forkEach (h : c.GuardedBy P) (route : Route) (e : EdgeHandle) {cs : List Condition}
    (hcs : ∀ y ∈ cs, P y) : (c.forkEach route e cs).1.GuardedBy P := by
  induction cs generalizing c e with
  | nil => exact h
  | cons x cs ih =>
    obtain ⟨hx, hcs⟩ := List.forall_mem_cons.mp hcs
    have hfirst : (c.appendConditions e [x]).GuardedBy P := h.appendConditions e (by simpa using hx)
    cases cs with
    | nil => exact hfirst
    | cons y ys => exact ih (hfirst.fork e route) _ hcs

theorem foldl {w : Run} {step : Run → EdgeHandle → Run} {cs : List Condition}
    (hstep : ∀ w f, (step w f).controller = w.controller.appendConditions f cs)
    (hcs : ∀ y ∈ cs, P y) (es : List EdgeHandle) (h : w.controller.GuardedBy P) :
    (es.foldl step w).controller.GuardedBy P := by
  induction es generalizing w with
  | nil => exact h
  | cons e es ih =>
    refine ih ?_
    rw [hstep]
    exact h.appendConditions e hcs

theorem claim {w : Run} (h : w.controller.GuardedBy P) (m : Mark) (route : Route)
    (ts : List Clause) : (w.claim m route ts).1.controller.GuardedBy P := by
  cases hc : w.controller.claim m route ts [] with
  | ok es => simpa only [Run.claim, hc] using h
  | error fault =>
    simp only [Run.claim, hc]
    exact h.rollback m

end GuardedBy

end Controller

section Runs

variable {P : Condition → Prop}

theorem Choice.guardedBy_chain (choice : Choice) {route : Route} {e : EdgeHandle} {w : Run}
    {next : Chain Supply .spread} {timed : Bool} (hw : w.controller.GuardedBy P)
    (hmade : ∀ v : Run, v.controller.GuardedBy P →
      (choice.make route e v).1.controller.GuardedBy P)
    (hnext : ∀ (es : List EdgeHandle) (v : Run), v.controller.GuardedBy P →
      (next.run route (.spread es) v).controller.GuardedBy P) :
    ((choice.chain next : Chain Supply (.fresh timed)).run route (.fresh e)
      w).controller.GuardedBy P := by
  rw [run_chain]
  have hrun : (choice.run route e
      (w.reportRole (r := .fresh timed) (.fresh e))).1.controller.GuardedBy P :=
    (hmade _ (by simpa using hw)).claim _ _ _
  cases hr : choice.run route e (w.reportRole (r := .fresh timed) (.fresh e)) with
  | mk after answer =>
    rw [hr] at hrun
    cases answer with
    | ok es => exact hnext es after hrun
    | error fault => exact hrun

/-- A run puts no conditions on edges but those that its calls are given. -/
theorem Chain.guardedBy_run (route : Route) {r : Role} (chain : Chain Supply r)
    (hchain : ∀ y ∈ chain.conditions, P y) (k : Cursor r) (w : Run)
    (hw : w.controller.GuardedBy P) : (chain.run route k w).controller.GuardedBy P := by
  have hrole {r : Role} (k : Cursor r) {w : Run} (hw : w.controller.GuardedBy P) :
      (w.reportRole k).controller.GuardedBy P := by
    rwa [Run.controller_reportRole]
  have hseries {w : Run} (hw : w.controller.GuardedBy P) (e : EdgeHandle) {s : Series Supply}
      (hs : ∀ y ∈ s.conditions, P y) : (w.appendSeries e s).controller.GuardedBy P := by
    rw [Run.controller_appendSeries, s.flatten_map_conditions]
    exact hw.appendConditions e hs
  induction chain generalizing w with
  | stop | unreadable => exact hrole k hw
  | set edit next ih =>
    cases k with | fresh e =>
    exact ih hchain _ _ ((hrole (r := .fresh true) _ hw).modifySettings e _)
  | settle next ih | whenAlways next ih =>
    cases k with | fresh e => exact ih hchain _ _ (hrole _ hw)
  | keep slot next ih =>
    cases k with | clause e => exact ih hchain _ _ (hrole (r := .clause) _ hw)
  | or next ih =>
    cases k with | clause e => exact ih hchain _ _ ((hrole (r := .clause) _ hw).fork e route)
  | orElse next ih =>
    cases k with | forked e => exact ih hchain _ _ ((hrole (r := .forked) _ hw).fork e route)
  | when s next ih =>
    cases k with | fresh e =>
    obtain ⟨hs, hnext⟩ := List.forall_mem_append.mp hchain
    exact ih hnext _ _ ((hrole _ hw).appendConditions e hs)
  | and s next ih =>
    cases k with | clause e =>
    obtain ⟨hs, hnext⟩ := List.forall_mem_append.mp hchain
    exact ih hnext _ _ ((hrole (r := .clause) _ hw).appendConditions e hs)
  | whenAll s next ih =>
    cases k with | fresh e =>
    obtain ⟨hs, hnext⟩ := List.forall_mem_append.mp hchain
    exact ih hnext _ _ (hseries (hrole _ hw) e hs)
  | andAll s next ih =>
    cases k with | clause e =>
    obtain ⟨hs, hnext⟩ := List.forall_mem_append.mp hchain
    exact ih hnext _ _ (hseries (hrole (r := .clause) _ hw) e hs)
  | andEach s next ih =>
    cases k with | spread es =>
    obtain ⟨hs, hnext⟩ := List.forall_mem_append.mp hchain
    exact ih hnext _ _ (.foldl (fun _ _ => rfl) hs es (hrole (r := .spread) _ hw))
  | andAllEach s next ih =>
    cases k with | spread es =>
    obtain ⟨hs, hnext⟩ := List.forall_mem_append.mp hchain
    exact ih hnext _ _ (.foldl (fun _ _ => by simp) hs es (hrole (r := .spread) _ hw))
  | whenWithOr inner next ihInner ih =>
    cases k with | fresh e =>
    obtain ⟨hinner, hnext⟩ := List.forall_mem_append.mp hchain
    exact ih hnext _ _ (ihInner hinner _ _ (hrole _ hw))
  | whenAnyOf s next ih =>
    cases k with | fresh e =>
    obtain ⟨hs, hnext⟩ := List.forall_mem_append.mp hchain
    exact (Choice.each s).guardedBy_chain hw (fun v hv => hv.forkEach route e hs)
      fun es v hv => ih hnext _ v hv
  | whenAny inner slots next ihInner ih =>
    cases k with | fresh e =>
    obtain ⟨hinner, hnext⟩ := List.forall_mem_append.mp hchain
    exact (Choice.returned inner slots).guardedBy_chain hw
      (fun v hv => ihInner hinner (.fresh e) v hv) fun es v hv => ih hnext _ v hv

end Runs

namespace Work

variable {α : Type} {P : Condition → Prop}

theorem Within.guardedBy {p : Part} {w : Work α} (h : w.Within p) (hp : p ≠ .edges) :
    w.Preserves (Controller.GuardedBy P) :=
  fun c hc => hc.of_edges_eq (congrArg (·.edges) (h.spares .edges hp.symm c))

/-- An edge that is new has no conditions. -/
theorem guardedBy_createEdge (machine : MachineHandle) (route : Route) :
    (grow (·.createEdge machine route)).Preserves (Controller.GuardedBy P) :=
  .of_grow fun _ hc => hc.concat rfl

theorem guardedBy_start (o : Opening) : (start o).Preserves (Controller.GuardedBy P) :=
  .bind (.of_ask _) fun _ => .bind (guardedBy_createEdge _ _) fun _ => .of_pure _

theorem guardedBy_restart (m : MachineHandle) :
    (restart m).Preserves (Controller.GuardedBy P) :=
  .bind (.of_ask _) fun _ => .bind (.of_ask _) fun _ => guardedBy_createEdge _ _

theorem guardedBy_moveAutomatically (s : StateHandle) (target : Endpoint) :
    (moveAutomatically s target).Preserves (Controller.GuardedBy P) := by
  rw [moveAutomatically]
  split
  · exact .of_throw _
  · exact .bind (guardedBy_start _) fun _ =>
      .bind (.of_modify fun _ hc => hc.modifySettings _ _) fun _ => .of_pure _

theorem guardedBy_cloneEdge (e : EdgeHandle) (source target : Endpoint) :
    (cloneEdge e source target).Preserves (Controller.GuardedBy P) := by
  refine .bind (.of_ask _) fun x => .bind (.of_ask _) fun r => ?_
  split
  · exact .of_grow fun _ hc => hc.fork e r
  · exact .of_throw _

theorem guardedBy_appendCondition {x : Condition} (hx : P x) (e : EdgeHandle) :
    (appendCondition e x).Preserves (Controller.GuardedBy P) :=
  .bind (.of_ask _) fun _ => .of_modify fun _ hc =>
    hc.appendConditions e fun _ hy => List.mem_singleton.mp hy ▸ hx

end Work

/-- An action puts no conditions on edges but those that it is given. -/
theorem Action.guardedBy_work {P : Condition → Prop} (a : Action) (ha : ∀ y ∈ a.conditions, P y) :
    a.work.Preserves (Controller.GuardedBy P) := by
  cases hpart : a.part? with
  | none => exact a.preserves_of_growing (fun _ _ _ hc => hc.of_edges_eq rfl) hpart
  | some p =>
    by_cases hp : Part.edges = p
    · subst hp
      cases a with
      | appendCondition e x =>
        exact .then_ask (Work.guardedBy_appendCondition (ha x (List.mem_singleton_self x)) e) _ _
      | restart m => exact .then_pure (Work.guardedBy_restart m) _
      | moveAutomatically s target =>
        exact .then_ask (Work.guardedBy_moveAutomatically s target) _ _
      | cloneEdge e source target => exact .then_ask (Work.guardedBy_cloneEdge e source target) _ _
      | _ => cases hpart
    · exact fun c hc => hc.of_edges_eq (congrArg (·.edges) (a.leaves_work hpart hp _ c rfl))

namespace Operation

variable {P : Condition → Prop} {c : Controller}

theorem guardedBy_apply (op : Operation) (hop : ∀ y ∈ op.conditions, P y)
    (hc : c.GuardedBy P) : (op.apply c).GuardedBy P := by
  refine Work.Preserves.apply ?_ hc
  cases op with
  | act a => exact .discard (a.guardedBy_work hop)
  | change n kind f => exact (Work.within_attach n kind f).guardedBy nofun
  | travel o chain tokens =>
    exact .bind (Work.guardedBy_start o) fun _ => .of_modify fun _ hd =>
      chain.guardedBy_run _ hop _ _ hd

end Operation

end Statechart
