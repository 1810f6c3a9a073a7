import Statechart.Proofs.Parts
import Statechart.Proofs.Preserving

/-! Work that keeps within a part of a controller: it changes nothing else, and does the same
wherever that part is the same. -/

namespace Statechart

namespace Work

variable {α β : Type}

/-- Work that changes nothing outside of a part, and does what it does to that part alone, with the
same answer, where the other parts are blank. -/
structure Within (p : Part) (w : Work α) : Prop where
  spares : ∀ q, q ≠ p → ∀ c, (w.tried c).2.only q = c.only q
  reads : ∀ c, w.tried (c.only p) = ((w.tried c).1, (w.tried c).2.only p)

theorem Within.answer_eq {p : Part} {w : Work α} (h : w.Within p) {c d : Controller}
    (hcd : c.only p = d.only p) : (w.tried c).1 = (w.tried d).1 := by
  have hc := h.reads c
  rw [hcd, h.reads d] at hc
  exact (congrArg Prod.fst hc).symm

theorem Within.only_eq {p : Part} {w : Work α} (h : w.Within p) {c d : Controller}
    (hcd : c.only p = d.only p) : (w.tried c).2.only p = (w.tried d).2.only p := by
  have hc := h.reads c
  rw [hcd, h.reads d] at hc
  exact (congrArg Prod.snd hc).symm

/-- Work within one part and work within another come to the same in either order. -/
theorem Within.comm {p q : Part} (hpq : p ≠ q) {w : Work α} {v : Work β} (hw : w.Within p)
    (hv : v.Within q) (c : Controller) :
    (w.tried (v.tried c).2).1 = (w.tried c).1 ∧ (v.tried (w.tried c).2).1 = (v.tried c).1 ∧
      (w.tried (v.tried c).2).2 = (v.tried (w.tried c).2).2 := by
  have hp : (v.tried c).2.only p = c.only p := hv.spares p hpq c
  have hq : (w.tried c).2.only q = c.only q := hw.spares q hpq.symm c
  refine ⟨hw.answer_eq hp, hv.answer_eq hq, Controller.eq_of_only fun r => ?_⟩
  by_cases hrp : r = p
  · subst hrp
    rw [hw.only_eq hp, hv.spares r hpq]
  · rw [hw.spares r hrp]
    by_cases hrq : r = q
    · subst hrq
      rw [hv.only_eq hq]
    · rw [hv.spares r hrq, hv.spares r hrq, hw.spares r hrp]

namespace Within

variable {p : Part} {w : Work α}

theorem of_pure (a : α) : (pure a : Work α).Within p := ⟨fun _ _ _ => rfl, fun _ => rfl⟩

theorem of_throw (fault : Fault) : (throw fault : Work α).Within p :=
  ⟨fun _ _ _ => rfl, fun _ => rfl⟩

theorem of_ask {q : Controller → Except Fault α} (hq : ∀ c, q (c.only p) = q c) :
    (ask q).Within p := by
  refine ⟨fun _ _ c => ?_, fun c => ?_⟩
  · rw [tried_ask]
  · rw [tried_ask, tried_ask, hq]

theorem of_grow {change : Controller → Controller × α}
    (hspares : ∀ q, q ≠ p → ∀ c, (change c).1.only q = c.only q)
    (hreads : ∀ c, change (c.only p) = ((change c).1.only p, (change c).2)) :
    (grow change).Within p := by
  refine ⟨hspares, fun c => ?_⟩
  change (Except.ok (change (c.only p)).2, (change (c.only p)).1) = _
  rw [hreads]
  rfl

theorem of_modify {f : Controller → Controller}
    (hspares : ∀ q, q ≠ p → ∀ c, (f c).only q = c.only q)
    (hreads : ∀ c, f (c.only p) = (f c).only p) : (modify f : Work Unit).Within p :=
  ⟨hspares, fun c => congrArg (Prod.mk _) (hreads c)⟩

theorem bind {v : α → Work β} (hw : w.Within p) (hv : ∀ a, (v a).Within p) :
    (w >>= v).Within p := by
  constructor
  · intro q hq c
    have hd := hw.spares q hq c
    rw [tried_bind]
    generalize w.tried c = r at hd ⊢
    obtain ⟨answer, d⟩ := r
    cases answer with
    | ok a => exact ((hv a).spares q hq d).trans hd
    | error fault => exact hd
  · intro c
    rw [tried_bind, tried_bind, hw.reads]
    generalize w.tried c = r
    obtain ⟨answer, d⟩ := r
    cases answer with
    | ok a => exact (hv a).reads d
    | error fault => rfl

/-- Of a question only counts whether there is an answer, if nothing is made of it. -/
theorem ask_bind {q : Controller → Except Fault α} {v : Work β}
    (hq : ∀ c, (q (c.only p)).map (fun _ => ()) = (q c).map fun _ => ()) (hv : v.Within p) :
    (ask q >>= fun _ => v).Within p := by
  constructor
  · intro r hr c
    rw [tried_bind, tried_ask]
    cases q c with
    | ok a => exact hv.spares r hr c
    | error fault => rfl
  · intro c
    have hc := hq c
    rw [tried_bind, tried_bind, tried_ask, tried_ask]
    generalize q (c.only p) = a at hc ⊢
    generalize q c = b at hc ⊢
    cases a with
    | ok a =>
      cases b with
      | ok b => exact hv.reads c
      | error fault => exact nomatch hc
    | error fault =>
      cases b with
      | ok b => exact nomatch hc
      | error other =>
        obtain rfl := Except.error.inj hc
        rfl

theorem of_run_eq {v : Work α} (hv : v.Within p) (h : ∀ c, w.run c = v.run c) : w.Within p := by
  have heq (c : Controller) : w.tried c = v.tried c := tried_of_run_eq (h c)
  exact ⟨fun q hq c => heq c ▸ hv.spares q hq c, fun c => by rw [heq, heq, hv.reads]⟩

theorem get_bind {v : Controller → Work β} (hreads : ∀ c, v (c.only p) = v c)
    (hv : ∀ c, (v c).Within p) : (get >>= v : Work β).Within p := by
  refine ⟨fun q hq c => (hv c).spares q hq c, fun c => ?_⟩
  change (v (c.only p)).tried (c.only p) = ((v c).tried c |>.1, ((v c).tried c).2.only p)
  rw [hreads, (hv c).reads]

theorem discard (hw : w.Within p) : (discard w).Within p := by
  refine (hw.bind fun _ => .of_pure ()).of_run_eq fun c => ?_
  rw [run_discard, run_bind]
  rfl

theorem forM {f : α → Work PUnit} (as : List α) (hf : ∀ a, (f a).Within p) :
    (as.forM f).Within p := by
  induction as with
  | nil => exact .of_pure _
  | cons a as ih => exact .bind (hf a) fun _ => ih

end Within

end Work

namespace Controller

variable {c : Controller}

def onState (f : StateSettings → StateSettings) (n : Node) : Node :=
  match n.kind with
  | .state s => { n with kind := .state (f s) }
  | .machine _ => n

end Controller

namespace Work

/-- A change of nodes that keeps within a part. -/
theorem within_modifyNode {p : Part} (h : NodeHandle) {f : Defaults → Node → Node}
    (hspares : ∀ q, q ≠ p → ∀ d n, (f d n).only q = n.only q)
    (hreads : ∀ d n, f d (n.only p) = (f d n).only p) :
    (modify fun c => c.modifyNode h (f c.defaults) : Work Unit).Within p := by
  refine .of_modify (fun q hq c => ?_) fun c => ?_
  · rw [Controller.only_modifyNode (g := fun n => n) (hspares q hq _), Controller.modifyNode_id]
  · exact (Controller.only_modifyNode fun n => (hreads _ n).symm).symm

/-- A change of machines that keeps within a part. -/
theorem within_modifyMachine {p : Part} (h : MachineHandle) {f : Defaults → Machine → Machine}
    (hspares : ∀ q, q ≠ p → ∀ d m, (f d m).only q = m.only q)
    (hreads : ∀ d m, f d (m.only p) = (f d m).only p) :
    (modify fun c => c.modifyMachine h (f c.defaults) : Work Unit).Within p := by
  refine within_modifyNode h.node (f := fun d => Controller.onMachine (f d)) (fun q hq d n => ?_)
    fun d n => ?_
  · rw [Controller.only_onMachine (g := fun m => m) (hspares q hq d), Controller.onMachine_id]
  · exact (Controller.only_onMachine (fun m => (hreads d m).symm) n).symm

theorem within_setPosition (h : NodeHandle) (place : Position) :
    (setPosition h place).Within .layout := by
  refine .ask_bind (fun c => ?_) (within_modifyNode h (f := fun _ n => { n with position := place })
    (fun q hq _ _ => ?_) fun _ _ => rfl)
  · rw [Controller.node_only]
    cases c.node h <;> rfl
  · cases q with
    | layout => exact absurd rfl hq
    | _ => rfl

theorem within_moveToCell (h : NodeHandle) (x y : Int32) : (moveToCell h x y).Within .layout :=
  .get_bind (fun _ => rfl) fun _ => within_setPosition h _

theorem within_moveFrom (h : NodeHandle) (origin : Position) (dx dy : Int32) :
    (moveFrom h origin dx dy).Within .layout :=
  .get_bind (fun _ => rfl) fun _ => within_setPosition h _

theorem within_moveBeside (h : NodeHandle) (direction : Direction) (other : NodeHandle) :
    (moveBeside h direction other).Within .layout := by
  refine .ask_bind (fun c => ?_) (.bind (.of_ask fun c => Controller.position_only other) fun _ =>
    within_moveFrom h _ _ _)
  rw [Controller.node_only]
  cases c.node h <;> rfl

theorem within_placeAnchor (h : MachineHandle) (a : Anchor) (x y : Int32) :
    (placeAnchor h a x y).Within .layout := by
  refine .ask_bind (fun c => ?_) (within_modifyMachine h
    (f := fun d m => { m with anchors := m.anchors.place (d.cellPosition x y) a })
    (fun q hq _ _ => ?_) fun _ _ => rfl)
  · rw [Controller.machine_only]
    cases c.machine h <;> rfl
  · cases q with
    | layout => exact absurd rfl hq
    | _ => rfl

theorem within_setDefaultState (h : MachineHandle) (s : StateHandle) :
    (setDefaultState h s).Within .entries := by
  refine .bind (.of_ask fun c => Controller.ownerOfState_only s) fun owner => ?_
  split
  · refine within_modifyMachine h (f := fun _ m => { m with defaultState := some s })
      (fun q hq _ _ => ?_) fun _ _ => rfl
    cases q with
    | entries => exact absurd rfl hq
    | _ => rfl
  · exact .of_throw _

/-- Edits come to one change of the settings, whatever these are. -/
theorem within_editState (h : StateHandle) (edits : List (StateEdit (Reference .float))) :
    (editState h edits).Within .settings := by
  have hchange : (do
      let s ← ask (·.stateSettings h)
      modify (·.modifyNode h.node (Controller.onState (edits.foldl StateEdit.apply)))
      return StateEdit.trail s edits : Work (List StateSettings)).Within .settings := by
    refine .bind (.of_ask fun c => Controller.stateSettings_only h) fun s =>
      .bind (within_modifyNode h.node
        (f := fun _ => Controller.onState (edits.foldl StateEdit.apply)) (fun q hq _ n => ?_)
        fun _ n => ?_) fun _ => .of_pure _
    · obtain ⟨name, parent, position, kind⟩ := n
      cases kind with
      | machine m => rfl
      | state s =>
        cases q with
        | settings => exact absurd rfl hq
        | _ => rfl
    · obtain ⟨name, parent, position, kind⟩ := n
      cases kind <;> rfl
  refine hchange.of_run_eq fun c => ?_
  rw [editState, run_ask_bind, run_ask_bind]
  cases hs : c.stateSettings h with
  | error fault => rfl
  | ok s =>
    obtain ⟨n, hn, hk⟩ := Controller.stateSettings_eq_ok.mp hs
    dsimp only
    rw [run_editEach hs, run_modify_bind]
    refine congrArg (EStateM.Result.ok _) (Controller.modifyNode_congr fun k hk' => ?_)
    obtain rfl := Option.some.inj (hn.symm.trans hk')
    rw [Controller.onState, hk]

theorem within_register (kind : ParameterKind) (name : String) :
    (register kind name).Within .parameters := by
  refine .get_bind (fun _ => rfl) fun c => ?_
  cases c.parameter? name with
  | some p =>
    dsimp only
    split
    · exact .of_pure _
    · exact .of_throw _
  | none =>
    refine .bind (.of_modify (fun q hq c => ?_) fun _ => rfl) fun _ => .of_pure _
    cases q with
    | parameters => exact absurd rfl hq
    | _ => rfl

theorem within_registerAll (kind : ParameterKind) (names : List String) :
    (registerAll kind names).Within .parameters :=
  .bind (.forM names fun _ => .of_ask fun _ => rfl) fun _ =>
    .bind (.forM names fun _ => .discard (within_register kind _)) fun _ => .of_pure _

theorem within_attach (h : NodeHandle) (kind : AttachmentKind)
    (change : kind.Value → kind.Value) : (attach h kind change).Within .attachments := by
  refine .ask_bind (fun c => ?_) (.of_modify (fun q hq c => ?_) fun _ => rfl)
  · rw [Controller.node_only]
    cases c.node h <;> rfl
  · cases q with
    | attachments => exact absurd rfl hq
    | _ => rfl

end Work

namespace Run

/-- A run with everything made blank that it is not about. -/
def only (w : Run) : Run := w.onController (·.only .edges)

variable {w : Run}

theorem only_reportRole {r : Role} (k : Cursor r) :
    w.only.reportRole k = (w.reportRole k).only := by
  cases k with
  | @fresh timed e => cases timed <;> rfl
  | _ => rfl

theorem only_append (e : EdgeHandle) (s : Supply) : w.only.append e s = (w.append e s).only := rfl

theorem only_appendSeries (e : EdgeHandle) (s : Series Supply) :
    w.only.appendSeries e s = (w.appendSeries e s).only := by
  rw [appendSeries_eq, appendSeries_eq]
  rfl

theorem only_fork (e : EdgeHandle) (route : Route) :
    w.only.fork e route = ((w.fork e route).1.only, (w.fork e route).2) := by
  have hfork : (w.controller.only .edges).fork e route =
      ((w.controller.fork e route).1.only .edges, (w.controller.fork e route).2) :=
    Controller.fork_only e route
  simp only [fork, only, onController, hfork]

theorem only_forkEach (route : Route) (e : EdgeHandle) (cs : List Condition) :
    w.only.forkEach route e cs = ((w.forkEach route e cs).1.only, (w.forkEach route e cs).2) := by
  have hforkEach := w.controller.forkEach_only route e cs
  simp only [forkEach, only, onController, hforkEach]
  rfl

theorem only_claim (m : Mark) (route : Route) (ts : List Clause) :
    w.only.claim m route ts = ((w.claim m route ts).1.only, (w.claim m route ts).2) := by
  have hclaim : (w.controller.only .edges).claim m route ts [] = w.controller.claim m route ts [] :=
    w.controller.claim_only m route ts []
  rw [claim, claim, only, controller_onController, hclaim]
  cases w.controller.claim m route ts [] <;> rfl

theorem only_foldl {step : Run → EdgeHandle → Run}
    (hstep : ∀ (w : Run) (e : EdgeHandle), step w.only e = (step w e).only) (es : List EdgeHandle) :
    es.foldl step w.only = (es.foldl step w).only := by
  induction es generalizing w with
  | nil => rfl
  | cons e es ih => rw [List.foldl_cons, hstep, ih, List.foldl_cons]

end Run

theorem Choice.run_only_chain (choice : Choice) {route : Route} {e : EdgeHandle} {w : Run}
    {next : Chain Supply .spread} {timed : Bool}
    (hmade : ∀ v : Run, choice.make route e v.only =
      ((choice.make route e v).1.only, (choice.make route e v).2))
    (hnext : ∀ (es : List EdgeHandle) (v : Run),
      next.run route (.spread es) v.only = (next.run route (.spread es) v).only) :
    (choice.chain next : Chain Supply (.fresh timed)).run route (.fresh e) w.only =
      ((choice.chain next : Chain Supply (.fresh timed)).run route (.fresh e) w).only := by
  have hrun (v : Run) :
      choice.run route e v.only = ((choice.run route e v).1.only, (choice.run route e v).2) := by
    rw [run, hmade]
    exact Run.only_claim _ _ _
  rw [run_chain, run_chain, Run.only_reportRole, hrun]
  cases choice.run route e (w.reportRole (r := .fresh timed) (.fresh e)) with
  | mk after answer =>
    cases answer with
    | ok es => exact hnext es after
    | error fault => rfl

/-- A run does the same to the edges where everything else is blank. -/
theorem Chain.run_only (route : Route) {r : Role} (chain : Chain Supply r) (k : Cursor r)
    (w : Run) : chain.run route k w.only = (chain.run route k w).only := by
  induction chain generalizing w with
  | stop => exact Run.only_reportRole k
  | unreadable reason =>
    rw [run, run, Run.only_reportRole]
    rfl
  | set edit next ih =>
    cases k with | fresh e =>
    rw [run, run, Run.only_reportRole]
    exact ih _ ((w.reportRole (r := .fresh true) (.fresh e)).onController
      (·.modifySettings e (edit.apply ·)))
  | settle next ih | whenAlways next ih =>
    cases k with | fresh e => rw [run, run, Run.only_reportRole, ih]
  | when s next ih =>
    cases k with | fresh e => rw [run, run, Run.only_reportRole, Run.only_append, ih]
  | whenAll s next ih =>
    cases k with | fresh e => rw [run, run, Run.only_reportRole, Run.only_appendSeries, ih]
  | and s next ih =>
    cases k with | clause e => rw [run, run, Run.only_reportRole, Run.only_append, ih]
  | andAll s next ih =>
    cases k with | clause e => rw [run, run, Run.only_reportRole, Run.only_appendSeries, ih]
  | keep slot next ih =>
    cases k with | clause e =>
    rw [run, run, Run.only_reportRole]
    exact ih _ ((w.reportRole (r := .clause) (.clause e)).keep slot e)
  | or next ih =>
    cases k with | clause e =>
    rw [run, run, Run.only_reportRole, Run.only_fork]
    exact ih _ _
  | orElse next ih =>
    cases k with | forked e =>
    rw [run, run, Run.only_reportRole, Run.only_fork]
    exact ih _ _
  | andEach s next ih =>
    cases k with | spread es =>
    rw [run, run, Run.only_reportRole, Run.only_foldl fun _ e => Run.only_append e s, ih]
  | andAllEach s next ih =>
    cases k with | spread es =>
    rw [run, run, Run.only_reportRole, Run.only_foldl fun _ e => Run.only_appendSeries e s, ih]
  | whenWithOr inner next ihInner ih =>
    cases k with | fresh e =>
    rw [run, run, Run.only_reportRole, ihInner, ih]
  | whenAnyOf s next ih =>
    cases k with | fresh e =>
    exact (Choice.each s).run_only_chain (fun v => Run.only_forkEach
      (w := (v.meet s.gaps).report (.anyOf s.conditions)) route e s.conditions) fun es v => ih _ v
  | whenAny inner slots next ihInner ih =>
    cases k with | fresh e =>
    refine (Choice.returned inner slots).run_only_chain (fun v => ?_) fun es v => ih _ v
    rw [Choice.make, Choice.make, ihInner]
    rfl

namespace Work

/-- A change of the edges. -/
theorem within_edges {α : Type} {change : Controller → Controller × α}
    (hrest : ∀ c, (change c).1.withEdges c.edges = c)
    (hreads : ∀ c, change (c.only .edges) = ((change c).1.only .edges, (change c).2)) :
    (grow change).Within .edges := by
  refine .of_grow (fun q hq c => ?_) hreads
  rw [← Controller.only_withEdges hq _ c.edges, hrest]

theorem within_createEdge (machine : MachineHandle) (route : Route) :
    (grow (·.createEdge machine route)).Within .edges :=
  within_edges (fun _ => rfl) fun _ => rfl

theorem within_start (o : Opening) : (start o).Within .edges :=
  .bind (.of_ask fun _ => Controller.plan_only o) fun _ =>
    .bind (within_createEdge _ _) fun _ => .of_pure _

/-- The run of a chain, with what it reports, the tokens that it keeps and the gaps that it met. -/
theorem within_run (route : Route) {r : Role} (chain : Chain Supply r) (k : Cursor r)
    (tokens : List (String × Clause)) :
    (grow fun c =>
      let w := chain.run route k ⟨c, tokens, [], []⟩
      (w.controller, w.reports, w.tokens, w.gaps)).Within .edges := by
  refine within_edges (fun c => (chain.follows_run route k ⟨c, tokens, [], []⟩).rest) fun c => ?_
  have hrun : chain.run route k ⟨c.only .edges, tokens, [], []⟩ =
      (chain.run route k ⟨c, tokens, [], []⟩).only := chain.run_only route k ⟨c, tokens, [], []⟩
  dsimp only
  rw [hrun]
  rfl

theorem within_restart (machine : MachineHandle) : (restart machine).Within .edges :=
  .bind (.of_ask fun _ => Controller.ownerOfMachine_only machine) fun _ =>
    .bind (.of_ask fun _ => rfl) fun _ => within_createEdge _ _

theorem within_moveAutomatically (source : StateHandle) (target : Endpoint) :
    (moveAutomatically source target).Within .edges := by
  rw [moveAutomatically]
  split
  · exact .of_throw _
  · refine .bind (within_start _) fun r => .bind (.of_modify (fun q hq c => ?_) fun _ => rfl)
      fun _ => .of_pure _
    exact Controller.only_withEdges hq c _

theorem within_cloneEdge (template : EdgeHandle) (source target : Endpoint) :
    (cloneEdge template source target).Within .edges := by
  refine .bind (.of_ask fun _ => rfl) fun x => .bind (.of_ask fun _ => rfl) fun r => ?_
  split
  · exact within_edges (fun _ => rfl) fun _ => Controller.fork_only template r
  · exact .of_throw _

theorem within_appendCondition (e : EdgeHandle) (x : Condition) :
    (appendCondition e x).Within .edges := by
  refine .bind (.of_ask fun _ => rfl) fun _ => .of_modify (fun q hq c => ?_) fun _ => rfl
  exact Controller.only_withEdges hq c _

end Work

end Statechart
