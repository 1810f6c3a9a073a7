import Statechart.Proofs.Footprints

/-! What operations are about: one part of a controller, or the tree of its nodes. An operation
leaves alone what it is not about. -/

namespace Statechart

/-- The part that an action is about, unless it makes nodes. -/
def Action.part? : Action → Option Part
  | addLayer _ | newState _ _ | newStateAt _ _ _ _ | newMachine _ _ | newMachineAt _ _ _ _ => none
  | setDefaultState _ _ => some .entries
  | setPosition _ _ | moveToCell _ _ _ | moveFrom _ _ _ _ | moveBeside _ _ _
  | placeAnchor _ _ _ _ => some .layout
  | editState _ _ => some .settings
  | attach _ _ _ => some .attachments
  | register _ _ | registerAll _ _ => some .parameters
  | appendCondition _ _ | restart _ | moveAutomatically _ _ | cloneEdge _ _ _ => some .edges

def Operation.part? : Operation → Option Part
  | act a => a.part?
  | change _ _ _ => some .attachments
  | travel _ _ _ => some .edges

namespace Work

variable {α : Type} {I : Controller → Prop}

theorem Preserves.apply {op : Operation} (h : op.work.Preserves I) {c : Controller} (hc : I c) :
    I (op.apply c) := by
  rcases op.run_work c with hok | ⟨hsame, -⟩
  · have hd := h c hc
    rwa [tried, hok] at hd
  · rwa [hsame]

theorem Within.leaves {p q : Part} {w : Work α} (h : w.Within p) (hq : q ≠ p) (e : Controller) :
    w.Preserves fun c => c.only q = e :=
  fun c hc => (h.spares q hq c).trans hc

end Work

section Growing

/-! What does not depend on layers and nodes is preserved by all that makes nodes. -/

variable {I : Controller → Prop}
  (hI : ∀ (c : Controller) ls ns, I c → I { c with layers := ls, nodes := ns })

include hI

theorem Work.preserves_pushNode (make : Controller → Node) : (Work.pushNode make).Preserves I :=
  .of_grow fun c hc => hI c c.layers _ hc

theorem Work.preserves_modifyMachine (h : MachineHandle) (f : Machine → Machine) :
    (modify (·.modifyMachine h f) : Work Unit).Preserves I :=
  .of_modify fun c hc => hI c c.layers _ hc

theorem Work.preserves_moveFrom (h : NodeHandle) (origin : Position) (dx dy : Int32) :
    (Work.moveFrom h origin dx dy).Preserves I :=
  .get_bind fun _ => .bind (.of_ask _) fun _ => .of_modify fun c hc => hI c c.layers _ hc

theorem Work.preserves_newStateAt (h : MachineHandle) (name : String) (x y : Int32) :
    (Work.newStateAt h name x y).Preserves I :=
  .bind (.of_ask _) fun _ => .bind (Work.preserves_pushNode hI _) fun _ =>
    .bind (Work.preserves_modifyMachine hI h _) fun _ =>
      .bind (Work.preserves_modifyMachine hI h _) fun _ => .of_pure _

theorem Work.preserves_newMachineAt (h : MachineHandle) (name : String) (x y : Int32) :
    (Work.newMachineAt h name x y).Preserves I :=
  .bind (.of_ask _) fun _ => .bind (Work.preserves_pushNode hI _) fun _ =>
    .bind (Work.preserves_modifyMachine hI h _) fun _ => .of_pure _

theorem Action.preserves_of_growing {a : Action} (ha : a.part? = none) : a.work.Preserves I := by
  cases a with
  | addLayer name =>
    exact .then_pure (.bind (Work.preserves_pushNode hI _) fun root =>
      .bind (.of_modify fun c hc => hI c _ c.nodes hc) fun _ => .of_pure _) _
  | newState m name =>
    exact .then_ask (.bind (.of_ask _) fun last => .bind (Work.preserves_newStateAt hI m name 0 0)
      fun s => .bind (Work.preserves_moveFrom hI _ last 0 1) fun _ => .of_pure s) _ _
  | newStateAt m name x y => exact .then_ask (Work.preserves_newStateAt hI m name x y) _ _
  | newMachine m name =>
    exact .then_ask (.bind (.of_ask _) fun last => .bind (Work.preserves_newMachineAt hI m name 0 0)
      fun s => .bind (Work.preserves_moveFrom hI _ last 0 1) fun _ => .of_pure s) _ _
  | newMachineAt m name x y => exact .then_ask (Work.preserves_newMachineAt hI m name x y) _ _
  | _ => cases ha

end Growing

theorem Action.leaves_work {a : Action} {p q : Part} (ha : a.part? = some p) (hq : q ≠ p)
    (e : Controller) : a.work.Preserves fun c => c.only q = e := by
  cases a with
  | addLayer | newState | newStateAt | newMachine | newMachineAt => cases ha
  | setDefaultState m s =>
    cases ha
    exact .then_pure ((Work.within_setDefaultState m s).leaves hq e) _
  | setPosition h place =>
    cases ha
    exact .then_ask ((Work.within_setPosition h place).leaves hq e) _ _
  | moveToCell h x y =>
    cases ha
    exact .then_ask ((Work.within_moveToCell h x y).leaves hq e) _ _
  | moveFrom h origin dx dy =>
    cases ha
    exact .then_ask ((Work.within_moveFrom h origin dx dy).leaves hq e) _ _
  | moveBeside h direction other =>
    cases ha
    exact .then_ask ((Work.within_moveBeside h direction other).leaves hq e) _ _
  | placeAnchor m anchor x y =>
    cases ha
    exact .then_ask ((Work.within_placeAnchor m anchor x y).leaves hq e) _ _
  | editState s edits =>
    cases ha
    exact .then_pure ((Work.within_editState s edits).leaves hq e) _
  | attach h kind value =>
    cases ha
    exact .bind ((Work.within_attach h kind _).leaves hq e) fun _ => .get_bind fun _ => .of_pure _
  | register kind name =>
    cases ha
    exact .bind ((Work.within_register kind name).leaves hq e) fun _ =>
      .get_bind fun _ => .of_pure _
  | registerAll kind names =>
    cases ha
    exact .bind ((Work.within_registerAll kind names).leaves hq e) fun _ =>
      .get_bind fun _ => .of_pure _
  | appendCondition f x =>
    cases ha
    exact .then_ask ((Work.within_appendCondition f x).leaves hq e) _ _
  | restart m =>
    cases ha
    exact .then_pure ((Work.within_restart m).leaves hq e) _
  | moveAutomatically s target =>
    cases ha
    exact .then_ask ((Work.within_moveAutomatically s target).leaves hq e) _ _
  | cloneEdge f source target =>
    cases ha
    exact .then_ask ((Work.within_cloneEdge f source target).leaves hq e) _ _

namespace Operation

variable {op : Operation} {p q : Part}

theorem only_apply (hp : op.part? = some p) (hq : q ≠ p) (c : Controller) :
    (op.apply c).only q = c.only q := by
  have hleaves : op.work.Preserves fun d => d.only q = c.only q := by
    cases op with
    | act a => exact .discard (a.leaves_work hp hq _)
    | change n kind f =>
      cases hp
      exact (Work.within_attach n kind f).leaves hq _
    | travel o chain tokens =>
      cases hp
      refine .bind ((Work.within_start o).leaves hq _) fun r => .of_modify fun d hd => ?_
      have hrest := (chain.follows_run r.2 (.fresh r.1) ⟨d, tokens, [], []⟩).rest
      rw [← Controller.only_withEdges hq _ d.edges, hrest, hd]
  exact hleaves.apply rfl

/-- What is told by one part, and does not depend on layers and nodes, stays unless the operation is
about that part. -/
theorem eq_apply {β : Type} (read : Controller → β) (honly : ∀ c, read (c.only q) = read c)
    (hgrow : ∀ (c : Controller) ls ns, read { c with layers := ls, nodes := ns } = read c)
    (hq : op.part? ≠ some q) (c : Controller) : read (op.apply c) = read c := by
  cases hpart : op.part? with
  | none =>
    cases op with
    | act a =>
      have hkept : a.work.Preserves fun d => read d = read c :=
        a.preserves_of_growing (fun d ls ns hd => (hgrow d ls ns).trans hd) hpart
      have hwork : (Operation.act a).work.Preserves fun d => read d = read c := hkept.discard
      exact hwork.apply rfl
    | _ => cases hpart
  | some p =>
    have hne : q ≠ p := fun h => hq (h ▸ hpart)
    rw [← honly, op.only_apply hpart hne, honly]

end Operation

namespace Controller

/-- The controller behind operations, one after the other. -/
def after (c : Controller) (ops : List Operation) : Controller :=
  ops.foldl (fun c op => op.apply c) c

theorem after_cons (c : Controller) (op : Operation) (ops : List Operation) :
    c.after (op :: ops) = (op.apply c).after ops := rfl

end Controller

end Statechart
