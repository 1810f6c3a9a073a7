import Statechart.Proofs.Footprints

/-! Authoring steps that are about different parts of a controller can be taken in either order. -/

namespace Statechart

/-- An authoring step with everything that it is given, by the part of a controller that it is about
and what it answers. -/
inductive Errand : Part → Type → Type 1
  | register (kind : ParameterKind) (name : String) : Errand .parameters (Reference kind)
  | registerAll (kind : ParameterKind) (names : List String) :
      Errand .parameters (ReferenceGroup kind)
  | setPosition (node : NodeHandle) (place : Position) : Errand .layout Unit
  | moveToCell (node : NodeHandle) (x y : Int32) : Errand .layout Unit
  | moveFrom (node : NodeHandle) (origin : Position) (dx dy : Int32) : Errand .layout Unit
  | moveBeside (node : NodeHandle) (direction : Direction) (other : NodeHandle) :
      Errand .layout Unit
  | placeAnchor (machine : MachineHandle) (anchor : Anchor) (x y : Int32) : Errand .layout Unit
  | editState (state : StateHandle) (edits : List (StateEdit (Reference .float))) :
      Errand .settings (List StateSettings)
  | setDefaultState (machine : MachineHandle) (state : StateHandle) : Errand .entries Unit
  | attach (node : NodeHandle) (kind : AttachmentKind) (change : kind.Value → kind.Value) :
      Errand .attachments (Option kind.Value)
  | travel (opening : Opening) (chain : Chain Supply (.fresh (opening.flavor = .timed)))
      (tokens : List (String × Clause)) :
      Errand .edges (List Report × List (String × Clause) × List Gap)
  | restart (machine : MachineHandle) : Errand .edges EdgeHandle
  | moveAutomatically (source : StateHandle) (target : Endpoint) : Errand .edges EdgeHandle
  | appendCondition (edge : EdgeHandle) (condition : Condition) : Errand .edges Unit
  | cloneEdge (edge : EdgeHandle) (source target : Endpoint) : Errand .edges EdgeHandle

namespace Errand

variable {p q : Part} {α β : Type}

def work : {p : Part} → {α : Type} → Errand p α → Work α
  | _, _, register kind name => Work.register kind name
  | _, _, registerAll kind names => Work.registerAll kind names
  | _, _, setPosition h place => Work.setPosition h place
  | _, _, moveToCell h x y => Work.moveToCell h x y
  | _, _, moveFrom h origin dx dy => Work.moveFrom h origin dx dy
  | _, _, moveBeside h direction other => Work.moveBeside h direction other
  | _, _, placeAnchor m anchor x y => Work.placeAnchor m anchor x y
  | _, _, editState s edits => Work.editState s edits
  | _, _, setDefaultState m s => Work.setDefaultState m s
  | _, _, attach h kind change => do
    Work.attach h kind change
    return (← get).attachments.value? h kind
  | _, _, travel o chain tokens => do
    let (e, route) ← Work.start o
    Work.grow fun c =>
      let w := chain.run route (.fresh e) ⟨c, tokens, [], []⟩
      (w.controller, w.reports, w.tokens, w.gaps)
  | _, _, restart m => Work.restart m
  | _, _, moveAutomatically s target => Work.moveAutomatically s target
  | _, _, appendCondition e x => Work.appendCondition e x
  | _, _, cloneEdge e source target => Work.cloneEdge e source target

theorem within_work (a : Errand p α) : a.work.Within p := by
  cases a with
  | register kind name => exact Work.within_register kind name
  | registerAll kind names => exact Work.within_registerAll kind names
  | setPosition h place => exact Work.within_setPosition h place
  | moveToCell h x y => exact Work.within_moveToCell h x y
  | moveFrom h origin dx dy => exact Work.within_moveFrom h origin dx dy
  | moveBeside h direction other => exact Work.within_moveBeside h direction other
  | placeAnchor m anchor x y => exact Work.within_placeAnchor m anchor x y
  | editState s edits => exact Work.within_editState s edits
  | setDefaultState m s => exact Work.within_setDefaultState m s
  | attach h kind change =>
    exact .bind (Work.within_attach h kind change) fun _ =>
      .get_bind (fun _ => rfl) fun _ => .of_pure _
  | travel o chain tokens =>
    exact .bind (Work.within_start o) fun r => Work.within_run r.2 chain _ tokens
  | restart m => exact Work.within_restart m
  | moveAutomatically s target => exact Work.within_moveAutomatically s target
  | appendCondition e x => exact Work.within_appendCondition e x
  | cloneEdge e source target => exact Work.within_cloneEdge e source target

/-- In either order two errands for different parts leave the same controller, and each of them has
the same answer or ends with the same fault. -/
theorem commute (hpq : p ≠ q) (a : Errand p α) (b : Errand q β) (c : Controller) :
    (do
      let x ← observing a.work
      let y ← observing b.work
      return (x, y) : Work (Except Fault α × Except Fault β)).run c =
    (do
      let y ← observing b.work
      let x ← observing a.work
      return (x, y) : Work (Except Fault α × Except Fault β)).run c := by
  obtain ⟨ha, hb, hc⟩ := a.within_work.comm hpq b.within_work c
  have hfirst (x : Except Fault α) : (do
      let y ← observing b.work
      return (x, y) : Work (Except Fault α × Except Fault β)).run (a.work.tried c).2 =
      .ok (x, (b.work.tried (a.work.tried c).2).1) (b.work.tried (a.work.tried c).2).2 := by
    rw [Work.run_bind, Work.run_observing]
    rfl
  have hsecond (y : Except Fault β) : (do
      let x ← observing a.work
      return (x, y) : Work (Except Fault α × Except Fault β)).run (b.work.tried c).2 =
      .ok ((a.work.tried (b.work.tried c).2).1, y) (a.work.tried (b.work.tried c).2).2 := by
    rw [Work.run_bind, Work.run_observing]
    rfl
  rw [Work.run_bind, Work.run_observing, Work.run_bind, Work.run_observing]
  dsimp only
  rw [hfirst, hsecond, ha, hb, hc]

/-- A transition whose alternatives are taken back, and a machine that cannot be entered by
itself. -/
theorem commute_refused :
    let supply (name : String) := Supply.ofConditions [⟨name, .isTrue, .zero false⟩]
    let inner : Chain Supply (.fresh false) := .when (supply "a") (.or (.when (supply "b") .stop))
    let a : Errand .edges _ :=
      .travel (.anyState Controller.bareRoot (.machine Controller.bareRoot))
        (.whenAny inner ["other"] .stop) [("other", ⟨Controller.bare.id, .ofIndex 7⟩)]
    let b : Errand .entries _ := .setDefaultState Controller.bareRoot ⟨Controller.bareRoot.node⟩
    (∃ r d, a.work.run Controller.bare = .ok r d ∧
      Report.refused (.foreignClause (.ofIndex 7)) ∈ r.1) ∧
    b.work.run Controller.bare = .error (.notAState Controller.bareRoot.node) Controller.bare ∧
    (do
      let x ← observing a.work
      let y ← observing b.work
      return (x, y) : Work _).run Controller.bare =
    (do
      let y ← observing b.work
      let x ← observing a.work
      return (x, y) : Work _).run Controller.bare := by
  intro supply inner a b
  have hpq : Part.edges ≠ Part.entries := by decide
  exact ⟨⟨_, _, rfl, by decide⟩, rfl, commute hpq a b Controller.bare⟩

end Errand

end Statechart
