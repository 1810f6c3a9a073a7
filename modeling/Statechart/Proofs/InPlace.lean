import Statechart.Work
import Statechart.Proofs.Presence
import Statechart.Proofs.Reachable

/-! Work in place leaves nothing behind where it fails: every action either succeeds as a whole, or
has not changed the controller by the time it fails. What it does is then told by a function, from
the controller to a new one or a fault. -/

namespace Statechart

namespace Work

variable {α β : Type}

theorem run_bind (w : Work α) (v : α → Work β) (c : Controller) :
    (w >>= v).run c = match w.run c with
      | .ok a d => (v a).run d
      | .error fault d => .error fault d := by
  simp only [bind, EStateM.bind, EStateM.run]
  cases w c <;> rfl

theorem run_ask (question : Controller → Except Fault α) (c : Controller) :
    (ask question).run c = match question c with
      | .ok a => .ok a c
      | .error fault => .error fault c := rfl

theorem run_ask_bind (question : Controller → Except Fault α) (v : α → Work β) (c : Controller) :
    (ask question >>= v).run c = match question c with
      | .ok a => (v a).run c
      | .error fault => .error fault c := by
  rw [run_bind, run_ask]
  cases question c <;> rfl

theorem run_get_bind (v : Controller → Work β) (c : Controller) :
    (get >>= v : Work β).run c = (v c).run c := rfl

theorem run_discard (w : Work α) (c : Controller) :
    (discard w).run c = match w.run c with
      | .ok _ d => .ok () d
      | .error fault d => .error fault d := by
  change EStateM.map (fun _ => ()) w c = match w c with
    | .ok _ d => .ok () d
    | .error fault d => .error fault d
  rw [EStateM.map]
  cases w c <;> rfl

theorem run_modify_bind (f : Controller → Controller) (v : Unit → Work β) (c : Controller) :
    (modify f >>= v : Work β).run c = (v ()).run (f c) := rfl

/-- Work that gives what `f` gives, and leaves the controller as it was where that is a fault. -/
def Performs (w : Work α) (f : Controller → Except Fault (Controller × α)) : Prop :=
  ∀ c, w.run c = match f c with
    | .ok (d, a) => .ok a d
    | .error fault => .error fault c

/-- The same for work that has nothing to answer. -/
def Settles (w : Work Unit) (f : Controller → Except Fault Controller) : Prop :=
  w.Performs fun c => (f c).map fun d => (d, ())

variable {w : Work α}

theorem Performs.run_of_eq_ok {f : Controller → Except Fault (Controller × α)} (h : w.Performs f)
    {c d : Controller} {a : α} (hd : f c = .ok (d, a)) : w.run c = .ok a d := by
  rw [h c, hd]

theorem Settles.run_of_eq_ok {w : Work Unit} {f : Controller → Except Fault Controller}
    (h : w.Settles f) {c d : Controller} (hd : f c = .ok d) : w.run c = .ok () d := by
  rw [h c]
  simp only [hd]
  rfl

/-- Behind a change only work that does not fail leaves nothing of the change where it fails. -/
theorem Performs.bind {f : Controller → Except Fault (Controller × α)}
    {g : Controller → α → Except Fault (Controller × β)} {v : α → Work β} (hw : w.Performs f)
    (hv : ∀ c d a, f c = .ok (d, a) → ∃ e b, g d a = .ok (e, b) ∧ (v a).run d = .ok b e) :
    (w >>= v).Performs fun c => f c >>= fun r => g r.1 r.2 := by
  intro c
  rw [run_bind, hw c]
  cases hf : f c with
  | error fault => simp only [hf]; rfl
  | ok r =>
    obtain ⟨d, a⟩ := r
    obtain ⟨e, b, hg, hrun⟩ := hv c d a hf
    simp only [hf, hrun]
    change _ = match g d a with
      | .ok (e, b) => EStateM.Result.ok b e
      | .error fault => .error fault c
    rw [hg]

/-- In front of a change a question may be put, as it does not change anything. -/
theorem Performs.after_ask {q : Controller → Except Fault β} {v : β → Work α}
    {f : Controller → β → Except Fault (Controller × α)}
    (hv : ∀ b, (v b).Performs fun c => f c b) :
    (ask q >>= v).Performs fun c => q c >>= f c := by
  intro c
  rw [run_ask_bind]
  dsimp only
  cases q c with
  | error fault => rfl
  | ok b => exact hv b c

theorem Settles.after_ask {q : Controller → Except Fault β} {v : β → Work Unit}
    {f : Controller → β → Except Fault Controller}
    (hv : ∀ b, (v b).Settles fun c => f c b) :
    (ask q >>= v).Settles fun c => q c >>= f c := by
  intro c
  rw [run_ask_bind]
  dsimp only
  cases q c with
  | error fault => rfl
  | ok b => exact hv b c

end Work

namespace Controller

variable {c : Controller}

theorem modifyMachine_modifyMachine (h : MachineHandle) (f g : Machine → Machine) :
    (c.modifyMachine h f).modifyMachine h g = c.modifyMachine h fun m => g (f m) := by
  have honce : onMachine g ∘ onMachine f = onMachine fun m => g (f m) := by
    funext n
    cases hk : n.kind with
    | state x => simp only [Function.comp, onMachine_of_state hk]
    | machine m => simp only [Function.comp, onMachine, hk]
  exact congrArg (fun nodes => { c with nodes }) ((List.modify_modify_eq ..).trans (by rw [honce]))

theorem modifyNode_modifyNode (h : NodeHandle) (f g : Node → Node) :
    (c.modifyNode h f).modifyNode h g = c.modifyNode h (g ∘ f) :=
  congrArg (fun nodes => { c with nodes }) (List.modify_modify_eq ..)

theorem stateSettings_eq_ok {h : StateHandle} {s : StateSettings} :
    c.stateSettings h = .ok s ↔ ∃ n, c.nodes[h.index]? = some n ∧ n.kind = .state s := by
  simp only [stateSettings, bind_eq_ok, node_eq_ok]
  refine exists_congr fun n => and_congr_right fun _ => ?_
  cases n.kind <;> simp [pure, Except.pure, throw, throwThe, MonadExceptOf.throw]

theorem modifyNode_settings {h : StateHandle} {s : StateSettings}
    (hs : c.stateSettings h = .ok s) :
    (c.modifyNode h.node fun n => { n with kind := .state s }) = c := by
  obtain ⟨n, hn, hk⟩ := stateSettings_eq_ok.mp hs
  refine congrArg (fun nodes => { c with nodes }) (List.ext_getElem? fun i => ?_)
  rw [List.getElem?_modify]
  split
  · rename_i hi
    subst hi
    rw [← StateHandle.index, hn, ← hk]
    rfl
  · exact Option.map_id' ..

theorem stateSettings_modifyNode {h : StateHandle} {s : StateSettings}
    (hs : c.stateSettings h = .ok s) (t : StateSettings) :
    (c.modifyNode h.node fun n => { n with kind := .state t }).stateSettings h = .ok t := by
  obtain ⟨n, hn, -⟩ := stateSettings_eq_ok.mp hs
  refine stateSettings_eq_ok.mpr ⟨_, getElem?_modifyNode.mpr ⟨n, hn, rfl⟩, ?_⟩
  rw [← StateHandle.index, if_pos rfl]

theorem conflict?_declare_eq_none {kind : ParameterKind} {name other : String}
    (h : c.conflict? kind other = none) : (c.declare kind name).conflict? kind other = none := by
  rw [declare]
  split
  · exact h
  · simp only [conflict?, parameter?, List.find?_append] at h ⊢
    cases hp : c.parameters.find? (·.name == other) with
    | some p => rwa [hp] at h
    | none => cases hn : name == other <;> simp [hn]

end Controller

namespace Work

open Controller

theorem performs_addLayer (name : String) :
    (addLayer name).Performs fun c => .ok (c.addLayer name) := fun _ => rfl

theorem performs_newStateAt (h : MachineHandle) (name : String) (x y : Int32) :
    (newStateAt h name x y).Performs (·.newStateAt h name x y) :=
  .after_ask fun _ _ => congrArg (EStateM.Result.ok _) (modifyMachine_modifyMachine ..)

theorem performs_newMachineAt (h : MachineHandle) (name : String) (x y : Int32) :
    (newMachineAt h name x y).Performs (·.newMachineAt h name x y) :=
  .after_ask fun _ _ => rfl

theorem settles_setPosition (h : NodeHandle) (place : Position) :
    (setPosition h place).Settles (·.setPosition h place) :=
  .after_ask fun _ _ => rfl

theorem settles_moveToCell (h : NodeHandle) (x y : Int32) :
    (moveToCell h x y).Settles (·.moveToCell h x y) := by
  intro c
  rw [moveToCell, run_get_bind]
  exact settles_setPosition h _ c

theorem settles_moveFrom (h : NodeHandle) (origin : Position) (dx dy : Int32) :
    (moveFrom h origin dx dy).Settles (·.moveFrom h origin dx dy) := by
  intro c
  rw [moveFrom, run_get_bind]
  exact settles_setPosition h _ c

theorem settles_moveBeside (h : NodeHandle) (direction : Direction) (other : NodeHandle) :
    (moveBeside h direction other).Settles (·.moveBeside h direction other) :=
  .after_ask fun _ => .after_ask fun origin => settles_moveFrom h origin _ _

/-- A node that was just made is there to be moved. -/
theorem Performs.then_moveFrom {w : Work α} {make : Controller → Except Fault (Controller × α)}
    (hw : w.Performs make) {made : α → NodeHandle}
    (hmade : ∀ c d a, make c = .ok (d, a) → ∃ n, d.node (made a) = .ok n) (origin : Position)
    (dx dy : Int32) :
    Performs (do
      let a ← w
      moveFrom (made a) origin dx dy
      return a) fun c => do
        let (c, a) ← make c
        return (← c.moveFrom (made a) origin dx dy, a) := by
  refine hw.bind (g := fun d a => return (← d.moveFrom (made a) origin dx dy, a)) fun c d a hd => ?_
  obtain ⟨e, he⟩ := exists_setPosition (hmade c d a hd) (origin + d.defaults.cellPosition dx dy)
  refine ⟨e, a, by rw [Controller.moveFrom, he]; rfl, ?_⟩
  rw [run_bind, (settles_moveFrom _ _ _ _).run_of_eq_ok he]
  rfl

theorem performs_newState (h : MachineHandle) (name : String) :
    (newState h name).Performs (·.newState h name) :=
  .after_ask fun last => (performs_newStateAt h name 0 0).then_moveFrom
    (fun _ _ _ hd => exists_node_of_addState hd) last 0 1

theorem performs_newMachine (h : MachineHandle) (name : String) :
    (newMachine h name).Performs (·.newMachine h name) :=
  .after_ask fun last => (performs_newMachineAt h name 0 0).then_moveFrom
    (fun _ _ _ hd => exists_node_of_addMachine hd) last 0 1

theorem settles_setDefaultState (h : MachineHandle) (s : StateHandle) :
    (setDefaultState h s).Settles (·.setDefaultState h s) := by
  refine .after_ask fun owner c => ?_
  dsimp only
  split <;> rfl

theorem settles_placeAnchor (h : MachineHandle) (a : Anchor) (x y : Int32) :
    (placeAnchor h a x y).Settles (·.placeAnchor h a x y) :=
  .after_ask fun _ _ => rfl

theorem settles_attach (h : NodeHandle) (kind : AttachmentKind)
    (change : kind.Value → kind.Value) :
    (attach h kind change).Settles (·.attach h kind change) :=
  .after_ask fun _ _ => rfl

theorem performs_start (o : Opening) : (start o).Performs (·.start o) :=
  .after_ask fun _ _ => rfl

theorem performs_restart (machine : MachineHandle) :
    (restart machine).Performs (·.restart machine) :=
  .after_ask fun _ => .after_ask fun _ _ => rfl

theorem performs_moveAutomatically (source : StateHandle) (target : Endpoint) :
    (moveAutomatically source target).Performs (·.moveAutomatically source target) := by
  intro c
  dsimp only
  rw [moveAutomatically, Controller.moveAutomatically]
  split
  · rfl
  · exact (performs_start _).bind (g := fun d r =>
      .ok (d.modifySettings r.1 fun s => { s with hasExitTime := true }, r.1))
      (fun _ _ _ _ => ⟨_, _, rfl, rfl⟩) c

theorem performs_cloneEdge (template : EdgeHandle) (source target : Endpoint) :
    (cloneEdge template source target).Performs (·.cloneEdge template source target) := by
  refine .after_ask fun e => .after_ask fun r c => ?_
  dsimp only
  split <;> rfl

theorem settles_appendCondition (e : EdgeHandle) (condition : Condition) :
    (appendCondition e condition).Settles (·.appendCondition e condition) :=
  .after_ask fun _ _ => rfl

/-- Edits one after the other come to what they make of the settings together. -/
theorem run_editEach {c : Controller} {h : StateHandle} {s : StateSettings}
    (hs : c.stateSettings h = .ok s) (edits : List (StateEdit (Reference .float))) :
    (editEach h s edits).run c = .ok (StateEdit.trail s edits)
      (c.modifyNode h.node fun n => { n with kind := .state (edits.foldl StateEdit.apply s) }) := by
  induction edits generalizing c s with
  | nil => exact congrArg (EStateM.Result.ok _) (modifyNode_settings hs).symm
  | cons e es ih =>
    rw [editEach, run_modify_bind, run_bind, ih (stateSettings_modifyNode hs (e.apply s)),
      modifyNode_modifyNode]
    rfl

theorem performs_editState (h : StateHandle) (edits : List (StateEdit (Reference .float))) :
    (editState h edits).Performs fun c => do
      let s ← c.stateSettings h
      return (← c.editState h edits, StateEdit.trail s edits) := by
  intro c
  dsimp only
  rw [editState, run_ask_bind]
  cases hs : c.stateSettings h with
  | error fault => rfl
  | ok s =>
    dsimp only
    rw [run_editEach hs, Controller.editState, hs]
    rfl

theorem performs_register (kind : ParameterKind) (name : String) :
    (register kind name).Performs (·.register kind name) := by
  intro c
  dsimp only
  rw [register, run_get_bind, Controller.register, conflict?, declare]
  cases c.parameter? name with
  | none => rfl
  | some p =>
    by_cases hk : p.kind = kind
    · simp [hk, Option.filter]
    · simp [hk, Option.filter]
      rfl

/-- The checks of all names find the first that conflicts. -/
theorem run_permitAll (kind : ParameterKind) (names : List String) (c : Controller) :
    (names.forM fun name => ask (permit kind name)).run c =
      match names.findSome? (c.conflict? kind) with
      | some fault => .error fault c
      | none => .ok () c := by
  induction names with
  | nil => rfl
  | cons name names ih =>
    rw [List.forM_eq_forM, List.forM_cons, run_ask_bind, permit, List.findSome?_cons]
    cases c.conflict? kind name with
    | some fault => rfl
    | none => exact ih

/-- Names without a conflict are registered one after the other, as none makes a conflict for those
behind it. -/
theorem run_registerEach {kind : ParameterKind} {names : List String} {c : Controller}
    (h : ∀ name ∈ names, c.conflict? kind name = none) :
    (names.forM fun name => discard (register kind name)).run c =
      .ok () (names.foldl (·.declare kind) c) := by
  induction names generalizing c with
  | nil => rfl
  | cons name names ih =>
    obtain ⟨hname, hnames⟩ := List.forall_mem_cons.mp h
    have hd : c.register kind name = .ok (c.declare kind name, ⟨name⟩) := by
      rw [Controller.register, hname]
    rw [List.forM_eq_forM, List.forM_cons, run_bind, run_discard,
      (performs_register kind name).run_of_eq_ok hd]
    exact ih fun other hother => conflict?_declare_eq_none (hnames other hother)

theorem performs_registerAll (kind : ParameterKind) (names : List String) :
    (registerAll kind names).Performs (·.registerAll kind names) := by
  intro c
  dsimp only
  rw [registerAll, run_bind, run_permitAll, Controller.registerAll]
  cases hfault : names.findSome? (c.conflict? kind) with
  | some fault => rfl
  | none =>
    dsimp only
    rw [run_bind, run_registerEach (List.findSome?_eq_none_iff.mp hfault)]
    rfl

section Answers

variable {γ : Type} {f : Controller → Except Fault (Controller × α)}

/-- A question at the end does not undo anything, as long as there is an answer. -/
theorem Performs.then_ask (hw : w.Performs f) {q : α → Controller → Except Fault β}
    (hq : ∀ c d a, f c = .ok (d, a) → ∃ b, q a d = .ok b) (answer : α → β → γ) :
    Performs (do
      let a ← w
      return answer a (← ask (q a))) fun c => do
        let (c, a) ← f c
        return (c, answer a (← q a c)) := by
  refine hw.bind (g := fun d a => return (d, answer a (← q a d))) fun c d a hd => ?_
  obtain ⟨b, hb⟩ := hq c d a hd
  refine ⟨d, answer a b, by rw [hb]; rfl, ?_⟩
  rw [run_ask_bind, hb]
  rfl

theorem Performs.map (hw : w.Performs f) (answer : α → γ) :
    Performs (do return answer (← w)) fun c => do
      let (c, a) ← f c
      return (c, answer a) :=
  hw.bind (g := fun d a => return (d, answer a)) fun _ d a _ => ⟨d, answer a, rfl, rfl⟩

theorem Settles.then_ask {w : Work Unit} {f : Controller → Except Fault Controller}
    (hw : w.Settles f) {q : Controller → Except Fault β}
    (hq : ∀ c d, f c = .ok d → ∃ b, q d = .ok b) (answer : β → γ) :
    Performs (do
      w
      return answer (← ask q)) fun c => do
        let c ← f c
        return (c, answer (← q c)) := by
  intro c
  rw [run_bind, hw]
  dsimp only
  cases hf : f c with
  | error fault => rfl
  | ok d =>
    obtain ⟨b, hb⟩ := hq c d hf
    change (ask q >>= fun b => return answer b).run d = match
        q d >>= fun b => .ok (d, answer b) with
      | .ok (d, a) => .ok a d
      | .error fault => .error fault c
    rw [run_ask_bind, hb]
    rfl

end Answers

end Work

theorem Action.performs_work (a : Action) : a.work.Performs fun c => a.perform c := by
  cases a with
  | addLayer name => exact (Work.performs_addLayer name).map _
  | newState m name =>
    exact (Work.performs_newState m name).then_ask
      (fun c d s hd => Controller.exists_position (Controller.exists_node_of_newState hd)) _
  | newStateAt m name x y =>
    exact (Work.performs_newStateAt m name x y).then_ask
      (fun c d s hd => Controller.exists_position (Controller.exists_node_of_addState hd)) _
  | newMachine m name =>
    exact (Work.performs_newMachine m name).then_ask
      (fun c d s hd => Controller.exists_position (Controller.exists_node_of_newMachine hd)) _
  | newMachineAt m name x y =>
    exact (Work.performs_newMachineAt m name x y).then_ask
      (fun c d s hd => Controller.exists_position (Controller.exists_node_of_addMachine hd)) _
  | setDefaultState m s =>
    exact (Work.settles_setDefaultState m s).then_ask (q := fun _ => .ok ()) (fun _ _ _ => ⟨_, rfl⟩)
      fun _ => Answer.done
  | setPosition h place =>
    exact (Work.settles_setPosition h place).then_ask
      (fun c d hd => Controller.exists_position (Controller.exists_node_of_setPosition hd)) _
  | moveToCell h x y =>
    exact (Work.settles_moveToCell h x y).then_ask
      (fun c d hd => Controller.exists_position (Controller.exists_node_of_setPosition hd)) _
  | moveFrom h origin dx dy =>
    exact (Work.settles_moveFrom h origin dx dy).then_ask
      (fun c d hd => Controller.exists_position (Controller.exists_node_of_setPosition hd)) _
  | moveBeside h direction other =>
    exact (Work.settles_moveBeside h direction other).then_ask
      (fun c d hd => Controller.exists_position (Controller.exists_node_of_moveBeside hd)) _
  | placeAnchor m anchor x y =>
    exact (Work.settles_placeAnchor m anchor x y).then_ask
      (fun c d hd => Controller.exists_node_of_placeAnchor hd) _
  | editState s edits =>
    intro c
    refine ((Work.performs_editState s edits).map Answer.settings c).trans ?_
    dsimp only [perform]
    cases c.stateSettings s with
    | error fault => rfl
    | ok x => cases c.editState s edits <;> rfl
  | attach h kind value =>
    exact (Work.settles_attach h kind _).then_ask (q := fun c => .ok (c.attachments.value? h kind))
      (fun _ _ _ => ⟨_, rfl⟩) _
  | register kind name =>
    exact (Work.performs_register kind name).then_ask (q := fun _ c => .ok c.parameters.length)
      (fun _ _ _ _ => ⟨_, rfl⟩) fun _ => Answer.count
  | registerAll kind names =>
    exact (Work.performs_registerAll kind names).then_ask (q := fun _ c => .ok c.parameters.length)
      (fun _ _ _ _ => ⟨_, rfl⟩) fun _ => Answer.count
  | appendCondition e x =>
    exact (Work.settles_appendCondition e x).then_ask
      (fun c d hd => Controller.exists_edge_of_appendCondition hd) _
  | restart m => exact (Work.performs_restart m).map _
  | moveAutomatically s target =>
    exact (Work.performs_moveAutomatically s target).then_ask
      (fun c d e hd => Controller.exists_edge_of_moveAutomatically hd) _
  | cloneEdge e source target =>
    exact (Work.performs_cloneEdge e source target).then_ask
      (fun c d e hd => Controller.exists_edge_of_cloneEdge hd) _

namespace Operation

/-- An operation as work in place. The chain of a transition runs on what its start has left. -/
def work : Operation → Work Unit
  | act a => discard a.work
  | change n kind f => Work.attach n kind f
  | travel o chain tokens => do
    let (e, route) ← Work.start o
    modify fun c => (chain.run route (.fresh e) ⟨c, tokens, [], []⟩).controller

variable {op : Operation} {c d : Controller} {fault : Fault}

/-- In place an operation comes to what it is applied for, and where it fails, to nothing. -/
theorem run_work (op : Operation) (c : Controller) :
    op.work.run c = .ok () (op.apply c) ∨
      op.apply c = c ∧ ∃ fault, op.work.run c = .error fault c := by
  cases op with
  | act a =>
    rw [work, Work.run_discard, a.performs_work, apply]
    dsimp only
    cases a.perform c with
    | ok r => exact .inl rfl
    | error fault => exact .inr ⟨rfl, fault, rfl⟩
  | change n kind f =>
    rw [work, Work.settles_attach, apply]
    dsimp only
    cases c.attach n kind f with
    | ok d => exact .inl rfl
    | error fault => exact .inr ⟨rfl, fault, rfl⟩
  | travel o chain tokens =>
    rw [work, Work.run_bind, Work.performs_start, apply]
    dsimp only
    cases c.start o with
    | ok r => exact .inl rfl
    | error fault => exact .inr ⟨rfl, fault, rfl⟩

/-- An operation that is refused has left the controller as it was. -/
theorem unchanged_of_refused (h : op.work.run c = .error fault d) : d = c := by
  rcases op.run_work c with hok | ⟨-, other, herror⟩
  · rw [hok] at h
    cases h
  · rw [herror] at h
    exact (EStateM.Result.error.inj h).2.symm

/-- The first name of a group could be registered, but is not where a later one has another kind. -/
theorem unchanged_of_refused_group :
    let c := Controller.bare.declare .int "b"
    let op := Operation.act (.registerAll .float ["a", "b"])
    ∃ d, op.work.run c = .error (.kindMismatch "b" .int .float) d ∧ d = c := by
  intro c op
  have h : op.work.run c = .error (.kindMismatch "b" .int .float) c := rfl
  exact ⟨c, h, unchanged_of_refused h⟩

end Operation

end Statechart
