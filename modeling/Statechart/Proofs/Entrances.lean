import Statechart.Proofs.Concerns
import Statechart.Proofs.Findings
import Statechart.Proofs.Lineage
import Statechart.Proofs.Roster

/-! By which state a machine is entered, told by what was done to an authored controller: by the one
that was chosen for it last, or else by the first that was created in it. -/

namespace Statechart

theorem Node.isState_eq_true {n : Node} : n.isState = true ↔ ∃ s, n.kind = .state s := by
  cases h : n.kind <;> simp [isState, h, NodeKind.settings?]

/-- What a successful action has to do with how machines are entered, as its answer tells. -/
def Action.entrance? : Action → Answer → Option Entrance
  | newState m _, .placed h _ | newStateAt m _ _ _, .placed h _ => some (.created m ⟨h⟩)
  | setDefaultState m s, .done => some (.chosen m s)
  | _, _ => none

def Operation.entrance? (c : Controller) : Operation → Option Entrance
  | act a => match a.perform c with
    | .ok (_, answer) => a.entrance? answer
    | .error _ => none
  | change _ _ _ | travel _ _ _ => none

namespace Controller

/-- All that operations one after the other have to do with how machines are entered. -/
def entrances (c : Controller) : List Operation → List Entrance
  | [] => []
  | op :: ops => (op.entrance? c).toList ++ (op.apply c).entrances ops

def roster (c : Controller) : Roster := c.nodes.map (·.post)

variable {c d : Controller} {h : MachineHandle}

theorem length_roster : c.roster.length = c.nodes.length := List.length_map ..

theorem getElem?_roster {i : Nat} {n : Node} (hn : c.nodes[i]? = some n) :
    c.roster[i]? = some n.post := by
  rw [roster, List.getElem?_map, hn, Option.map_some]

theorem roster_modifyNode {g : NodeHandle} {f : Node → Node} {k : Post → Post}
    (hf : ∀ n, c.nodes[g.index]? = some n → (f n).post = k n.post) :
    (c.modifyNode g f).roster = c.roster.modify g.index k :=
  map_modify hf

theorem roster_modifyNode_eq {g : NodeHandle} {f : Node → Node}
    (hf : ∀ n, c.nodes[g.index]? = some n → (f n).post = n.post) :
    (c.modifyNode g f).roster = c.roster :=
  (roster_modifyNode (k := fun p => p) hf).trans (List.modify_id ..)

theorem roster_only (c : Controller) : (c.only .entries).roster = c.roster := by
  have hpost (n : Node) : (n.only .entries).post = n.post := by
    obtain ⟨name, parent, position, kind⟩ := n
    cases kind <;> rfl
  simp only [roster, only, List.map_map, Function.comp_def, hpost]

theorem post_onMachine {n : Node} {m : Machine} {g : Machine → Machine}
    {f : Option StateHandle → Option StateHandle} (hk : n.kind = .machine m)
    (hg : (g m).defaultState = f m.defaultState) : (onMachine g n).post = n.post.enter f := by
  rw [Node.post, Node.post, parent_onMachine, isState_onMachine, initial?_onMachine hk, hg,
    Node.initial?_of_machine hk]
  rfl

theorem roster_modifyMachine {x : Machine} (hx : c.machine h = .ok x) {g : Machine → Machine}
    {f : Option StateHandle → Option StateHandle}
    (hg : ∀ m, (g m).defaultState = f m.defaultState) :
    (c.modifyMachine h g).roster = c.roster.modify h.index (.enter f) := by
  obtain ⟨n, hn, hk⟩ := machine_eq_ok.mp hx
  refine roster_modifyNode (f := onMachine g) fun k hk' => ?_
  obtain rfl := Option.some.inj (hn.symm.trans hk')
  exact post_onMachine hk (hg x)

theorem roster_modifyMachine_eq {g : Machine → Machine}
    (hg : ∀ m, (g m).defaultState = m.defaultState) : (c.modifyMachine h g).roster = c.roster := by
  refine roster_modifyNode_eq (f := onMachine g) fun n _ => ?_
  cases hk : n.kind with
  | state x => rw [onMachine_of_state hk]
  | machine m => exact post_onMachine hk (f := fun s => s) (hg m)

theorem roster_pushNode (n : Node) : (c.pushNode n).roster = c.roster ++ [n.post] :=
  List.map_append ..

theorem step_addLayer (name : String) : c.roster.Step none (c.addLayer name).1.roster := by
  have hroster : (c.addLayer name).1.roster = c.roster ++ [Post.mk none false none] :=
    roster_pushNode _
  rw [hroster]
  exact .machine none

theorem step_addState {name : String} {place : Position} {s : StateHandle}
    (hd : c.addState h name place = .ok (d, s)) :
    c.roster.Step (some (.created h s)) d.roster := by
  simp only [addState, bind_eq_ok, pure_eq_ok, Prod.mk.injEq] at hd
  obtain ⟨x, hx, rfl, rfl⟩ := hd
  obtain ⟨n, hn, -⟩ := machine_eq_ok.mp hx
  have hstep := Roster.Step.state (h := h) (getElem?_roster hn)
  rw [length_roster] at hstep
  rw [roster_modifyMachine (f := (·.or (some ⟨c.nextNode⟩))) (machine_pushNode hx _)
    (fun _ => rfl), roster_pushNode]
  exact hstep

theorem step_addMachine {name : String} {place : Position} {m : MachineHandle}
    (hd : c.addMachine h name place = .ok (d, m)) : c.roster.Step none d.roster := by
  simp only [addMachine, bind_eq_ok, pure_eq_ok, Prod.mk.injEq] at hd
  obtain ⟨x, -, rfl, -⟩ := hd
  rw [roster_modifyMachine_eq, roster_pushNode]
  · exact .machine (some h)
  · exact fun _ => rfl

theorem roster_setPosition {g : NodeHandle} {place : Position}
    (hd : c.setPosition g place = .ok d) : d.roster = c.roster := by
  simp only [setPosition, bind_eq_ok, pure_eq_ok] at hd
  obtain ⟨n, -, rfl⟩ := hd
  exact roster_modifyNode_eq fun n _ => rfl

theorem step_newState {name : String} {s : StateHandle} (hd : c.newState h name = .ok (d, s)) :
    c.roster.Step (some (.created h s)) d.roster := by
  simp only [newState, bind_eq_ok, pure_eq_ok, Prod.mk.injEq] at hd
  obtain ⟨_, -, ⟨added, t⟩, hadded, _, hmoved, rfl, rfl⟩ := hd
  rw [roster_setPosition hmoved]
  exact step_addState hadded

theorem step_newMachine {name : String} {m : MachineHandle}
    (hd : c.newMachine h name = .ok (d, m)) : c.roster.Step none d.roster := by
  simp only [newMachine, bind_eq_ok, pure_eq_ok, Prod.mk.injEq] at hd
  obtain ⟨_, -, ⟨added, t⟩, hadded, _, hmoved, rfl, -⟩ := hd
  rw [roster_setPosition hmoved]
  exact step_addMachine hadded

/-- A state can only be chosen for the machine that owns it, which is there if nodes are in
order. -/
theorem step_setDefaultState (hc : c.tree.Ordered) {s : StateHandle}
    (hd : c.setDefaultState h s = .ok d) : c.roster.Step (some (.chosen h s)) d.roster := by
  simp only [setDefaultState, bind_eq_ok] at hd
  obtain ⟨p, hp, hd⟩ := hd
  split at hd
  · rename_i howner
    subst howner
    obtain ⟨n, hn, hstate, hparent⟩ := ownerOfState_eq_ok.mp hp
    obtain ⟨-, k, hk, hmachine, -⟩ := hc.exists_older (g := s.node) hn hparent
    obtain ⟨x, hx⟩ := Node.isState_eq_false.mp hmachine
    rw [← Except.ok.inj hd, roster_modifyMachine (f := fun _ => some s)
      (machine_eq_ok.mpr ⟨k, hk, hx⟩) fun _ => rfl]
    exact .choice (getElem?_roster hk) ⟨n.post, getElem?_roster hn, hstate, hparent⟩
  · cases hd

end Controller

open Controller

theorem Operation.roster_apply {op : Operation} {p : Part} (hpart : op.part? = some p)
    (hp : Part.entries ≠ p) (c : Controller) : (op.apply c).roster = c.roster := by
  rw [← roster_only, op.only_apply hpart hp, roster_only]

theorem Action.of_then_placed {d : Controller} {α : Type}
    {w : Except Fault (Controller × α)} {g : α → NodeHandle} {answer : Answer}
    (h : (do let (grown, s) ← w; andPlaced (g s) grown) = .ok (d, answer)) :
    ∃ s place, w = .ok (d, s) ∧ answer = .placed (g s) place := by
  simp only [andPlaced, bind_eq_ok, pure_eq_ok, Prod.mk.injEq] at h
  obtain ⟨⟨grown, s⟩, hgrown, place, -, rfl, rfl⟩ := h
  exact ⟨s, place, hgrown, rfl⟩

theorem Action.step_perform {a : Action} {c d : Controller} {answer : Answer}
    (hc : c.tree.Ordered) (hd : a.perform c = .ok (d, answer)) :
    c.roster.Step (a.entrance? answer) d.roster := by
  have happly : (Operation.act a).apply c = d := by simp only [Operation.apply, hd]
  cases a with
  | addLayer name =>
    cases hd
    exact step_addLayer name
  | newState m name =>
    obtain ⟨s, place, hs, rfl⟩ := of_then_placed hd
    exact step_newState hs
  | newStateAt m name x y =>
    obtain ⟨s, place, hs, rfl⟩ := of_then_placed hd
    exact step_addState hs
  | newMachine m name =>
    obtain ⟨inner, place, hinner, rfl⟩ := of_then_placed hd
    exact step_newMachine hinner
  | newMachineAt m name x y =>
    obtain ⟨inner, place, hinner, rfl⟩ := of_then_placed hd
    exact step_addMachine hinner
  | setDefaultState m s =>
    simp only [perform, bind_eq_ok, pure_eq_ok, Prod.mk.injEq] at hd
    obtain ⟨_, hset, rfl, rfl⟩ := hd
    exact step_setDefaultState hc hset
  | _ =>
    -- these are about other parts than entries, and their answers do not tell of any
    rw [← happly, Operation.roster_apply rfl (by decide)]
    exact .same

theorem Operation.step_apply (op : Operation) {c : Controller} (hc : c.tree.Ordered) :
    c.roster.Step (op.entrance? c) (op.apply c).roster := by
  cases op with
  | act a =>
    cases hd : a.perform c with
    | error fault =>
      simp only [apply, entrance?, hd]
      exact .same
    | ok r =>
      simp only [apply, entrance?, hd]
      exact Action.step_perform hc hd
  | change n kind f =>
    rw [roster_apply rfl (by decide)]
    exact .same
  | travel o chain tokens =>
    rw [roster_apply rfl (by decide)]
    exact .same

theorem Operation.length_nodes_le (op : Operation) (c : Controller) :
    c.nodes.length ≤ (op.apply c).nodes.length := by
  rcases op.builds_or_withEdges c with h | ⟨es, h⟩
  · exact h.length_nodes_le
  · rw [h]
    exact Nat.le_refl _

theorem Authored.ordered {c : Controller} (h : Authored c) (hb : c.nodes.length < 2 ^ 32) :
    c.tree.Ordered := by
  have hlen : c.tree.spots.length = c.nodes.length := List.length_map ..
  exact Tree.ordered_of_grows h.grows (by omega)

namespace Controller

variable {c : Controller} {ops : List Operation} {log : List Entrance}

theorem length_nodes_le_after (c : Controller) (ops : List Operation) :
    c.nodes.length ≤ (c.after ops).nodes.length := by
  induction ops generalizing c with
  | nil => exact Nat.le_refl _
  | cons op ops ih => exact Nat.le_trans (op.length_nodes_le c) (ih (op.apply c))

/-- As operations are done to an authored controller, the log of them is kept. -/
theorem recorded_after (hc : Authored c) (hb : (c.after ops).nodes.length < 2 ^ 32)
    (hr : c.roster.Recorded log) : (c.after ops).roster.Recorded (log ++ c.entrances ops) := by
  induction ops generalizing c log with
  | nil =>
    rw [entrances, List.append_nil]
    exact hr
  | cons op ops ih =>
    rw [after_cons] at hb ⊢
    have hnext : (op.apply c).nodes.length < 2 ^ 32 :=
      Nat.lt_of_le_of_lt (length_nodes_le_after _ ops) hb
    have hordered := hc.ordered (Nat.lt_of_le_of_lt (op.length_nodes_le c) hnext)
    have hrecorded := hr.step (op.step_apply hordered) (by rwa [length_roster])
    have hafter := ih (hc.operate op) hb hrecorded
    rwa [List.append_assoc] at hafter

section Recorded

variable (hr : c.roster.Recorded log)

include hr

theorem defaultState_of_recorded {m : MachineHandle} {x : Machine} (hx : c.machine m = .ok x) :
    x.defaultState = entryAfter log m := by
  obtain ⟨n, hn, hk⟩ := machine_eq_ok.mp hx
  have hentry := hr.entry m
  rw [getElem?_roster hn, Option.bind_some, Node.post, Node.initial?_of_machine hk] at hentry
  exact hentry

theorem ownerOfState_of_mem {e : Entrance} (he : e ∈ log) :
    c.ownerOfState e.state = .ok e.machine := by
  obtain ⟨p, hp, hstate, hparent⟩ := hr.owned e he
  rw [roster, List.getElem?_map, Option.map_eq_some_iff] at hp
  obtain ⟨n, hn, rfl⟩ := hp
  exact ownerOfState_eq_ok.mpr ⟨n, hn, hstate, hparent⟩

theorem ownerOfState_of_entryAfter {m : MachineHandle} {s : StateHandle}
    (hs : entryAfter log m = some s) : c.ownerOfState s = .ok m := by
  rcases mem_of_entryAfter_eq_some hs with he | he
  · exact ownerOfState_of_mem hr he
  · exact ownerOfState_of_mem hr he

/-- A child that is a state was created in the machine, which is then entered by some state. -/
theorem defaultState_ne_none (hc : c.tree.Ordered) {m : MachineHandle} {x : Machine}
    (hx : c.machine m = .ok x) {child : NodeHandle} (hchild : child ∈ x.children) {k : Node}
    (hk : c.nodes[child.index]? = some k) (hstate : k.isState = true) : x.defaultState ≠ none := by
  obtain ⟨n, hn, hkind⟩ := machine_eq_ok.mp hx
  rw [← Node.children_of_machine hkind] at hchild
  -- as a child it names the machine as its parent, so its creation is in the log
  obtain ⟨k', hk', hparent⟩ := hc.parent_of_mem_children (g := m.node) hn hchild
  obtain rfl := Option.some.inj (hk.symm.trans hk')
  rw [defaultState_of_recorded hr hx]
  exact entryAfter_ne_none (hr.complete _ m ⟨k.post, getElem?_roster hk, hstate, hparent⟩)

theorem noDefaultState_not_mem (hc : c.tree.Ordered) (hb : c.nodes.length < 2 ^ 32)
    (m : MachineHandle) : .noDefaultState m ∉ (c.verdict .standard).issues := by
  intro hmem
  have hrules : Rules.standard = (Inquiry.mk true true true []).rules := rfl
  rw [hrules, issues_findings] at hmem
  obtain ⟨⟨site, issue⟩, hfound, hissue⟩ := List.mem_map.mp hmem
  obtain rfl : issue = .noDefaultState m := hissue
  cases mem_findings.mp hfound with
  | demanded asked raised => cases asked
  | @noDefaultState i n k x child _ hn hkind hnone hchild hk hstate =>
    have hindex : (NodeHandle.ofIndex i).index = i :=
      NodeHandle.index_ofIndex (Nat.lt_trans (List.getElem?_eq_some_iff.mp hn).1 hb)
    have hx : c.machine ⟨.ofIndex i⟩ = .ok x :=
      machine_eq_ok.mpr ⟨n, by rwa [MachineHandle.index, hindex], hkind⟩
    exact defaultState_ne_none hr hc hx hchild hk hstate hnone

end Recorded

/-- In an authored controller every machine is entered by the state that was chosen for it last, or
else by the first that was created in it, so by one of its children, and only a machine without
states by none. -/
theorem entered_as_recorded (id : Uuid) (name : String) (defaults : Defaults)
    (ops : List Operation) :
    let start := Controller.new id name defaults
    let c := start.after ops
    c.nodes.length < 2 ^ 32 →
    (∀ m x, c.machine m = .ok x →
      c.defaultState m = .ok (entryAfter (start.entrances ops) m) ∧
      ∀ s, c.defaultState m = .ok (some s) →
        s.node ∈ x.children ∧ ∃ y, c.stateSettings s = .ok y) ∧
    ∀ m, .noDefaultState m ∉ (c.verdict .standard).issues := by
  intro start c hb
  have hauthored : Authored c := (Authored.new id name defaults).foldl ops
  have hordered : c.tree.Ordered := hauthored.ordered hb
  have hstart : start.roster.Recorded [] := Roster.recorded_nil
  have hr : c.roster.Recorded (start.entrances ops) :=
    recorded_after (.new id name defaults) hb hstart
  refine ⟨fun m x hx => ?_, noDefaultState_not_mem hr hordered hb⟩
  have hdefault : c.defaultState m = .ok (entryAfter (start.entrances ops) m) := by
    rw [defaultState, hx, ← defaultState_of_recorded hr hx]
    rfl
  refine ⟨hdefault, fun s hs => ?_⟩
  have hentry : entryAfter (start.entrances ops) m = some s :=
    Except.ok.inj (hdefault.symm.trans hs)
  obtain ⟨n, hn, hstate, hparent⟩ := ownerOfState_eq_ok.mp (ownerOfState_of_entryAfter hr hentry)
  constructor
  · obtain ⟨k, hk, hkind⟩ := machine_eq_ok.mp hx
    obtain ⟨-, k', hk', -, hchild⟩ := hordered.exists_older (g := s.node) hn hparent
    obtain rfl := Option.some.inj (hk.symm.trans hk')
    rwa [← Node.children_of_machine hkind]
  · obtain ⟨y, hy⟩ := Node.isState_eq_true.mp hstate
    exact ⟨y, stateSettings_eq_ok.mpr ⟨n, hn, hy⟩⟩

/-- A controller without layers. -/
def blank : Controller := .new bare.id "" .standard

/-- The states of two machines are made in turn, and for the first machine one of its own is chosen,
and then one that it does not own. -/
def twoMachines : List Operation :=
  [.act (.addLayer ""), .act (.newMachineAt bareRoot "" 0 0), .act (.newStateAt bareRoot "" 0 0),
    .act (.newStateAt ⟨.ofIndex 1⟩ "" 0 0), .act (.newStateAt bareRoot "" 1 0),
    .act (.setDefaultState bareRoot ⟨.ofIndex 4⟩), .act (.setDefaultState bareRoot ⟨.ofIndex 3⟩),
    .act (.newStateAt ⟨.ofIndex 1⟩ "" 1 0)]

/-- One machine is entered by the state that was chosen for it, the other by its first. -/
theorem entered_as_recorded_twoMachines :
    (blank.after twoMachines).nodes.length < 2 ^ 32 ∧
      blank.entrances twoMachines = [.created bareRoot ⟨.ofIndex 2⟩,
        .created ⟨.ofIndex 1⟩ ⟨.ofIndex 3⟩, .created bareRoot ⟨.ofIndex 4⟩,
        .chosen bareRoot ⟨.ofIndex 4⟩, .created ⟨.ofIndex 1⟩ ⟨.ofIndex 5⟩] ∧
      (blank.after twoMachines).defaultState bareRoot = .ok (some ⟨.ofIndex 4⟩) ∧
      (blank.after twoMachines).defaultState ⟨.ofIndex 1⟩ = .ok (some ⟨.ofIndex 3⟩) ∧
      ∀ m, .noDefaultState m ∉ ((blank.after twoMachines).verdict .standard).issues := by
  have hb : (blank.after twoMachines).nodes.length < 2 ^ 32 := by decide
  have hlog : blank.entrances twoMachines = [.created bareRoot ⟨.ofIndex 2⟩,
      .created ⟨.ofIndex 1⟩ ⟨.ofIndex 3⟩, .created bareRoot ⟨.ofIndex 4⟩,
      .chosen bareRoot ⟨.ofIndex 4⟩, .created ⟨.ofIndex 1⟩ ⟨.ofIndex 5⟩] := rfl
  obtain ⟨hentered, hvalid⟩ := entered_as_recorded bare.id "" .standard twoMachines hb
  have hroot : (blank.after twoMachines).defaultState bareRoot =
      .ok (entryAfter (blank.entrances twoMachines) bareRoot) := (hentered bareRoot _ rfl).1
  have hsub : (blank.after twoMachines).defaultState ⟨.ofIndex 1⟩ =
      .ok (entryAfter (blank.entrances twoMachines) ⟨.ofIndex 1⟩) := (hentered _ _ rfl).1
  rw [hlog] at hroot hsub
  exact ⟨hb, hlog, hroot, hsub, hvalid⟩

end Controller

end Statechart
