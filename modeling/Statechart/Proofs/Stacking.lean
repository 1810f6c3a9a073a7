import Mathlib.Logic.Function.Iterate
import Statechart.Proofs.Concerns
import Statechart.Proofs.Lineage

/-! Where new nodes are placed. A node that is made in a machine comes one cell below the last child
there is, wherever that was moved to, so that nodes made in a row stand in one column. -/

namespace Statechart

namespace Tree

variable {t u : Tree}

/-- Every child that is listed is there. -/
def Populated (t : Tree) : Prop :=
  ∀ (i : Nat) (s : Spot), t.spots[i]? = some s → ∀ child ∈ s.children, child.index < t.spots.length

theorem Populated.grows (h : t.Populated) (hg : t.Grows u) : u.Populated := by
  have hle := hg.length_le
  cases hg with
  | same => exact h
  | plant =>
    intro i s hs child hchild
    rcases getElem?_concat_eq_some.mp hs with hs | ⟨-, rfl⟩
    · exact Nat.lt_of_lt_of_le (h i s hs child hchild) hle
    · cases hchild
  | @adopt m x hx hmachine isState =>
    intro i s' hs' child hchild
    have hlt : m.index < t.spots.length := (List.getElem?_eq_some_iff.mp hx).1
    rcases (getElem?_adopt hlt isState i s').mp hs' with ⟨s, hs, rfl⟩ | ⟨-, rfl⟩
    · split at hchild
      · rcases List.mem_append.mp hchild with hchild | hchild
        · exact Nat.lt_of_lt_of_le (h i s hs child hchild) hle
        · -- the handle of a new node never exceeds the number of nodes, even where it wraps
          have hnew : t.next.index ≤ t.spots.length := Nat.mod_le ..
          rw [List.mem_singleton.mp hchild, adopt, List.length_modify, List.length_append]
          exact Nat.lt_succ_of_le hnew
      · exact Nat.lt_of_lt_of_le (h i s hs child hchild) hle
    · cases hchild

theorem Populated.grown (h : t.Populated) (hg : Relation.ReflTransGen Grows t u) :
    u.Populated := by
  induction hg with
  | refl => exact h
  | tail _ hlast ih => exact ih.grows hlast

end Tree

/-- What operations make of a new or a restored controller. -/
inductive Produced : Controller → Prop
  | new (id : Uuid) (name : String) (defaults : Defaults) : Produced (.new id name defaults)
  | restored {s : Snapshot} {c : Controller} (h : Controller.restore s = .ok c) : Produced c
  | operate {c : Controller} (h : Produced c) (op : Operation) : Produced (op.apply c)

theorem Produced.after {c : Controller} (h : Produced c) (ops : List Operation) :
    Produced (c.after ops) := by
  induction ops generalizing c with
  | nil => exact h
  | cons op ops ih => exact ih (h.operate op)

theorem Produced.populated {c : Controller} (h : Produced c) : c.tree.Populated := by
  induction h with
  | new id name defaults => exact fun _ _ hs => nomatch hs
  | restored h =>
    intro i s hs child hchild
    obtain ⟨n, hn, rfl⟩ := Controller.getElem?_tree_eq_some.mp hs
    obtain ⟨k, hk, -⟩ := ((Controller.linked_of_restore h).nodes i n hn).named child hchild
    exact (List.getElem?_eq_some_iff.mp (Controller.getElem?_tree hk)).1
  | operate h op ih => exact ih.grown (op.grows_apply _)

/-- A call that makes a node in a machine and places it by itself. -/
inductive Birth where
  | state (name : String)
  | machine (name : String)

namespace Birth

def work (m : MachineHandle) : Birth → Work NodeHandle
  | state name => do return (← Work.newState m name).node
  | machine name => do return (← Work.newMachine m name).node

def workEach (m : MachineHandle) : List Birth → Work (List NodeHandle)
  | [] => return []
  | b :: bs => do
    let child ← b.work m
    return child :: (← workEach m bs)

def isState : Birth → Bool
  | state _ => true
  | machine _ => false

def node (c : Controller) (m : MachineHandle) (place : Position) : Birth → Node
  | state name => ⟨name, some m, place, .state c.defaults.newState⟩
  | machine name => ⟨name, some m, place, .machine c.newMachineData⟩

/-- The machine with one child more, which it is entered by if that is its first state. -/
def join (child : NodeHandle) (x : Machine) (b : Birth) : Machine where
  children := x.children ++ [child]
  defaultState := x.defaultState.or (if b.isState then some ⟨child⟩ else none)
  anchors := x.anchors

def firstState? (bs : List Birth) (handles : List NodeHandle) : Option StateHandle :=
  ((bs.zip handles).find? (·.1.isState)).map fun b => ⟨b.2⟩

def joinAll (bs : List Birth) (handles : List NodeHandle) (x : Machine) : Machine where
  children := x.children ++ handles
  defaultState := x.defaultState.or (firstState? bs handles)
  anchors := x.anchors

theorem joinAll_nil (x : Machine) : joinAll [] [] x = x := by
  simp [joinAll, firstState?]

theorem joinAll_cons (b : Birth) (bs : List Birth) (child : NodeHandle)
    (handles : List NodeHandle) (x : Machine) :
    joinAll bs handles (b.join child x) = joinAll (b :: bs) (child :: handles) x := by
  cases hb : b.isState <;> simp [joinAll, join, firstState?, hb]

end Birth

namespace Controller

variable {c : Controller} {m : MachineHandle} {x : Machine} {p : Position}

/-- Where the last child of a machine is, or the place above its first child to come. -/
def LastAt (c : Controller) (x : Machine) (p : Position) : Prop :=
  match x.children.getLast? with
  | some child => ∃ n, c.nodes[child.index]? = some n ∧ n.position = p
  | none => p = ⟨c.defaults.grid.x * .ofInt 2, .zero false⟩

theorem exists_lastAt (h : c.tree.Populated) (hm : c.machine m = .ok x) : ∃ p, c.LastAt x p := by
  obtain ⟨n, hn, hk⟩ := machine_eq_ok.mp hm
  cases hlast : x.children.getLast? with
  | none => exact ⟨⟨c.defaults.grid.x * .ofInt 2, .zero false⟩, by simp [LastAt, hlast]⟩
  | some child =>
    have hmem : child ∈ n.spot.children := by
      rw [Node.spot, Node.children_of_machine hk]
      exact List.mem_of_getLast? hlast
    have hlt := h _ _ (getElem?_tree hn) child hmem
    rw [tree, List.length_map] at hlt
    exact ⟨c.nodes[child.index].position, by simp [LastAt, hlast, hlt]⟩

theorem lastPosition_eq (hm : c.machine m = .ok x) (hp : c.LastAt x p) :
    c.lastPosition m = .ok p := by
  cases hlast : x.children.getLast? with
  | some child =>
    simp only [LastAt, hlast] at hp
    obtain ⟨n, hn, rfl⟩ := hp
    simp only [lastPosition, hm, hlast, node_eq_ok.mpr hn, bind, Except.bind]
    rfl
  | none =>
    simp only [LastAt, hlast] at hp
    simp only [lastPosition, hm, hlast, hp, bind, Except.bind]
    rfl

theorem modifyMachine_pushNode (hm : c.machine m = .ok x) (n : Node) (g : Machine → Machine) :
    (c.pushNode n).modifyMachine m g = (c.modifyMachine m g).pushNode n := by
  obtain ⟨k, hk, -⟩ := machine_eq_ok.mp hm
  have hlt : m.index < c.nodes.length := (List.getElem?_eq_some_iff.mp hk).1
  exact congrArg (fun nodes => { c with nodes }) (modify_append_left hlt [n] (onMachine g))

def withChild (c : Controller) (m : MachineHandle) (b : Birth) (place : Position) : Controller :=
  (c.modifyMachine m (b.join c.nextNode)).pushNode (b.node c m place)

theorem index_nextNode (hlt : c.nodes.length < 2 ^ 32) (g : Machine → Machine) :
    c.nextNode.index = (c.modifyMachine m g).nodes.length := by
  rw [nextNode, NodeHandle.index_ofIndex hlt]
  exact (List.length_modify ..).symm

theorem moveFrom_next (hlt : c.nodes.length < 2 ^ 32) (hm : c.machine m = .ok x) (n : Node)
    (g : Machine → Machine) (p : Position) (dx dy : Int32) :
    ((c.pushNode n).modifyMachine m g).moveFrom c.nextNode p dx dy =
      .ok ((c.modifyMachine m g).pushNode
        { n with position := p + c.defaults.cellPosition dx dy }) := by
  have hindex := c.index_nextNode (m := m) hlt g
  have hnode : ((c.modifyMachine m g).pushNode n).node c.nextNode = .ok n := by
    rw [node_eq_ok, hindex]
    simp [pushNode]
  rw [modifyMachine_pushNode hm, moveFrom, setPosition, hnode]
  refine congrArg (fun nodes => Except.ok { c with nodes }) ?_
  rw [pushNode, hindex]
  exact modify_length_append ..

end Controller

namespace Birth

variable {c : Controller} {m : MachineHandle} {x : Machine} {p : Position}

theorem run_work (hlt : c.nodes.length < 2 ^ 32) (hm : c.machine m = .ok x) (hp : c.LastAt x p)
    (b : Birth) :
    (b.work m).run c =
      .ok c.nextNode (c.withChild m b (p + c.defaults.cellPosition 0 1)) := by
  have hlast := Controller.lastPosition_eq hm hp
  cases b with
  | state name =>
    have hmake : c.newState m name =
        .ok (c.withChild m (state name) (p + c.defaults.cellPosition 0 1), ⟨c.nextNode⟩) := by
      simp only [Controller.newState, hlast, Controller.newStateAt, Controller.addState, hm, bind,
        Except.bind, pure, Except.pure]
      rw [Controller.moveFrom_next hlt hm]
      rfl
    rw [work, Work.run_bind, (Work.performs_newState m name).run_of_eq_ok hmake]
    rfl
  | machine name =>
    have hmake : c.newMachine m name =
        .ok (c.withChild m (machine name) (p + c.defaults.cellPosition 0 1), ⟨c.nextNode⟩) := by
      simp only [Controller.newMachine, hlast, Controller.newMachineAt, Controller.addMachine, hm,
        bind, Except.bind, pure, Except.pure]
      rw [Controller.moveFrom_next hlt hm]
      simp [Controller.withChild, join, isState, node]
    rw [work, Work.run_bind, (Work.performs_newMachine m name).run_of_eq_ok hmake]
    rfl

end Birth

namespace Controller

variable {c : Controller} {m : MachineHandle} {x : Machine} {p q : Position}

def upcoming (c : Controller) (bs : List Birth) : List NodeHandle :=
  (List.range' c.nodes.length bs.length).map .ofIndex

/-- A controller with some children more for a machine, in a column below a place. -/
def stacked (c : Controller) (m : MachineHandle) (bs : List Birth) (p : Position) : Controller :=
  let grown := c.modifyMachine m (Birth.joinAll bs (c.upcoming bs))
  { grown with
    nodes := grown.nodes ++ bs.zipIdx.map fun b =>
      b.1.node c m ((· + c.defaults.cellPosition 0 1)^[b.2 + 1] p) }

theorem length_withChild (b : Birth) (place : Position) :
    (c.withChild m b place).nodes.length = c.nodes.length + 1 := by
  simp [withChild, pushNode, modifyMachine, modifyNode]

theorem modifyMachine_eq (hm : c.machine m = .ok x) (g : Machine → Machine) :
    c.modifyMachine m g = c.modifyNode m.node fun n => { n with kind := .machine (g x) } := by
  obtain ⟨n, hn, hk⟩ := machine_eq_ok.mp hm
  refine modifyNode_congr (f := onMachine g) fun k hk' => ?_
  obtain rfl := Option.some.inj (hn.symm.trans hk')
  simp only [onMachine, hk]

theorem machine_modifyMachine (hm : c.machine m = .ok x) (g : Machine → Machine) :
    (c.modifyMachine m g).machine m = .ok (g x) := by
  obtain ⟨n, hn, hk⟩ := machine_eq_ok.mp hm
  refine machine_eq_ok.mpr ⟨onMachine g n, ?_, by simp only [onMachine, hk]⟩
  have hmodified : (c.nodes.modify m.index (onMachine g))[m.index]? = some (onMachine g n) := by
    rw [List.getElem?_modify_eq, hn]
    rfl
  exact hmodified

theorem machine_withChild (hm : c.machine m = .ok x) (b : Birth) (place : Position) :
    (c.withChild m b place).machine m = .ok (b.join c.nextNode x) :=
  machine_pushNode (machine_modifyMachine hm _) _

theorem lastAt_withChild (hlt : c.nodes.length < 2 ^ 32) (b : Birth) (place : Position) :
    (c.withChild m b place).LastAt (b.join c.nextNode x) place := by
  have hlast : (b.join c.nextNode x).children.getLast? = some c.nextNode := by simp [Birth.join]
  rw [LastAt, hlast]
  refine ⟨b.node c m place, ?_, by cases b <;> rfl⟩
  rw [c.index_nextNode (m := m) hlt (b.join c.nextNode)]
  simp [withChild, pushNode]

theorem stacked_nil : c.stacked m [] p = c := by
  have hid : c.modifyMachine m (Birth.joinAll [] []) = c := by
    have hnode : onMachine (Birth.joinAll [] []) = fun n => n := by
      rw [show Birth.joinAll [] [] = fun x => x from funext Birth.joinAll_nil]
      exact funext onMachine_id
    exact (congrArg (c.modifyNode m.node) hnode).trans (modifyNode_id m.node)
  simp [stacked, upcoming, hid]

theorem upcoming_cons (b : Birth) (bs : List Birth) (place : Position) :
    c.upcoming (b :: bs) = c.nextNode :: (c.withChild m b place).upcoming bs := by
  rw [upcoming, upcoming, length_withChild, List.length_cons, List.range'_succ, List.map_cons,
    nextNode]

theorem stacked_withChild (hm : c.machine m = .ok x) (b : Birth) (bs : List Birth) :
    (c.withChild m b (p + c.defaults.cellPosition 0 1)).stacked m bs
        (p + c.defaults.cellPosition 0 1) = c.stacked m (b :: bs) p := by
  obtain ⟨q, hq⟩ : ∃ q, p + c.defaults.cellPosition 0 1 = q := ⟨_, rfl⟩
  have hplaces : (b :: bs).zipIdx.map (fun b : Birth × Nat =>
      b.1.node c m ((· + c.defaults.cellPosition 0 1)^[b.2 + 1] p)) =
      b.node c m q :: bs.zipIdx.map fun b =>
        b.1.node c m ((· + c.defaults.cellPosition 0 1)^[b.2 + 1] q) := by
    rw [List.zipIdx_cons, List.zipIdx_succ, List.map_cons, List.map_map, ← hq]
    exact congrArg _ (List.map_congr_left fun _ _ => rfl)
  have hmachine : (c.withChild m b q).modifyMachine m
      (Birth.joinAll bs ((c.withChild m b q).upcoming bs)) =
        (c.modifyMachine m (Birth.joinAll (b :: bs) (c.upcoming (b :: bs)))).pushNode
          (b.node c m q) := by
    rw [upcoming_cons (m := m) b bs q]
    generalize (c.withChild m b q).upcoming bs = handles
    rw [withChild, modifyMachine_pushNode (machine_modifyMachine hm _), modifyMachine_modifyMachine,
      show (fun y => Birth.joinAll bs handles (b.join c.nextNode y)) =
        Birth.joinAll (b :: bs) (c.nextNode :: handles) from funext (Birth.joinAll_cons b bs _ _)]
  rw [hq, stacked, stacked, hmachine, hplaces]
  refine congrArg (fun nodes => { c with nodes }) ?_
  exact List.append_assoc ..

end Controller

namespace Birth

variable {c : Controller} {m : MachineHandle} {x : Machine} {p : Position}

theorem run_workEach (bs : List Birth) (hlt : c.nodes.length + bs.length ≤ 2 ^ 32)
    (hm : c.machine m = .ok x) (hp : c.LastAt x p) :
    (workEach m bs).run c = .ok (c.upcoming bs) (c.stacked m bs p) := by
  induction bs generalizing c x p with
  | nil =>
    rw [Controller.stacked_nil]
    rfl
  | cons b bs ih =>
    rw [List.length_cons] at hlt
    have hroom : c.nodes.length < 2 ^ 32 := by omega
    have hrest := ih (c := c.withChild m b (p + c.defaults.cellPosition 0 1))
      (by rw [Controller.length_withChild]; omega) (Controller.machine_withChild hm b _)
      (Controller.lastAt_withChild hroom b _)
    rw [Controller.stacked_withChild hm] at hrest
    rw [workEach, Work.run_bind, run_work hroom hm hp]
    dsimp only
    rw [Work.run_bind, hrest, Controller.upcoming_cons (m := m) b bs]
    rfl

end Birth

namespace Produced

/-- A node made in a machine is placed one cell below the last child, where that is now, or below
the place above the first one. It is the last child from then on, and the machine is entered by it
if it is the first state; nothing else is changed. Nodes made in a row are placed by adding one cell
after the other. -/
theorem places_below {c : Controller} (h : Produced c) (hlt : c.nodes.length < 2 ^ 32)
    {m : MachineHandle} {x : Machine} (hm : c.machine m = .ok x) :
    ∃ p, c.LastAt x p ∧
      (∀ b : Birth, (b.work m).run c = .ok c.nextNode
        { c with nodes :=
            (c.nodes.modify m.index fun n => { n with kind := .machine (b.join c.nextNode x) }) ++
              [b.node c m (p + c.defaults.cellPosition 0 1)] }) ∧
      ∀ bs : List Birth, c.nodes.length + bs.length ≤ 2 ^ 32 →
        (Birth.workEach m bs).run c = .ok (c.upcoming bs)
          { c with nodes :=
              (c.nodes.modify m.index fun n =>
                { n with kind := .machine (Birth.joinAll bs (c.upcoming bs) x) }) ++
                  bs.zipIdx.map fun b =>
                    b.1.node c m ((· + c.defaults.cellPosition 0 1)^[b.2 + 1] p) } := by
  obtain ⟨p, hp⟩ := Controller.exists_lastAt h.populated hm
  refine ⟨p, hp, fun b => ?_, fun bs hbs => ?_⟩
  · rw [b.run_work hlt hm hp, Controller.withChild, Controller.modifyMachine_eq hm]
    rfl
  · rw [Birth.run_workEach bs hbs hm hp, Controller.stacked, Controller.modifyMachine_eq hm]
    rfl

/-- The last child is a machine that was moved, and the machine is entered by a state already. -/
theorem places_below_moved :
    let c := Controller.bare.after
      [.act (.newState Controller.bareRoot "a"), .act (.newMachine Controller.bareRoot "b"),
        .act (.moveToCell (.ofIndex 2) 3 5), .act (.setPosition (.ofIndex 1) .origin)]
    let place := c.defaults.cellPosition 3 5
    let step := c.defaults.cellPosition 0 1
    Produced c ∧ c.nodes.length = 3 ∧ ∃ d x,
      (Birth.workEach Controller.bareRoot [.state "c", .machine "d"]).run c =
        .ok [.ofIndex 3, .ofIndex 4] d ∧
      (d.nodes.drop 3).map (·.position) = [place + step, place + step + step] ∧
      d.machine Controller.bareRoot = .ok x ∧ x.defaultState = some ⟨.ofIndex 1⟩ ∧
      x.children = [.ofIndex 1, .ofIndex 2, .ofIndex 3, .ofIndex 4] := by
  intro c place step
  have hc : Produced c :=
    .after (.operate (.new ⟨List.replicate 16 0, rfl⟩ "" .standard) (.act (.addLayer ""))) _
  have hm : c.machine Controller.bareRoot = .ok ⟨[.ofIndex 1, .ofIndex 2], some ⟨.ofIndex 1⟩,
      c.defaults.newAnchors⟩ := rfl
  obtain ⟨p, hp, -, heach⟩ := hc.places_below (by decide) hm
  obtain ⟨n, hn, rfl⟩ := hp
  have hplace : n.position = place := congrArg (·.position) (Option.some.inj hn).symm
  refine ⟨hc, rfl, _, _, heach [.state "c", .machine "d"] (by decide), ?_, rfl, rfl, rfl⟩
  rw [hplace]
  rfl

end Produced

end Statechart
