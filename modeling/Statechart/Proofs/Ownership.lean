import Mathlib.Data.Fintype.Pigeonhole
import Mathlib.Tactic.ByContra
import Mathlib.Tactic.Choose
import Statechart.Proofs.Links

/-! Who owns whom in a restored controller. The checks of a snapshot compare links that stand side
by side, so that they do not make a forest of the nodes; what is missing is said exactly. -/

namespace Statechart

namespace Controller

def owner? (c : Controller) (h : NodeHandle) : Option NodeHandle :=
  c.nodes[h.index]?.bind fun n => n.parent.map (·.node)

/-- The node some steps above a node. -/
def ancestor? (c : Controller) : Nat → NodeHandle → Option NodeHandle
  | 0, h => some h
  | k + 1, h => (c.owner? h).bind (c.ancestor? k)

def IsRoot (c : Controller) (h : NodeHandle) : Prop := ∃ l ∈ c.layers, l.machine.node = h

instance (c : Controller) (h : NodeHandle) : Decidable (c.IsRoot h) :=
  inferInstanceAs (Decidable (∃ l ∈ c.layers, l.machine.node = h))

/-- The nodes are a forest with the machines of the layers for its roots. -/
structure Forest (c : Controller) : Prop where
  distinct : (c.layers.map (·.machine)).Nodup
  roots : ∀ (h : NodeHandle) (n : Node), c.nodes[h.index]? = some n →
    (n.parent = none ↔ c.IsRoot h)
  owned : ∀ (h : NodeHandle) (n : Node) (p : MachineHandle), c.nodes[h.index]? = some n →
    n.parent = some p → (∃ x, c.nodes[p.index]? = some x ∧ x.children.count h = 1) ∧
      ∀ (q : NodeHandle) (x : Node), c.nodes[q.index]? = some x → h ∈ x.children → q = p.node
  rooted : ∀ (h : NodeHandle) (n : Node), c.nodes[h.index]? = some n →
    ∃ k root, c.ancestor? k h = some root ∧ c.IsRoot root

/-- What the checks of a snapshot leave open. -/
structure Untangled (c : Controller) : Prop where
  distinct : (c.layers.map (·.machine)).Nodup
  roots : ∀ (h : NodeHandle) (n : Node), c.nodes[h.index]? = some n →
    (n.parent = none ↔ c.IsRoot h)
  unrepeated : ∀ (h : NodeHandle) (n : Node), c.nodes[h.index]? = some n → n.children.Nodup
  acyclic : ∀ h k, c.ancestor? (k + 1) h ≠ some h

variable {c : Controller}

theorem ancestor?_add (i j : Nat) (h : NodeHandle) :
    c.ancestor? (i + j) h = (c.ancestor? i h).bind (c.ancestor? j) := by
  induction i generalizing h with
  | zero => simp [ancestor?]
  | succ i ih =>
    rw [Nat.succ_add, ancestor?, ancestor?, Option.bind_assoc]
    exact congrArg _ (funext ih)

theorem ancestor?_mul {k : Nat} {h : NodeHandle} (hk : c.ancestor? k h = some h) (i : Nat) :
    c.ancestor? (i * k) h = some h := by
  induction i with
  | zero => simp [ancestor?]
  | succ i ih => rw [Nat.succ_mul, ancestor?_add, ih, Option.bind_some, hk]

theorem finite_nodeHandle : Finite NodeHandle := by
  refine Finite.of_injective (β := Fin (2 ^ 32)) (fun h => ⟨h.index, UInt32.toNat_lt h.value⟩) ?_
  intro a b hab
  rw [← a.ofIndex_index, ← b.ofIndex_index]
  exact congrArg NodeHandle.ofIndex (Fin.mk.inj hab)

/-- Where no node is above itself, the way up from a node ends. -/
theorem exists_ancestor?_eq_none (hc : ∀ h k, c.ancestor? (k + 1) h ≠ some h) (h : NodeHandle) :
    ∃ k, c.ancestor? k h = none := by
  by_contra hnone
  have hsome (k : Nat) : ∃ g, c.ancestor? k h = some g :=
    Option.ne_none_iff_exists'.mp fun hk => hnone ⟨k, hk⟩
  choose g hg using hsome
  -- there are finitely many handles, so the way up meets one of them twice
  have hfinite := finite_nodeHandle
  have hrepeat : ∃ i k, g i = g (i + (k + 1)) := by
    obtain ⟨i, j, hne, heq⟩ := Finite.exists_ne_map_eq_of_infinite g
    rcases Nat.lt_or_gt_of_ne hne with hlt | hlt
    · exact ⟨i, j - i - 1, by rw [heq]; congr 1; omega⟩
    · exact ⟨j, i - j - 1, by rw [← heq]; congr 1; omega⟩
  obtain ⟨i, k, heq⟩ := hrepeat
  refine hc (g i) k ?_
  have hup := hg (i + (k + 1))
  rw [ancestor?_add, hg i, Option.bind_some, ← heq] at hup
  exact hup

theorem owner?_eq_some {h : NodeHandle} {n : Node} {p : MachineHandle}
    (hn : c.nodes[h.index]? = some n) (hp : n.parent = some p) : c.owner? h = some p.node := by
  simp [owner?, hn, hp]

theorem owner?_eq_none {h : NodeHandle} {n : Node} (hn : c.nodes[h.index]? = some n)
    (hp : n.parent = none) : c.owner? h = none := by
  simp [owner?, hn, hp]

theorem Linked.exists_node_of_ancestor? (hl : c.Linked) {k : Nat} {h g : NodeHandle} {n : Node}
    (hn : c.nodes[h.index]? = some n) (hk : c.ancestor? k h = some g) :
    ∃ x, c.nodes[g.index]? = some x := by
  induction k generalizing h n with
  | zero =>
    obtain rfl : h = g := by simpa [ancestor?] using hk
    exact ⟨n, hn⟩
  | succ k ih =>
    cases hp : n.parent with
    | none => simp [ancestor?, owner?_eq_none hn hp] at hk
    | some p =>
      obtain ⟨q, hq, -⟩ := (hl.nodes h.index n hn).listed p hp
      refine ih (h := p.node) hq ?_
      rwa [ancestor?, owner?_eq_some hn hp, Option.bind_some] at hk

theorem Linked.exists_top (hl : c.Linked) (hc : ∀ h k, c.ancestor? (k + 1) h ≠ some h)
    {h : NodeHandle} {n : Node} (hn : c.nodes[h.index]? = some n) :
    ∃ k top x, c.ancestor? k h = some top ∧ c.nodes[top.index]? = some x ∧ x.parent = none := by
  obtain ⟨k, hk⟩ := exists_ancestor?_eq_none hc h
  induction k generalizing h n with
  | zero => simp [ancestor?] at hk
  | succ k ih =>
    cases hp : n.parent with
    | none => exact ⟨0, h, n, rfl, hn, hp⟩
    | some p =>
      obtain ⟨q, hq, -⟩ := (hl.nodes h.index n hn).listed p hp
      rw [ancestor?, owner?_eq_some hn hp, Option.bind_some] at hk
      obtain ⟨j, top, x, hj, hx, hparent⟩ := ih (h := p.node) hq hk
      exact ⟨j + 1, top, x, by rwa [ancestor?, owner?_eq_some hn hp, Option.bind_some], hx, hparent⟩

/-- Where every owner has a smaller handle than what it owns, so has everything further up. -/
theorem index_lt_of_ancestor? (ho : ∀ h g, c.owner? h = some g → g.index < h.index) {k : Nat}
    {h g : NodeHandle} (hg : c.ancestor? (k + 1) h = some g) : g.index < h.index := by
  induction k generalizing h with
  | zero =>
    obtain ⟨q, hq, hg⟩ := Option.bind_eq_some_iff.mp hg
    obtain rfl : q = g := Option.some.inj hg
    exact ho h q hq
  | succ k ih =>
    obtain ⟨q, hq, hg⟩ := Option.bind_eq_some_iff.mp hg
    exact Nat.lt_trans (ih hg) (ho h q hq)

/-- A node that stands in a forest and after its owner, as far as can be told without a look at
other nodes. -/
structure Rising (c : Controller) (h : NodeHandle) (n : Node) : Prop where
  root : n.parent = none ↔ c.IsRoot h
  unrepeated : n.children.Nodup
  older : ∀ p ∈ n.parent, p.index < h.index

instance (h : NodeHandle) (n : Node) : Decidable (c.Rising h n) :=
  decidable_of_iff
    ((n.parent = none ↔ c.IsRoot h) ∧ n.children.Nodup ∧ ∀ p ∈ n.parent, p.index < h.index)
    ⟨fun ⟨hr, hu, ho⟩ => ⟨hr, hu, ho⟩, fun ⟨hr, hu, ho⟩ => ⟨hr, hu, ho⟩⟩

theorem Untangled.of_rising (hd : (c.layers.map (·.machine)).Nodup)
    (hn : ∀ p ∈ c.numberedNodes, c.Rising p.1 p.2) : c.Untangled := by
  have hrising (h : NodeHandle) (n : Node) (hh : c.nodes[h.index]? = some n) : c.Rising h n :=
    hn (h, n) (mem_numberedNodes.mpr ⟨h.index, hh, h.ofIndex_index.symm⟩)
  have holder (h g : NodeHandle) (hg : c.owner? h = some g) : g.index < h.index := by
    obtain ⟨n, hh, hparent⟩ := Option.bind_eq_some_iff.mp hg
    obtain ⟨p, hp, rfl⟩ := Option.map_eq_some_iff.mp hparent
    exact (hrising h n hh).older p hp
  exact ⟨hd, fun h n hh => (hrising h n hh).root, fun h n hh => (hrising h n hh).unrepeated,
    fun h k hk => Nat.lt_irrefl _ (index_lt_of_ancestor? holder hk)⟩

/-- In a forest the way up ends at a root, so that it does not come back. -/
theorem Forest.not_above_itself (hf : c.Forest) (hl : c.Linked) (h : NodeHandle) (k : Nat) :
    c.ancestor? (k + 1) h ≠ some h := by
  intro hk
  obtain ⟨n, hn⟩ : ∃ n, c.nodes[h.index]? = some n := by
    cases hn : c.nodes[h.index]? with
    | none => simp [ancestor?, owner?, hn] at hk
    | some n => exact ⟨n, rfl⟩
  obtain ⟨j, root, hj, hroot⟩ := hf.rooted h n hn
  obtain ⟨x, hx⟩ := hl.exists_node_of_ancestor? hn hj
  have hend : c.ancestor? (j + 1) h = none := by
    rw [ancestor?_add, hj, Option.bind_some, ancestor?,
      owner?_eq_none hx ((hf.roots root x hx).mpr hroot), Option.bind_none]
  have hmany := ancestor?_mul hk (j + 1)
  rw [Nat.mul_succ, Nat.add_comm, ancestor?_add, hend, Option.bind_none] at hmany
  cases hmany

theorem Linked.forest_iff (hl : c.Linked) : c.Forest ↔ c.Untangled := by
  constructor
  · intro hf
    refine ⟨hf.distinct, hf.roots, fun h n hn => ?_, fun h k hk => ?_⟩
    · rw [List.nodup_iff_count_le_one]
      intro child
      by_cases hmem : child ∈ n.children
      · obtain ⟨x, hx, hp⟩ := (hl.nodes h.index n hn).named child hmem
        obtain ⟨⟨y, hy, hcount⟩, -⟩ := hf.owned child x _ hx hp
        rw [MachineHandle.index, NodeHandle.ofIndex_index, hn, Option.some.injEq] at hy
        rw [hy, hcount]
      · rw [List.count_eq_zero_of_not_mem hmem]
        exact Nat.zero_le 1
    · exact hf.not_above_itself hl h k hk
  · rintro ⟨hdistinct, hroots, hnodup, hc⟩
    refine ⟨hdistinct, hroots, fun h n p hn hp => ⟨?_, fun q x hq hmem => ?_⟩, fun h n hn => ?_⟩
    · obtain ⟨q, hq, hmem⟩ := (hl.nodes h.index n hn).listed p hp
      rw [NodeHandle.ofIndex_index] at hmem
      exact ⟨q, hq, List.count_eq_one_of_mem (hnodup p.node q hq) hmem⟩
    · obtain ⟨k, hk, hparent⟩ := (hl.nodes q.index x hq).named h hmem
      rw [NodeHandle.ofIndex_index] at hparent
      obtain rfl := Option.some.inj (hn.symm.trans hk)
      obtain rfl := Option.some.inj (hp.symm.trans hparent)
      rfl
    · obtain ⟨k, top, x, hk, hx, hp⟩ := hl.exists_top hc hn
      exact ⟨k, top, hk, (hroots top x hx).mp hp⟩

/-- The nodes of a restored controller are a forest exactly if its layers have different machines,
the nodes without an owner are these machines, no child is listed twice, and no node is above
itself. -/
theorem forest_of_restore_iff {s : Snapshot} (h : restore s = .ok c) :
    c.Forest ↔ c.Untangled :=
  (linked_of_restore h).forest_iff

/-- Two layers, the first with a machine in its root machine and a machine in that one. -/
def planted : Snapshot :=
  let state (parent : Nat) : Node :=
    ⟨"state", some ⟨.ofIndex parent⟩, .origin, .state Defaults.standard.newState⟩
  let machine (parent : Option MachineHandle) (children : List NodeHandle)
      (default : Option StateHandle) : Node :=
    ⟨"machine", parent, .origin, .machine ⟨children, default, Defaults.standard.newAnchors⟩⟩
  { bare.snapshot ⟨⟨2024, 2, 29, 12, 0, 0, 0⟩, by decide⟩ with
    layers := [⟨"upper", ⟨.ofIndex 0⟩⟩, ⟨"lower", ⟨.ofIndex 5⟩⟩]
    nodes :=
      [machine none [.ofIndex 1, .ofIndex 2] (some ⟨.ofIndex 2⟩),
        machine (some ⟨.ofIndex 0⟩) [.ofIndex 4, .ofIndex 3] (some ⟨.ofIndex 4⟩), state 0,
        machine (some ⟨.ofIndex 1⟩) [] none, state 1, machine none [.ofIndex 6] none, state 5] }

theorem forest_of_restore_planted :
    restore planted = .ok (ofSnapshot planted) ∧
      (ofSnapshot planted).nodes.map (·.parent) =
        [none, some ⟨.ofIndex 0⟩, some ⟨.ofIndex 0⟩, some ⟨.ofIndex 1⟩, some ⟨.ofIndex 1⟩, none,
          some ⟨.ofIndex 5⟩] ∧
      (ofSnapshot planted).nodes.map (·.children) =
        [[.ofIndex 1, .ofIndex 2], [.ofIndex 4, .ofIndex 3], [], [], [], [.ofIndex 6], []] ∧
      (ofSnapshot planted).ancestor? 2 (.ofIndex 4) = some (.ofIndex 0) ∧
      (ofSnapshot planted).Forest := by
  have hs : restore planted = .ok (ofSnapshot planted) := rfl
  have hdistinct : ((ofSnapshot planted).layers.map (·.machine)).Nodup := by decide
  have hrising : ∀ p ∈ (ofSnapshot planted).numberedNodes, (ofSnapshot planted).Rising p.1 p.2 := by
    decide
  exact ⟨hs, rfl, rfl, by decide, (forest_of_restore_iff hs).mpr (.of_rising hdistinct hrising)⟩

/-- Two layers on one machine, which lists a state twice, a state that nobody owns, and a machine
that owns itself. -/
def tangled : Snapshot :=
  let state (parent : Option MachineHandle) : Node :=
    ⟨"state", parent, .origin, .state Defaults.standard.newState⟩
  let machine (parent : Option MachineHandle) (children : List NodeHandle) : Node :=
    ⟨"machine", parent, .origin, .machine ⟨children, none, Defaults.standard.newAnchors⟩⟩
  { bare.snapshot ⟨⟨2024, 2, 29, 12, 0, 0, 0⟩, by decide⟩ with
    layers := [⟨"upper", ⟨.ofIndex 0⟩⟩, ⟨"lower", ⟨.ofIndex 0⟩⟩]
    nodes :=
      [machine none [.ofIndex 1, .ofIndex 1], state (some ⟨.ofIndex 0⟩), state none,
        machine (some ⟨.ofIndex 3⟩) [.ofIndex 3]] }

/-- Everything that the checks leave open can go wrong at once. -/
theorem not_forest_tangled :
    restore tangled = .ok (ofSnapshot tangled) ∧ ¬(ofSnapshot tangled).Forest ∧
      ¬((ofSnapshot tangled).layers.map (·.machine)).Nodup ∧
      (∃ h n, (ofSnapshot tangled).nodes[NodeHandle.index h]? = some n ∧ n.parent = none ∧
        ¬(ofSnapshot tangled).IsRoot h) ∧
      (∃ h n, (ofSnapshot tangled).nodes[NodeHandle.index h]? = some n ∧ ¬n.children.Nodup) ∧
      ∃ h k, (ofSnapshot tangled).ancestor? (k + 1) h = some h := by
  have hlayers : ¬((ofSnapshot tangled).layers.map (·.machine)).Nodup := by decide
  exact ⟨rfl, fun hf => hlayers hf.distinct, hlayers, ⟨.ofIndex 2, _, rfl, rfl, by decide⟩,
    ⟨.ofIndex 0, _, rfl, by decide⟩, ⟨.ofIndex 3, 0, by decide⟩⟩

end Controller

end Statechart
