import Statechart.Proofs.Choices
import Statechart.Proofs.Reachable

/-! How the tree of nodes grows. Whatever is done to a controller plants roots, gives machines
further children, or leaves the tree alone, and each keeps the tree in the order in which its nodes
were made. -/

namespace Statechart

/-- A node as a place in the tree. -/
structure Spot where
  parent : Option MachineHandle
  isState : Bool
  children : List NodeHandle

def Node.spot (n : Node) : Spot := ⟨n.parent, n.isState, n.children⟩

/-- The machines of the layers and the places of the nodes, apart from what the nodes hold. -/
structure Tree where
  roots : List MachineHandle
  spots : List Spot

namespace Tree

def empty : Tree := ⟨[], []⟩

def next (t : Tree) : NodeHandle := .ofIndex t.spots.length

def plant (t : Tree) : Tree where
  roots := t.roots ++ [⟨t.next⟩]
  spots := t.spots ++ [⟨none, false, []⟩]

def adopt (t : Tree) (h : MachineHandle) (isState : Bool) : Tree where
  roots := t.roots
  spots := (t.spots ++ [Spot.mk (some h) isState []]).modify h.index fun s =>
    { s with children := s.children ++ [t.next] }

inductive Grows (t : Tree) : Tree → Prop
  | same : Grows t t
  | plant : Grows t t.plant
  | adopt {h : MachineHandle} {s : Spot} (hs : t.spots[h.index]? = some s)
      (hmachine : s.isState = false) (isState : Bool) : Grows t (t.adopt h isState)

/-- A tree in the order in which its nodes were made, so that parents are in front of their
children. -/
structure Ordered (t : Tree) : Prop where
  distinct : t.roots.Nodup
  planted : ∀ r ∈ t.roots, ∃ s, t.spots[r.index]? = some s ∧ s.isState = false ∧ s.parent = none
  rooted : ∀ (i : Nat) (s : Spot), t.spots[i]? = some s → s.parent = none →
    ⟨.ofIndex i⟩ ∈ t.roots
  owned : ∀ (i : Nat) (s : Spot) (p : MachineHandle), t.spots[i]? = some s → s.parent = some p →
    p.index < i ∧ ∃ q, t.spots[p.index]? = some q ∧ q.isState = false ∧ .ofIndex i ∈ q.children
  named : ∀ (i : Nat) (s : Spot) (child : NodeHandle), t.spots[i]? = some s → child ∈ s.children →
    ∃ k, t.spots[child.index]? = some k ∧ k.parent = some ⟨.ofIndex i⟩
  sorted : ∀ (i : Nat) (s : Spot), t.spots[i]? = some s →
    s.children.Pairwise (·.index < ·.index)

variable {t u : Tree}

theorem Grows.length_le (h : t.Grows u) : t.spots.length ≤ u.spots.length := by
  cases h with
  | same => exact Nat.le_refl _
  | plant =>
    rw [Tree.plant, List.length_append]
    exact Nat.le_add_right ..
  | adopt hs hmachine isState =>
    rw [Tree.adopt, List.length_modify, List.length_append]
    exact Nat.le_add_right ..

theorem ordered_empty : empty.Ordered where
  distinct := List.nodup_nil
  planted _ hr := absurd hr List.not_mem_nil
  rooted _ _ hs := nomatch hs
  owned _ _ _ hs := nomatch hs
  named _ _ _ hs := nomatch hs
  sorted _ _ hs := nomatch hs

theorem index_next (hb : t.spots.length < 2 ^ 32) : t.next.index = t.spots.length :=
  NodeHandle.index_ofIndex hb

theorem Ordered.plant (h : t.Ordered) (hb : t.spots.length < 2 ^ 32) : t.plant.Ordered := by
  have hindex := index_next hb
  have hcases (i : Nat) (s : Spot) :
      t.plant.spots[i]? = some s ↔
        t.spots[i]? = some s ∨ i = t.spots.length ∧ s = ⟨none, false, []⟩ :=
    getElem?_concat_eq_some
  have hold {i : Nat} {s : Spot} (hs : t.spots[i]? = some s) : t.plant.spots[i]? = some s :=
    (hcases i s).mpr (.inl hs)
  refine ⟨?_, fun r hr => ?_, fun i s hs hp => ?_, fun i s p hs hp => ?_,
    fun i s child hs hchild => ?_, fun i s hs => ?_⟩
  · refine List.nodup_append.mpr ⟨h.distinct, List.pairwise_singleton .., fun r hr q hq heq => ?_⟩
    obtain ⟨s, hs, -⟩ := h.planted r hr
    rw [heq, List.mem_singleton.mp hq, MachineHandle.index, hindex] at hs
    simp at hs
  · rcases List.mem_append.mp hr with hr | hr
    · obtain ⟨s, hs, hfacts⟩ := h.planted r hr
      exact ⟨s, hold hs, hfacts⟩
    · rw [List.mem_singleton.mp hr]
      exact ⟨_, (hcases _ _).mpr (.inr ⟨hindex, rfl⟩), rfl, rfl⟩
  · rcases (hcases i s).mp hs with hs | ⟨rfl, -⟩
    · exact List.mem_append_left _ (h.rooted i s hs hp)
    · exact List.mem_append_right _ (List.mem_singleton_self _)
  · rcases (hcases i s).mp hs with hs | ⟨-, rfl⟩
    · obtain ⟨hlt, q, hq, hmachine, hmem⟩ := h.owned i s p hs hp
      exact ⟨hlt, q, hold hq, hmachine, hmem⟩
    · cases hp
  · rcases (hcases i s).mp hs with hs | ⟨-, rfl⟩
    · obtain ⟨k, hk, hparent⟩ := h.named i s child hs hchild
      exact ⟨k, hold hk, hparent⟩
    · cases hchild
  · rcases (hcases i s).mp hs with hs | ⟨-, rfl⟩
    · exact h.sorted i s hs
    · exact .nil

/-- A spot behind the adoption of a child by `h`. -/
theorem getElem?_adopt {h : MachineHandle} (hlt : h.index < t.spots.length) (isState : Bool)
    (i : Nat) (s' : Spot) :
    (t.adopt h isState).spots[i]? = some s' ↔
      (∃ s, t.spots[i]? = some s ∧
        s' = if h.index = i then { s with children := s.children ++ [t.next] } else s) ∨
      i = t.spots.length ∧ s' = ⟨some h, isState, []⟩ := by
  rw [adopt, List.getElem?_modify, Option.map_eq_map, Option.map_eq_some_iff]
  constructor
  · rintro ⟨s, hs, rfl⟩
    rcases getElem?_concat_eq_some.mp hs with hs | ⟨rfl, rfl⟩
    · exact .inl ⟨s, hs, rfl⟩
    · exact .inr ⟨rfl, if_neg (Nat.ne_of_lt hlt)⟩
  · rintro (⟨s, hs, rfl⟩ | ⟨rfl, rfl⟩)
    · exact ⟨s, getElem?_concat_eq_some.mpr (.inl hs), rfl⟩
    · exact ⟨_, getElem?_concat_eq_some.mpr (.inr ⟨rfl, rfl⟩), if_neg (Nat.ne_of_lt hlt)⟩

theorem Ordered.adopt (h : t.Ordered) {m : MachineHandle} {x : Spot}
    (hx : t.spots[m.index]? = some x) (hmachine : x.isState = false) (isState : Bool)
    (hb : t.spots.length < 2 ^ 32) : (t.adopt m isState).Ordered := by
  have hlt : m.index < t.spots.length := (List.getElem?_eq_some_iff.mp hx).1
  have hindex := index_next hb
  have hcases := getElem?_adopt hlt isState
  have hnew : (t.adopt m isState).spots[t.next.index]? = some ⟨some m, isState, []⟩ :=
    (hcases _ _).mpr (.inr ⟨hindex, rfl⟩)
  -- what there was is still there, with its children
  have hold {i : Nat} {s : Spot} (hs : t.spots[i]? = some s) :
      ∃ s', (t.adopt m isState).spots[i]? = some s' ∧ s'.parent = s.parent ∧
        s'.isState = s.isState ∧ s.children ⊆ s'.children := by
    refine ⟨_, (hcases i _).mpr (.inl ⟨s, hs, rfl⟩), ?_⟩
    split
    · exact ⟨rfl, rfl, List.subset_append_left ..⟩
    · exact ⟨rfl, rfl, List.Subset.refl _⟩
  refine ⟨h.distinct, fun r hr => ?_, fun i s' hs' hp => ?_, fun i s' p hs' hp => ?_,
    fun i s' child hs' hchild => ?_, fun i s' hs' => ?_⟩
  · obtain ⟨s, hs, hkind, hparent⟩ := h.planted r hr
    obtain ⟨s', hs', hparent', hkind', -⟩ := hold hs
    exact ⟨s', hs', hkind'.trans hkind, hparent'.trans hparent⟩
  · rcases (hcases i s').mp hs' with ⟨s, hs, rfl⟩ | ⟨-, rfl⟩
    · refine h.rooted i s hs ?_
      split at hp <;> exact hp
    · cases hp
  · rcases (hcases i s').mp hs' with ⟨s, hs, rfl⟩ | ⟨rfl, rfl⟩
    · have hparent : s.parent = some p := by split at hp <;> exact hp
      obtain ⟨hlt', q, hq, hkind, hmem⟩ := h.owned i s p hs hparent
      obtain ⟨q', hq', -, hkind', hsubset⟩ := hold hq
      exact ⟨hlt', q', hq', hkind'.trans hkind, hsubset hmem⟩
    · obtain rfl : m = p := Option.some.inj hp
      refine ⟨hlt, _, (hcases _ _).mpr (.inl ⟨x, hx, rfl⟩), ?_⟩
      rw [if_pos rfl]
      exact ⟨hmachine, List.mem_append_right _ (List.mem_singleton_self _)⟩
  · rcases (hcases i s').mp hs' with ⟨s, hs, rfl⟩ | ⟨-, rfl⟩
    · have hchild' : child ∈ s.children ∨ m.index = i ∧ child = t.next := by
        split at hchild
        · rename_i hi
          exact (List.mem_append.mp hchild).imp_right fun hmem => ⟨hi, List.mem_singleton.mp hmem⟩
        · exact .inl hchild
      rcases hchild' with hmem | ⟨rfl, rfl⟩
      · obtain ⟨k, hk, hparent⟩ := h.named i s child hs hmem
        obtain ⟨k', hk', hparent', -⟩ := hold hk
        exact ⟨k', hk', hparent'.trans hparent⟩
      · refine ⟨_, hnew, ?_⟩
        rw [MachineHandle.index, NodeHandle.ofIndex_index]
    · cases hchild
  · rcases (hcases i s').mp hs' with ⟨s, hs, rfl⟩ | ⟨-, rfl⟩
    · split
      · refine List.pairwise_append.mpr ⟨h.sorted i s hs, List.pairwise_singleton .., ?_⟩
        intro child hmem last hlast
        obtain ⟨k, hk, -⟩ := h.named i s child hs hmem
        rw [List.mem_singleton.mp hlast, hindex]
        exact (List.getElem?_eq_some_iff.mp hk).1
      · exact h.sorted i s hs
    · exact .nil

/-- What grows from the empty tree is ordered, as long as handles can name every node. -/
theorem ordered_of_grows (h : Relation.ReflTransGen Grows empty t)
    (hb : t.spots.length < 2 ^ 32) : t.Ordered := by
  induction h with
  | refl => exact ordered_empty
  | tail _ hlast ih =>
    have hle := hlast.length_le
    have hordered := ih (by omega)
    cases hlast with
    | same => exact hordered
    | plant => exact hordered.plant (by omega)
    | adopt hs hmachine isState => exact hordered.adopt hs hmachine isState (by omega)

end Tree

end Statechart
