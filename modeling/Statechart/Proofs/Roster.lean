import Statechart.Proofs.Links

/-! How machines come to be entered. Of every node only counts whose it is, whether it is a state
and by which state it is entered, and a log is kept of the steps that decide the last of these. -/

namespace Statechart

theorem MachineHandle.eq_of_index_eq {h m : MachineHandle} (heq : h.index = m.index) : h = m := by
  have hnode : h.node = m.node := by
    rw [← h.node.ofIndex_index, ← m.node.ofIndex_index]
    exact congrArg NodeHandle.ofIndex heq
  cases h
  cases m
  exact congrArg MachineHandle.mk hnode

/-- A step that can decide by which state a machine is entered. -/
inductive Entrance where
  | created (machine : MachineHandle) (state : StateHandle)
  | chosen (machine : MachineHandle) (state : StateHandle)
  deriving DecidableEq

namespace Entrance

def machine : Entrance → MachineHandle
  | created m _ | chosen m _ => m

def state : Entrance → StateHandle
  | created _ s | chosen _ s => s

def createdIn? (m : MachineHandle) : Entrance → Option StateHandle
  | created n s => if n = m then some s else none
  | chosen _ _ => none

def chosenFor? (m : MachineHandle) : Entrance → Option StateHandle
  | created _ _ => none
  | chosen n s => if n = m then some s else none

end Entrance

/-- The state that was chosen last for a machine, or else the first that was created in it. -/
def entryAfter (log : List Entrance) (m : MachineHandle) : Option StateHandle :=
  (log.filterMap (·.chosenFor? m)).getLast?.or (log.filterMap (·.createdIn? m)).head?

section Log

variable {log : List Entrance} {m h : MachineHandle} {s : StateHandle}

theorem entryAfter_created (log : List Entrance) (h m : MachineHandle) (s : StateHandle) :
    entryAfter (log ++ [.created h s]) m =
      if h = m then (entryAfter log m).or (some s) else entryAfter log m := by
  by_cases hm : h = m
  · simp [entryAfter, Entrance.chosenFor?, Entrance.createdIn?, hm, List.head?_append]
  · simp [entryAfter, Entrance.chosenFor?, Entrance.createdIn?, hm]

theorem entryAfter_chosen (log : List Entrance) (h m : MachineHandle) (s : StateHandle) :
    entryAfter (log ++ [.chosen h s]) m = if h = m then some s else entryAfter log m := by
  by_cases hm : h = m <;> simp [entryAfter, Entrance.chosenFor?, Entrance.createdIn?, hm]

theorem mem_of_entryAfter_eq_some (hs : entryAfter log m = some s) :
    .created m s ∈ log ∨ .chosen m s ∈ log := by
  rcases Option.or_eq_some_iff.mp hs with hs | ⟨-, hs⟩
  · obtain ⟨e, he, heq⟩ := List.mem_filterMap.mp (List.mem_of_getLast? hs)
    cases e with
    | created n t => cases heq
    | chosen n t =>
      simp only [Entrance.chosenFor?, Option.ite_none_right_eq_some, Option.some.injEq] at heq
      obtain ⟨rfl, rfl⟩ := heq
      exact .inr he
  · obtain ⟨e, he, heq⟩ := List.mem_filterMap.mp (List.mem_of_head? hs)
    cases e with
    | chosen n t => cases heq
    | created n t =>
      simp only [Entrance.createdIn?, Option.ite_none_right_eq_some, Option.some.injEq] at heq
      obtain ⟨rfl, rfl⟩ := heq
      exact .inl he

/-- A machine that a state was created in is entered by some state. -/
theorem entryAfter_ne_none (hs : .created m s ∈ log) : entryAfter log m ≠ none := by
  intro hnone
  obtain ⟨-, hhead⟩ := Option.or_eq_none_iff.mp hnone
  have hmem : s ∈ log.filterMap (·.createdIn? m) :=
    List.mem_filterMap.mpr ⟨.created m s, hs, if_pos rfl⟩
  rw [List.head?_eq_none_iff.mp hhead] at hmem
  cases hmem

end Log

/-- Whose a node is, whether it is a state, and by which state it is entered. -/
structure Post where
  parent : Option MachineHandle
  isState : Bool
  initial : Option StateHandle

def Post.enter (f : Option StateHandle → Option StateHandle) (p : Post) : Post :=
  { p with initial := f p.initial }

def Node.post (n : Node) : Post := ⟨n.parent, n.isState, n.initial?⟩

abbrev Roster := List Post

namespace Roster

/-- The node at a place is a state that the machine owns. -/
def HasState (r : Roster) (i : Nat) (m : MachineHandle) : Prop :=
  ∃ p, r[i]? = some p ∧ p.isState = true ∧ p.parent = some m

/-- What steps can do to the nodes: nothing, give them a further machine, give a machine a further
state, or choose by which of its states a machine is entered. -/
inductive Step (r : Roster) : Option Entrance → Roster → Prop
  | same : Step r none r
  | machine (parent : Option MachineHandle) : Step r none (r ++ [Post.mk parent false none])
  | state {h : MachineHandle} {p : Post} (hp : r[h.index]? = some p) :
      Step r (some (.created h ⟨.ofIndex r.length⟩))
        ((r ++ [Post.mk (some h) true none]).modify h.index
          (.enter (·.or (some ⟨.ofIndex r.length⟩))))
  | choice {h : MachineHandle} {s : StateHandle} {p : Post} (hp : r[h.index]? = some p)
      (hs : r.HasState s.index h) :
      Step r (some (.chosen h s)) (r.modify h.index (.enter fun _ => some s))

/-- The log tells by which states machines are entered, and names every state there is and no
others. -/
structure Recorded (r : Roster) (log : List Entrance) : Prop where
  entry : ∀ m : MachineHandle, r[m.index]?.bind (·.initial) = entryAfter log m
  complete : ∀ (i : Nat) (m : MachineHandle), r.HasState i m → .created m ⟨.ofIndex i⟩ ∈ log
  owned : ∀ e ∈ log, r.HasState e.state.index e.machine

variable {r r' : Roster} {e : Option Entrance} {log : List Entrance}

theorem Step.length_le (h : r.Step e r') : r.length ≤ r'.length := by
  cases h <;> simp

theorem recorded_nil : Recorded [] [] where
  entry _ := rfl
  complete := fun _ _ ⟨_, hp, _⟩ => nomatch hp
  owned _ he := absurd he List.not_mem_nil

section Access

variable {h m : MachineHandle} {p : Post} {i j : Nat}
  {f : Option StateHandle → Option StateHandle}

theorem hasState_concat : HasState (r ++ [p]) i m ↔
    HasState r i m ∨ i = r.length ∧ p.isState = true ∧ p.parent = some m := by
  simp only [HasState, getElem?_concat_eq_some]
  constructor
  · rintro ⟨q, hq | ⟨rfl, rfl⟩, hfacts⟩
    · exact .inl ⟨q, hq, hfacts⟩
    · exact .inr ⟨rfl, hfacts⟩
  · rintro (⟨q, hq, hfacts⟩ | ⟨rfl, hfacts⟩)
    · exact ⟨q, .inl hq, hfacts⟩
    · exact ⟨p, .inr ⟨rfl, rfl⟩, hfacts⟩

/-- Entering a machine by another state changes neither whose nodes are nor which are states. -/
theorem hasState_modify : HasState (r.modify j (.enter f)) i m ↔ HasState r i m := by
  rw [HasState, HasState, List.getElem?_modify]
  cases r[i]? with
  | none => simp
  | some p =>
    by_cases hj : j = i
    · simp [hj, Post.enter]
    · simp [hj]

theorem initial_concat (hp : p.initial = none) (i : Nat) :
    (r ++ [p])[i]?.bind (·.initial) = r[i]?.bind (·.initial) := by
  by_cases hi : i < r.length
  · rw [List.getElem?_append_left hi]
  · rw [List.getElem?_eq_none (l := r) (by omega), List.getElem?_append_right (by omega),
      List.getElem?_singleton]
    split <;> simp [hp]

theorem initial_modify (hp : r[h.index]? = some p) (m : MachineHandle) :
    (r.modify h.index (.enter f))[m.index]?.bind (·.initial) =
      if h = m then f (r[m.index]?.bind (·.initial)) else r[m.index]?.bind (·.initial) := by
  rw [List.getElem?_modify]
  by_cases hm : h = m
  · subst hm
    simp [hp, Post.enter]
  · have hindex : h.index ≠ m.index := fun heq => hm (MachineHandle.eq_of_index_eq heq)
    simp [hm, hindex]

end Access

/-- What is recorded stays so when the step is added to the log that was taken. -/
theorem Recorded.step (hr : r.Recorded log) (h : r.Step e r') (hb : r'.length < 2 ^ 32) :
    r'.Recorded (log ++ e.toList) := by
  cases h with
  | same => simpa using hr
  | machine parent =>
    rw [Option.toList_none, List.append_nil]
    refine ⟨fun m => ?_, fun i m hi => ?_, fun e he => ?_⟩
    · rw [initial_concat rfl, hr.entry]
    · rcases hasState_concat.mp hi with hi | ⟨-, hstate, -⟩
      · exact hr.complete i m hi
      · cases hstate
    · exact hasState_concat.mpr (.inl (hr.owned e he))
  | @state h p hp =>
    -- below the bound the handle of the new state leads to the place behind all others
    have hindex : (NodeHandle.ofIndex r.length).index = r.length := by
      refine NodeHandle.index_ofIndex ?_
      rw [List.length_modify, List.length_append, List.length_singleton] at hb
      omega
    have hp' : (r ++ [Post.mk (some h) true none])[h.index]? = some p :=
      getElem?_concat_eq_some.mpr (.inl hp)
    rw [Option.toList_some]
    refine ⟨fun m => ?_, fun i m hi => ?_, fun e he => ?_⟩
    · rw [initial_modify hp', initial_concat rfl, hr.entry, entryAfter_created]
    · rcases hasState_concat.mp (hasState_modify.mp hi) with hi | ⟨rfl, -, hparent⟩
      · exact List.mem_append_left _ (hr.complete i m hi)
      · cases hparent
        exact List.mem_append_right _ (List.mem_singleton_self _)
    · refine hasState_modify.mpr (hasState_concat.mpr ?_)
      rcases List.mem_append.mp he with he | he
      · exact .inl (hr.owned e he)
      · rw [List.mem_singleton.mp he]
        exact .inr ⟨hindex, rfl, rfl⟩
  | @choice h s p hp hs =>
    rw [Option.toList_some]
    refine ⟨fun m => ?_, fun i m hi => ?_, fun e he => ?_⟩
    · rw [initial_modify hp, hr.entry, entryAfter_chosen]
    · exact List.mem_append_left _ (hr.complete i m (hasState_modify.mp hi))
    · refine hasState_modify.mpr ?_
      rcases List.mem_append.mp he with he | he
      · exact hr.owned e he
      · rw [List.mem_singleton.mp he]
        exact hs

end Roster

end Statechart
