import Statechart.Proofs.Authoring

/-! What each of the authoring steps changes. -/

namespace Statechart

namespace Controller

variable {c : Controller}

theorem builds_addState {h : MachineHandle} {name : String} {place : Position} {d : Controller}
    {s : StateHandle} (hd : c.addState h name place = .ok (d, s)) : c.Builds d := by
  simp only [addState, bind_eq_ok, pure_eq_ok, Prod.mk.injEq] at hd
  obtain ⟨m, hm, rfl, -⟩ := hd
  refine .single (.adopt ⟨⟨m, hm⟩, rfl, rfl, rfl, fun m => rfl, fun m s hs => ?_⟩)
  cases hdefault : m.defaultState with
  | none =>
    simp only [hdefault, Option.none_or, Option.some.injEq] at hs
    exact .inr ⟨rfl, hs.symm⟩
  | some t =>
    simp only [hdefault, Option.some_or, Option.some.injEq] at hs
    exact .inl (by rw [hs])

theorem builds_addMachine {h : MachineHandle} {name : String} {place : Position} {d : Controller}
    {s : MachineHandle} (hd : c.addMachine h name place = .ok (d, s)) : c.Builds d := by
  simp only [addMachine, bind_eq_ok, pure_eq_ok, Prod.mk.injEq] at hd
  obtain ⟨m, hm, rfl, -⟩ := hd
  exact .single (.adopt ⟨⟨m, hm⟩, rfl, rfl, rfl, fun m => rfl, fun m s hs => .inl hs⟩)

theorem builds_setDefaultState {h : MachineHandle} {s : StateHandle} {d : Controller}
    (hd : c.setDefaultState h s = .ok d) : c.Builds d := by
  simp only [setDefaultState, bind_eq_ok] at hd
  obtain ⟨p, hp, hd⟩ := hd
  split at hd
  · rename_i howner
    obtain rfl := Except.ok.inj hd
    refine .single (.relabel fun n _ =>
      relabels_onMachine (fun m _ => rfl) fun m _ t ht => .inr ?_)
    obtain rfl : s = t := Option.some.inj ht
    rw [hp, howner]
  · cases hd

theorem builds_setPosition {h : NodeHandle} {place : Position} {d : Controller}
    (hd : c.setPosition h place = .ok d) : c.Builds d := by
  simp only [setPosition, bind_eq_ok, pure_eq_ok] at hd
  obtain ⟨n, -, rfl⟩ := hd
  exact .single (.relabel fun n _ => ⟨rfl, rfl, rfl, rfl, fun s hs => .inl hs⟩)

theorem builds_newState {h : MachineHandle} {name : String} {d : Controller} {s : StateHandle}
    (hd : c.newState h name = .ok (d, s)) : c.Builds d := by
  simp only [newState, bind_eq_ok, pure_eq_ok, Prod.mk.injEq] at hd
  obtain ⟨_, -, ⟨added, t⟩, hadded, _, hmoved, rfl, -⟩ := hd
  exact (builds_addState hadded).trans (builds_setPosition hmoved)

theorem builds_newMachine {h : MachineHandle} {name : String} {d : Controller} {s : MachineHandle}
    (hd : c.newMachine h name = .ok (d, s)) : c.Builds d := by
  simp only [newMachine, bind_eq_ok, pure_eq_ok, Prod.mk.injEq] at hd
  obtain ⟨_, -, ⟨added, t⟩, hadded, _, hmoved, rfl, -⟩ := hd
  exact (builds_addMachine hadded).trans (builds_setPosition hmoved)

theorem builds_moveBeside {h other : NodeHandle} {direction : Direction} {d : Controller}
    (hd : c.moveBeside h direction other = .ok d) : c.Builds d := by
  simp only [moveBeside, bind_eq_ok] at hd
  obtain ⟨_, -, _, -, hd⟩ := hd
  exact builds_setPosition hd

theorem builds_placeAnchor {h : MachineHandle} {a : Anchor} {x y : Int32} {d : Controller}
    (hd : c.placeAnchor h a x y = .ok d) : c.Builds d := by
  simp only [placeAnchor, bind_eq_ok, pure_eq_ok] at hd
  obtain ⟨m, -, rfl⟩ := hd
  exact .single (.relabel fun n _ =>
    relabels_onMachine (fun m _ => rfl) fun m _ s hs => .inl hs)

theorem builds_editState {h : StateHandle} {edits : List (StateEdit (Reference .float))}
    {d : Controller} (hd : c.editState h edits = .ok d) : c.Builds d := by
  simp only [editState, stateSettings, bind_eq_ok, node_eq_ok, pure_eq_ok] at hd
  obtain ⟨s, ⟨n, hn, hs⟩, rfl⟩ := hd
  refine .single (.relabel fun k hk => ?_)
  obtain rfl := Option.some.inj (hn.symm.trans hk)
  cases hkind : n.kind with
  | machine m => simp [hkind, throw, throwThe, MonadExceptOf.throw] at hs
  | state x =>
    refine ⟨rfl, rfl, ?_, ?_, fun t ht => ?_⟩
    · simp [Node.isState, hkind, NodeKind.settings?]
    · rw [Node.children_of_state hkind]
      rfl
    · cases ht

theorem builds_attach {h : NodeHandle} {kind : AttachmentKind} {change : kind.Value → kind.Value}
    {d : Controller} (hd : c.attach h kind change = .ok d) : c.Builds d := by
  simp only [attach, bind_eq_ok, pure_eq_ok] at hd
  obtain ⟨n, -, rfl⟩ := hd
  exact .single (.aside rfl rfl rfl rfl List.prefix_rfl)

theorem builds_declare (kind : ParameterKind) (name : String) : c.Builds (c.declare kind name) := by
  unfold declare
  split
  · exact .refl
  · exact .single (.aside rfl rfl rfl rfl (List.prefix_append ..))

theorem builds_declareAll (kind : ParameterKind) (names : List String) :
    c.Builds (names.foldl (·.declare kind) c) := by
  induction names generalizing c with
  | nil => exact .refl
  | cons name names ih => exact (builds_declare kind name).trans ih

theorem builds_register {kind : ParameterKind} {name : String} {d : Controller}
    {r : Reference kind} (hd : c.register kind name = .ok (d, r)) : c.Builds d := by
  simp only [register] at hd
  split at hd
  · cases hd
  · cases hd
    exact builds_declare kind name

theorem builds_registerAll {kind : ParameterKind} {names : List String} {d : Controller}
    {r : ReferenceGroup kind} (hd : c.registerAll kind names = .ok (d, r)) : c.Builds d := by
  simp only [registerAll] at hd
  split at hd
  · cases hd
  · cases hd
    exact builds_declareAll kind names

/-- New edges of the machine and along the route that are planned for an opening. -/
theorem change_extend {o : Opening} {x : Edge} (hplan : c.plan o = .ok (x.machine, x.route))
    (hx : x.Settled) : c.Change (c.withEdges (c.edges ++ [x])) := by
  refine .extend fun _ => ⟨[x], rfl, fun y hy => ?_⟩
  rw [List.mem_singleton.mp hy]
  exact ⟨hx, .inl ⟨o, hplan⟩⟩

theorem builds_moveAutomatically {source : StateHandle} {target : Endpoint} {d : Controller}
    {e : EdgeHandle} (hd : c.moveAutomatically source target = .ok (d, e)) : c.Builds d := by
  simp only [moveAutomatically] at hd
  split at hd
  · cases hd
  · simp only [bind_eq_ok, pure_eq_ok, Prod.mk.injEq] at hd
    obtain ⟨⟨started, f, r⟩, hs, rfl, -⟩ := hd
    obtain ⟨m, hplan, rfl, rfl⟩ := start_eq_ok c f r hs
    rw [modifySettings_eq_withEdges, withEdges_withEdges]
    refine .single (.extend fun hb => ?_)
    -- the edge at hand is the new one, as long as handles tell them apart
    rw [List.length_modify, edges_withEdges, List.length_append, List.length_singleton] at hb
    rw [edges_withEdges, EdgeHandle.index_ofIndex (by omega), modify_length_append]
    refine ⟨_, rfl, fun x hx => ?_⟩
    rw [List.mem_singleton.mp hx]
    exact ⟨(c.settled_blankEdge r m).map _, .inl ⟨_, hplan⟩⟩

/-- A restart is a transition of a machine to itself. -/
theorem plan_restart {h m : MachineHandle} {r : Route} (hm : c.ownerOfMachine h = .ok m)
    (hr : route .untimed m (.machine h) (.machine h) = .ok r) :
    c.plan (.fromMachine h (.machine h)) = .ok (m, r) := by
  have hend := checkEndpoint_machine (ownerOfMachine_eq_ok.mp hm).1
  exact plan_eq_ok.mpr ⟨hm, nofun, hend, route_eq_ok.mp hr⟩

theorem builds_restart {h : MachineHandle} {d : Controller} {e : EdgeHandle}
    (hd : c.restart h = .ok (d, e)) : c.Builds d := by
  simp only [restart, bind_eq_ok, createEdge_eq, pure_eq_ok, Prod.mk.injEq] at hd
  obtain ⟨m, hm, r, hr, rfl, -⟩ := hd
  exact .single (change_extend (plan_restart hm hr) (c.settled_blankEdge r m))

theorem builds_cloneEdge {template e : EdgeHandle} {source target : Endpoint} {d : Controller}
    (hd : c.cloneEdge template source target = .ok (d, e)) : c.Builds d := by
  simp only [cloneEdge, bind_eq_ok, edge_eq_ok] at hd
  obtain ⟨x, hx, r, -, hd⟩ := hd
  split at hd
  · rename_i hr
    obtain rfl : (c.fork template r).1 = d := congrArg Prod.fst (Except.ok.inj hd)
    rw [fork_eq_withEdges]
    refine .single (.extend fun _ => ⟨_, rfl, fun y hy => ?_⟩)
    rw [List.mem_singleton.mp hy]
    exact ⟨c.settled_offshoot template r,
      .inr ⟨x, List.mem_of_getElem? hx, by simp [offshoot, hx], hr⟩⟩
  · cases hd

theorem builds_appendCondition {e : EdgeHandle} {x : Condition} {d : Controller}
    (hd : c.appendCondition e x = .ok d) : c.Builds d := by
  simp only [appendCondition, bind_eq_ok, pure_eq_ok] at hd
  obtain ⟨_, -, rfl⟩ := hd
  exact .single (.guard e [x])

end Controller

namespace Action

variable {c d : Controller} {answer : Answer}

theorem of_andPlace {h : NodeHandle} {moved : Except Fault Controller}
    (hd : andPlace h moved = .ok (d, answer)) : moved = .ok d := by
  simp only [andPlace, bind_eq_ok, pure_eq_ok, Prod.mk.injEq] at hd
  obtain ⟨_, hmoved, _, -, rfl, -⟩ := hd
  exact hmoved

theorem of_andPlaced {h : NodeHandle} (hd : andPlaced h c = .ok (d, answer)) : c = d := by
  simp only [andPlaced, bind_eq_ok, pure_eq_ok, Prod.mk.injEq] at hd
  obtain ⟨_, -, rfl, -⟩ := hd
  rfl

theorem of_andEdge {grown : Controller × EdgeHandle} (hd : andEdge grown = .ok (d, answer)) :
    grown.1 = d := by
  simp only [andEdge, bind_eq_ok, pure_eq_ok, Prod.mk.injEq] at hd
  obtain ⟨_, -, rfl, -⟩ := hd
  rfl

theorem builds_perform {a : Action} (h : a.perform c = .ok (d, answer)) : c.Builds d := by
  cases a with
  | addLayer name =>
    cases h
    exact .single (.layer name)
  | newState m name =>
    simp only [perform, bind_eq_ok] at h
    obtain ⟨⟨grown, s⟩, hgrown, h⟩ := h
    obtain rfl := of_andPlaced h
    exact Controller.builds_newState hgrown
  | newStateAt m name x y =>
    simp only [perform, bind_eq_ok] at h
    obtain ⟨⟨grown, s⟩, hgrown, h⟩ := h
    obtain rfl := of_andPlaced h
    exact Controller.builds_addState hgrown
  | newMachine m name =>
    simp only [perform, bind_eq_ok] at h
    obtain ⟨⟨grown, s⟩, hgrown, h⟩ := h
    obtain rfl := of_andPlaced h
    exact Controller.builds_newMachine hgrown
  | newMachineAt m name x y =>
    simp only [perform, bind_eq_ok] at h
    obtain ⟨⟨grown, s⟩, hgrown, h⟩ := h
    obtain rfl := of_andPlaced h
    exact Controller.builds_addMachine hgrown
  | setDefaultState m s =>
    simp only [perform, bind_eq_ok, pure_eq_ok, Prod.mk.injEq] at h
    obtain ⟨_, hset, rfl, -⟩ := h
    exact Controller.builds_setDefaultState hset
  | setPosition n place => exact Controller.builds_setPosition (of_andPlace h)
  | moveToCell n x y => exact Controller.builds_setPosition (of_andPlace h)
  | moveFrom n origin dx dy => exact Controller.builds_setPosition (of_andPlace h)
  | moveBeside n direction other => exact Controller.builds_moveBeside (of_andPlace h)
  | placeAnchor m anchor x y =>
    simp only [perform, bind_eq_ok, pure_eq_ok, Prod.mk.injEq] at h
    obtain ⟨_, hplaced, _, -, rfl, -⟩ := h
    exact Controller.builds_placeAnchor hplaced
  | editState s edits =>
    simp only [perform, bind_eq_ok, pure_eq_ok, Prod.mk.injEq] at h
    obtain ⟨_, -, _, hedited, rfl, -⟩ := h
    exact Controller.builds_editState hedited
  | attach n kind value =>
    simp only [perform, bind_eq_ok, pure_eq_ok, Prod.mk.injEq] at h
    obtain ⟨_, hattached, rfl, -⟩ := h
    exact Controller.builds_attach hattached
  | register kind name =>
    simp only [perform, bind_eq_ok, pure_eq_ok, Prod.mk.injEq] at h
    obtain ⟨_, hregistered, rfl, -⟩ := h
    exact Controller.builds_register hregistered
  | registerAll kind names =>
    simp only [perform, bind_eq_ok, pure_eq_ok, Prod.mk.injEq] at h
    obtain ⟨_, hregistered, rfl, -⟩ := h
    exact Controller.builds_registerAll hregistered
  | appendCondition e x =>
    simp only [perform, bind_eq_ok, pure_eq_ok, Prod.mk.injEq] at h
    obtain ⟨_, happended, _, -, rfl, -⟩ := h
    exact Controller.builds_appendCondition happended
  | restart m =>
    simp only [perform, bind_eq_ok, pure_eq_ok, Prod.mk.injEq] at h
    obtain ⟨_, hrestarted, rfl, -⟩ := h
    exact Controller.builds_restart hrestarted
  | moveAutomatically s target =>
    simp only [perform, bind_eq_ok] at h
    obtain ⟨grown, hmoved, h⟩ := h
    obtain rfl := of_andEdge h
    exact Controller.builds_moveAutomatically hmoved
  | cloneEdge e source target =>
    simp only [perform, bind_eq_ok] at h
    obtain ⟨grown, hcloned, h⟩ := h
    obtain rfl := of_andEdge h
    exact Controller.builds_cloneEdge hcloned

end Action

end Statechart
