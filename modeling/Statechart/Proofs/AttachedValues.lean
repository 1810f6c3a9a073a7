import Mathlib.Data.List.Induction
import Mathlib.Data.List.Nodup
import Statechart.Proofs.Concerns

/-! Attached objects as a table from nodes and kinds to values. The kinds on a node are never
repeated, so that an index which is checked against the objects tells just what a search would. -/

namespace Statechart

namespace AttachmentStore

variable {κ : Type} {V : κ → Type} {s : AttachmentStore κ V} {node n : NodeHandle}

theorem lookup_filter_ne {β : Type} {l : List (NodeHandle × β)} (h : n ≠ node) :
    (l.filter (·.1 ≠ node)).lookup n = l.lookup n := by
  induction l with
  | nil => rfl
  | cons x l ih =>
    obtain ⟨m, b⟩ := x
    by_cases hm : m = node
    · have hne : (n == m) = false := by simpa [hm] using h
      simpa [hm, List.lookup_cons, hm ▸ hne] using ih
    · simp only [List.filter_cons, hm, ne_eq, not_false_eq_true, decide_true, if_true,
        List.lookup_cons, ih]

theorem onNode_setOnNode (os : List ((k : κ) × V k)) :
    (s.setOnNode node os).onNode n = if n = node then os else s.onNode n := by
  by_cases h : n = node
  · simp [setOnNode, onNode, h]
  · have hne : (n == node) = false := by simpa using h
    simp only [setOnNode, onNode, List.lookup_cons, hne, lookup_filter_ne h, if_neg h]

variable [DecidableEq κ] {os : List ((k : κ) × V k)} {i : Nat} {kind k : κ}

theorem valueAt?_eq_some {v : V kind} :
    valueAt? os i kind = some v ↔ os[i]? = some ⟨kind, v⟩ := by
  unfold valueAt?
  cases os[i]? with
  | none => simp
  | some o =>
    obtain ⟨k, x⟩ := o
    by_cases h : k = kind
    · subst h
      simp
    · simp [h]

theorem findIdx?_kind_eq_some (hd : (os.map (·.1)).Nodup) :
    os.findIdx? (·.1 = kind) = some i ↔ ∃ v, os[i]? = some ⟨kind, v⟩ := by
  rw [List.findIdx?_eq_some_iff_getElem]
  constructor
  · rintro ⟨hi, hkind, -⟩
    obtain rfl : os[i].1 = kind := by simpa using hkind
    exact ⟨os[i].2, List.getElem?_eq_getElem hi⟩
  · rintro ⟨v, hv⟩
    obtain ⟨hi, hv⟩ := List.getElem?_eq_some_iff.mp hv
    refine ⟨hi, by simp [hv], fun j hj hjk => ?_⟩
    have hlt : j < os.length := by omega
    have hsame : (os.map (·.1))[j]? = (os.map (·.1))[i]? := by
      rw [List.getElem?_map, List.getElem?_map, List.getElem?_eq_getElem hlt,
        List.getElem?_eq_getElem hi]
      simpa [hv] using hjk
    have hji : j = i := (List.getElem?_inj (by simpa using hlt) hd).mp hsame
    omega

theorem findIdx?_kind_eq_none :
    os.findIdx? (·.1 = kind) = none ↔ kind ∉ os.map (·.1) := by
  rw [List.findIdx?_eq_none_iff]
  constructor
  · intro h hmem
    obtain ⟨o, ho, hk⟩ := List.mem_map.mp hmem
    exact of_decide_eq_false (h o ho) hk
  · intro h o ho
    exact decide_eq_false fun hk => h (List.mem_map.mpr ⟨o, ho, hk⟩)

/-- A remembered place counts only if it is that of the kind, and there is just one such place. -/
theorem find?_eq (hd : (s.kinds node).Nodup) (kind : κ) :
    s.find? node kind = (s.onNode node).findIdx? (·.1 = kind) := by
  simp only [find?]
  split
  · rename_i i hi
    obtain ⟨-, hkind⟩ := Option.filter_eq_some_iff.mp hi
    obtain ⟨⟨k, v⟩, ho, hk⟩ := Option.any_eq_true _ _ |>.mp hkind
    obtain rfl : k = kind := by simpa using hk
    exact ((findIdx?_kind_eq_some hd).mpr ⟨v, ho⟩).symm
  · rfl

theorem value?_eq_some (hd : (s.kinds node).Nodup) {v : V kind} :
    s.value? node kind = some v ↔ ⟨kind, v⟩ ∈ s.onNode node := by
  simp only [value?, find?_eq hd, Option.bind_eq_some_iff, valueAt?_eq_some,
    List.mem_iff_getElem?]
  constructor
  · rintro ⟨i, -, hv⟩
    exact ⟨i, hv⟩
  · rintro ⟨i, hv⟩
    exact ⟨i, (findIdx?_kind_eq_some hd).mpr ⟨v, hv⟩, hv⟩

def Distinct (s : AttachmentStore κ V) : Prop := ∀ node, (s.kinds node).Nodup

section Amend

variable {new : V kind} {f : V kind → V kind}

theorem onNode_amend_of_ne (h : n ≠ node) : (s.amend node kind new f).onNode n = s.onNode n := by
  unfold amend
  split <;> exact (onNode_setOnNode _).trans (if_neg h)

theorem onNode_amend_found (h : s.find? node kind = some i) :
    (s.amend node kind new f).onNode node = (s.onNode node).modify i fun o =>
      if hk : o.1 = kind then ⟨kind, f (hk ▸ o.2)⟩ else o := by
  simp only [amend, h]
  exact (onNode_setOnNode _).trans (if_pos rfl)

theorem onNode_amend_created (h : s.find? node kind = none) :
    (s.amend node kind new f).onNode node = s.onNode node ++ [⟨kind, f new⟩] := by
  simp only [amend, h]
  exact (onNode_setOnNode _).trans (if_pos rfl)

theorem kinds_amend (hd : s.Distinct) :
    (s.amend node kind new f).kinds n =
      if n = node ∧ kind ∉ s.kinds node then s.kinds n ++ [kind] else s.kinds n := by
  by_cases hn : n = node
  · subst hn
    have hfind := find?_eq (hd n) kind
    cases hsearch : (s.onNode n).findIdx? (·.1 = kind) with
    | none =>
      have hnot : kind ∉ s.kinds n := findIdx?_kind_eq_none.mp hsearch
      rw [if_pos ⟨rfl, hnot⟩, kinds, onNode_amend_created (hfind.trans hsearch)]
      simp [kinds]
    | some i =>
      obtain ⟨v, hv⟩ := (findIdx?_kind_eq_some (hd n)).mp hsearch
      have hmem : kind ∈ s.kinds n := List.mem_map.mpr ⟨_, List.mem_of_getElem? hv, rfl⟩
      rw [if_neg (fun h => h.2 hmem), kinds, onNode_amend_found (hfind.trans hsearch),
        map_modify (k := fun k => k), ← kinds]
      · exact List.modify_id ..
      · intro o _
        split
        · rename_i hk
          exact hk.symm
        · rfl
  · rw [if_neg (fun h => hn h.1), kinds, onNode_amend_of_ne hn, kinds]

theorem distinct_amend (hd : s.Distinct) : (s.amend node kind new f).Distinct := by
  intro n
  rw [kinds_amend hd]
  split
  · rename_i h
    obtain ⟨rfl, hnot⟩ := h
    exact List.nodup_append.mpr ⟨hd n, List.nodup_singleton kind,
      fun k hk l hl heq => hnot (List.mem_singleton.mp hl ▸ heq ▸ hk)⟩
  · exact hd n

theorem value?_amend_self (hd : s.Distinct) :
    (s.amend node kind new f).value? node kind = some (f ((s.value? node kind).getD new)) := by
  rw [value?_eq_some (distinct_amend hd node)]
  have hfind := find?_eq (hd node) kind
  cases hsearch : (s.onNode node).findIdx? (·.1 = kind) with
  | none =>
    have hvalue : s.value? node kind = none := by simp [value?, hfind, hsearch]
    rw [onNode_amend_created (hfind.trans hsearch), hvalue]
    simp
  | some i =>
    obtain ⟨v, hv⟩ := (findIdx?_kind_eq_some (hd node)).mp hsearch
    have hvalue : s.value? node kind = some v :=
      (value?_eq_some (hd node)).mpr (List.mem_of_getElem? hv)
    rw [onNode_amend_found (hfind.trans hsearch), hvalue]
    refine List.mem_of_getElem? (i := i) ?_
    rw [List.getElem?_modify, hv]
    simp

theorem value?_amend_of_ne (hd : s.Distinct) (h : n ≠ node ∨ k ≠ kind) :
    (s.amend node kind new f).value? n k = s.value? n k := by
  refine Option.ext fun x => ?_
  rw [value?_eq_some (distinct_amend hd n), value?_eq_some (hd n)]
  by_cases hn : n = node
  · subst hn
    have hk : k ≠ kind := h.resolve_left fun h => h rfl
    have hfind := find?_eq (hd n) kind
    cases hsearch : (s.onNode n).findIdx? (·.1 = kind) with
    | none =>
      rw [onNode_amend_created (hfind.trans hsearch)]
      simp [hk]
    | some i =>
      obtain ⟨v, hv⟩ := (findIdx?_kind_eq_some (hd n)).mp hsearch
      rw [onNode_amend_found (hfind.trans hsearch)]
      simp only [List.mem_iff_getElem?, List.getElem?_modify]
      refine exists_congr fun j => ?_
      by_cases hj : i = j
      · -- the object at this place is of the other kind before and after
        subst hj
        simp [hv, Ne.symm hk]
      · simp [hj]
  · rw [onNode_amend_of_ne hn]

end Amend

end AttachmentStore

/-- A call for the object of a kind on a node, with the controller as it is by then and the change
that is made to the object. -/
structure Visit (κ : Type) (V : κ → Type) where
  controller : Controller
  node : NodeHandle
  kind : κ
  change : V kind → V kind

namespace Visit

variable {κ : Type} [DecidableEq κ] {V : κ → Type} {new : (k : κ) → V k} {v : Visit κ V}
  {s : AttachmentStore κ V}

def Known (v : Visit κ V) : Prop := v.node.index < v.controller.nodes.length

instance : Decidable v.Known := inferInstanceAs (Decidable (_ < _))

def apply (new : (k : κ) → V k) (s : AttachmentStore κ V) (v : Visit κ V) :
    Except Fault (AttachmentStore κ V) := do
  let _ ← v.controller.node v.node
  return s.amend v.node v.kind (new v.kind) v.change

/-- The store behind a call, which is the one in front of it where the call is refused. -/
def tried (new : (k : κ) → V k) (s : AttachmentStore κ V) (v : Visit κ V) : AttachmentStore κ V :=
  match v.apply new s with
  | .ok d => d
  | .error _ => s

def note (new : (k : κ) → V k) (table : NodeHandle → (k : κ) → Option (V k)) (v : Visit κ V) :
    NodeHandle → (k : κ) → Option (V k) := fun node kind =>
  if h : v.Known ∧ v.node = node ∧ v.kind = kind then
    some (h.2.2 ▸ v.change ((table v.node v.kind).getD (new v.kind)))
  else table node kind

/-- What a plain map from nodes and kinds to values holds after the same calls. -/
def table (new : (k : κ) → V k) (visits : List (Visit κ V)) :
    NodeHandle → (k : κ) → Option (V k) :=
  visits.foldl (note new) fun _ _ => none

/-- The value an object has when it is asked for: the one that was left there, or a new one. -/
def current (new : (k : κ) → V k) (visits : List (Visit κ V)) (node : NodeHandle) (kind : κ) :
    V kind :=
  (table new visits node kind).getD (new kind)

/-- The kinds asked for on a node, in the order of their first use. -/
def kindsOn (visits : List (Visit κ V)) (node : NodeHandle) : List κ :=
  ((visits.filter fun v => v.Known ∧ v.node = node).map (·.kind)).eraseDups

theorem apply_of_known (h : v.Known) :
    v.apply new s = .ok (s.amend v.node v.kind (new v.kind) v.change) := by
  obtain ⟨n, hn⟩ := Controller.exists_node_iff.mpr h
  rw [apply, hn]
  rfl

theorem tried_eq :
    v.tried new s =
      if v.Known then s.amend v.node v.kind (new v.kind) v.change else s := by
  by_cases h : v.Known
  · rw [tried, apply_of_known h, if_pos h]
  · have hnode : ∃ fault, v.controller.node v.node = .error fault := by
      cases hn : v.controller.node v.node with
      | ok n => exact absurd (Controller.exists_node_iff.mp ⟨n, hn⟩) h
      | error fault => exact ⟨fault, rfl⟩
    obtain ⟨fault, hnode⟩ := hnode
    rw [tried, apply, hnode, if_neg h]
    rfl

theorem table_concat (visits : List (Visit κ V)) :
    table new (visits ++ [v]) = note new (table new visits) v := by
  rw [table, List.foldl_append]
  rfl

theorem kindsOn_concat (visits : List (Visit κ V)) (node : NodeHandle) :
    kindsOn (visits ++ [v]) node =
      if v.Known ∧ v.node = node ∧ v.kind ∉ kindsOn visits node then
        kindsOn visits node ++ [v.kind]
      else kindsOn visits node := by
  by_cases h : v.Known ∧ v.node = node
  · have hfilter : [v].filter (fun v => decide (v.Known ∧ v.node = node)) = [v] := by simp [h]
    have hmem : v.kind ∈ kindsOn visits node ↔
        v.kind ∈ (visits.filter fun v => v.Known ∧ v.node = node).map (·.kind) :=
      List.mem_eraseDups
    have hconcat : kindsOn (visits ++ [v]) node =
        if v.kind ∈ kindsOn visits node then kindsOn visits node
        else kindsOn visits node ++ [v.kind] := by
      rw [kindsOn, List.filter_append, hfilter, List.map_append, List.map_singleton,
        eraseDups_concat, ← kindsOn]
      exact if_congr hmem.symm rfl rfl
    by_cases hk : v.kind ∈ kindsOn visits node <;> simp [hconcat, h, hk]
  · have hfilter : [v].filter (fun v => decide (v.Known ∧ v.node = node)) = [] := by simp [h]
    rw [kindsOn, List.filter_append, hfilter, List.append_nil, ← kindsOn,
      if_neg (fun hh => h ⟨hh.1, hh.2.1⟩)]

end Visit

/-- The store tells what a plain map would after the same calls, and its index tells what a search
would. -/
structure AttachmentStore.Mirrors {κ : Type} [DecidableEq κ] {V : κ → Type} (new : (k : κ) → V k)
    (visits : List (Visit κ V)) (s : AttachmentStore κ V) : Prop where
  value : ∀ node kind, s.value? node kind = Visit.table new visits node kind
  kinds : ∀ node, s.kinds node = Visit.kindsOn visits node
  distinct : s.Distinct
  search : ∀ node kind, s.find? node kind = (s.onNode node).findIdx? (·.1 = kind)
  found : ∀ node kind i, s.find? node kind = some i → ∃ v, valueAt? (s.onNode node) i kind = some v

namespace AttachmentStore

variable {κ : Type} [DecidableEq κ] {V : κ → Type} {new : (k : κ) → V k}
  {s : AttachmentStore κ V} {visits : List (Visit κ V)}

theorem Mirrors.of_distinct (hd : s.Distinct)
    (hvalue : ∀ node kind, s.value? node kind = Visit.table new visits node kind)
    (hkinds : ∀ node, s.kinds node = Visit.kindsOn visits node) : s.Mirrors new visits where
  value := hvalue
  kinds := hkinds
  distinct := hd
  search node kind := find?_eq (hd node) kind
  found node kind i hi := by
    rw [find?_eq (hd node), findIdx?_kind_eq_some (hd node)] at hi
    obtain ⟨v, hv⟩ := hi
    exact ⟨v, valueAt?_eq_some.mpr hv⟩

theorem mirrors_empty : (empty : AttachmentStore κ V).Mirrors new [] :=
  .of_distinct (fun _ => List.nodup_nil) (fun _ _ => rfl) fun _ => rfl

theorem Mirrors.tried (h : s.Mirrors new visits) (v : Visit κ V) :
    (v.tried new s).Mirrors new (visits ++ [v]) := by
  rw [Visit.tried_eq]
  by_cases hv : v.Known
  · rw [if_pos hv]
    refine .of_distinct (distinct_amend h.distinct) (fun node kind => ?_) fun node => ?_
    · rw [Visit.table_concat, Visit.note]
      by_cases hsame : v.node = node ∧ v.kind = kind
      · obtain ⟨rfl, rfl⟩ := hsame
        rw [value?_amend_self h.distinct, h.value, dif_pos ⟨hv, rfl, rfl⟩]
      · rw [dif_neg (fun hh => hsame hh.2), value?_amend_of_ne h.distinct, h.value]
        rcases not_and_or.mp hsame with hn | hk
        · exact .inl (Ne.symm hn)
        · exact .inr (Ne.symm hk)
    · rw [kinds_amend h.distinct, Visit.kindsOn_concat, h.kinds, h.kinds]
      by_cases hn : v.node = node
      · subst hn
        simp [hv]
      · simp [hn, Ne.symm hn]
  · rw [if_neg hv]
    refine .of_distinct h.distinct (fun node kind => ?_) fun node => ?_
    · rw [Visit.table_concat, Visit.note, dif_neg (fun hh => hv hh.1), h.value]
    · rw [Visit.kindsOn_concat, if_neg (fun hh => hv hh.1), h.kinds]

theorem mirrors_foldl (visits : List (Visit κ V)) :
    (visits.foldl (Visit.tried new) empty).Mirrors new visits := by
  induction visits using List.reverseRecOn with
  | nil => exact mirrors_empty
  | append_singleton visits v ih =>
    rw [List.foldl_append]
    exact ih.tried v

theorem Mirrors.apply (h : s.Mirrors new visits) {v : Visit κ V} (hv : v.Known) :
    ∃ d, v.apply new s = .ok d ∧
      d.value? v.node v.kind =
        some (v.change (Visit.current new visits v.node v.kind)) :=
  ⟨_, Visit.apply_of_known hv, by rw [value?_amend_self h.distinct, h.value, Visit.current]⟩

end AttachmentStore

def Operation.visit? (c : Controller) :
    Operation → Option (Visit AttachmentKind AttachmentKind.Value)
  | act (.attach node kind value) => some ⟨c, node, kind, fun old => kind.extend old value⟩
  | change node kind f => some ⟨c, node, kind, f⟩
  | _ => none

namespace Operation

theorem apply_attach (c : Controller) (node : NodeHandle) (kind : AttachmentKind)
    (value : kind.Value) :
    (act (.attach node kind value)).apply c =
      (change node kind fun old => kind.extend old value).apply c := by
  simp only [apply, Action.perform, bind, Except.bind]
  cases c.attach node kind fun old => kind.extend old value <;> rfl

theorem attachments_change (c : Controller) (node : NodeHandle) (kind : AttachmentKind)
    (f : kind.Value → kind.Value) :
    ((change node kind f).apply c).attachments =
      Visit.tried AttachmentKind.initial c.attachments ⟨c, node, kind, f⟩ := by
  simp only [apply, Controller.attach, Visit.tried, Visit.apply, bind, Except.bind]
  cases c.node node <;> rfl

theorem attachments_apply (c : Controller) (op : Operation) :
    (op.apply c).attachments =
      (op.visit? c).toList.foldl (Visit.tried AttachmentKind.initial) c.attachments := by
  by_cases hpart : op.part? = some .attachments
  · cases op with
    | act a =>
      cases a with
      | attach node kind value =>
        rw [apply_attach]
        exact attachments_change c node kind _
      | _ => cases hpart
    | change node kind f => exact attachments_change c node kind f
    | travel => cases hpart
  · have hvisit : op.visit? c = none := by
      cases op with
      | act a =>
        cases a with
        | attach => exact absurd rfl hpart
        | _ => rfl
      | change => exact absurd rfl hpart
      | travel => rfl
    rw [hvisit]
    exact op.eq_apply (·.attachments) (fun _ => rfl) (fun _ _ _ => rfl) hpart c

end Operation

namespace Controller

def visits (c : Controller) : List Operation → List (Visit AttachmentKind AttachmentKind.Value)
  | [] => []
  | op :: ops => (op.visit? c).toList ++ (op.apply c).visits ops

theorem attachments_after (c : Controller) (ops : List Operation) :
    (c.after ops).attachments =
      (c.visits ops).foldl (Visit.tried AttachmentKind.initial) c.attachments := by
  induction ops generalizing c with
  | nil => rfl
  | cons op ops ih => rw [after_cons, ih, op.attachments_apply, visits, List.foldl_append]

end Controller

namespace AttachmentStore

/-- Whatever calls are made for objects, and whatever is done to a controller in between, the store
is a plain map and is looked up as by a search. A call on a known node finds the value that was left
there, or else that of a new object, and nothing but such calls changes the store of a
controller. -/
theorem mirrors {κ : Type} [DecidableEq κ] {V : κ → Type} (new : (k : κ) → V k)
    (visits : List (Visit κ V)) :
    let s := visits.foldl (Visit.tried new) empty
    s.Mirrors new visits ∧
      (∀ v : Visit κ V, v.Known → ∃ d, v.apply new s = .ok d ∧
        d.value? v.node v.kind = some (v.change (Visit.current new visits v.node v.kind))) ∧
      ∀ (c : Controller) (ops : List Operation), c.attachments = empty →
        (c.after ops).attachments.Mirrors AttachmentKind.initial (c.visits ops) ∧
          ∀ node kind value, (∃ n, (c.after ops).node node = .ok n) →
            ∃ d, (Action.attach node kind value).perform (c.after ops) =
              .ok (d, .object kind (some (kind.extend
                (Visit.current AttachmentKind.initial (c.visits ops) node kind) value))) := by
  intro s
  have hs : s.Mirrors new visits := mirrors_foldl visits
  refine ⟨hs, fun v hv => hs.apply hv, fun c ops hc => ?_⟩
  have hafter : (c.after ops).attachments.Mirrors AttachmentKind.initial (c.visits ops) := by
    rw [c.attachments_after, hc]
    exact mirrors_foldl (c.visits ops)
  refine ⟨hafter, fun node kind value hnode => ?_⟩
  obtain ⟨n, hn⟩ := hnode
  let d : Controller := { c.after ops with
    attachments := (c.after ops).attachments.amend node kind kind.initial fun old =>
      kind.extend old value }
  have hvalue : d.attachments.value? node kind = some (kind.extend
      (Visit.current AttachmentKind.initial (c.visits ops) node kind) value) := by
    rw [value?_amend_self hafter.distinct, hafter.value, Visit.current]
  refine ⟨d, ?_⟩
  rw [← hvalue]
  simp only [Action.perform, Controller.attach, hn, bind, Except.bind, pure, Except.pure]
  rfl

/-- Two kinds on one node, with another node and a call that is refused in between. -/
theorem mirrors_interleaved :
    let first : NodeHandle := .ofIndex 0
    let second : NodeHandle := .ofIndex 1
    let ops : List Operation :=
      [.act (.attach first .text "a"), .act (.attach second .flags [true]), .act (.addLayer ""),
        .act (.attach first .count 2), .change second .text fun _ => "b",
        .act (.setPosition first .origin), .change first .text fun old => old ++ "c"]
    let c := Controller.bare.after ops
    let visits := Controller.bare.visits ops
    Controller.bare.attachments = empty ∧ (∃ n, c.node first = .ok n) ∧
      c.attachments.kinds first = [.text, .count] ∧ c.attachments.kinds second = [.text] ∧
      (∃ d, (Action.attach first .text "d").perform c = .ok (d, .object .text (some "acd"))) ∧
      ∃ d, (⟨c, second, .flags, List.cons true⟩ : Visit _ _).apply AttachmentKind.initial
          (visits.foldl (Visit.tried AttachmentKind.initial) empty) = .ok d ∧
        d.value? second .flags = some [true] := by
  intro first second ops c visits
  obtain ⟨-, happly, hrun⟩ := mirrors AttachmentKind.initial visits
  obtain ⟨hmirrors, hperform⟩ := hrun Controller.bare ops rfl
  have hknown : ∃ n, c.node first = .ok n := ⟨_, rfl⟩
  have hsecond : (⟨c, second, .flags, List.cons true⟩ :
      Visit AttachmentKind AttachmentKind.Value).Known := by decide
  refine ⟨rfl, hknown, ?_, ?_, hperform first .text "d" hknown, happly _ hsecond⟩
  · rw [hmirrors.kinds]
    rfl
  · rw [hmirrors.kinds]
    rfl

end AttachmentStore

end Statechart
