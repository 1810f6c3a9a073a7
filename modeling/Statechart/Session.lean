import Statechart.Action
import Statechart.ChainRun
import Statechart.Restore
import Statechart.Source
import Statechart.Work

/-! Sessions: steps on a list of controllers, with tables for the references and clause tokens that
later steps use by name. -/

namespace Statechart

inductive DefaultsChoice where
  | standard
  | unitGrid
  | document (text : String)

inductive SavedForm where
  | direct
  | text
  | bytes
  deriving DecidableEq

/-- What a snapshot is stamped with; without an identity it keeps the one of its controller. -/
structure Stamp where
  id : Option Uuid
  time : Timestamp

/-- A transition and the calls that follow, with its conditions given by `σ`. -/
structure Journey (σ : Type) where
  opening : Opening
  chain : Chain σ (.fresh (opening.flavor = .timed))

/-- A step on one controller. What a step hands over may be missing, and only counts as a gap once
the step has got that far. -/
inductive Task where
  | act (action : Action)
  | ask (query : Query)
  | edit (state : StateHandle) (edits : Except Gap (List (StateEdit String)))
  | attach (node : NodeHandle) (kind : AttachmentKind) (value : Except Gap kind.Value)
  | register (kind : ParameterKind) (name : String) (slot : Except Gap String)
  | registerAll (kind : ParameterKind) (names : List String) (slot : Except Gap String)
  | transition (journey : Journey Source)
  | saveText (stamp : Stamp)
  | saveBytes (stamp : Stamp)
  | copy (form : SavedForm) (stamp : Stamp)

inductive Step where
  | create (name : String) (defaults : DefaultsChoice)
  | restoreText (text : String)
  | restoreBytes (bytes : List UInt8)
  | sameIdentity (first second : Nat)
  | showReference (slot : String)
  | task (controller : Nat) (task : Except Gap Task)

inductive Reply where
  | answer (answer : Answer)
  | created (controller : Nat)
  | restored (controller : Nat) (keptIdentity : Bool) (snapshot : Snapshot)
  | copied (controller : Nat) (equal : Bool)
  | text (text : String)
  | bytes (bytes : List UInt8)
  | same (same : Bool)
  | reference (reference : AnyReference)
  | transition (reports : List Report) (edges : List (EdgeHandle × Edge))

inductive StepFault where
  | authoring (cause : Fault)
  | restoring (cause : RestoreFault)
  | unreadableDefaults
  | unreadableSnapshot
  | noController
  deriving DecidableEq

structure Session where
  controllers : List Controller
  references : List (String × AnyReference)
  tokens : List (String × Clause)
  minted : Nat

namespace Session

/-- What a step leaves, unless it meets a gap; then the session cannot go on. -/
abbrev Outcome := Except Gap (Session × Except StepFault Reply)

def start : Session := ⟨[], [], [], 0⟩

/-- The identity of the `n`th new controller of a session. -/
def mint (n : Nat) : Uuid where
  bytes := littleEndian 6 0x5d1f3a8b27c4 ++ [0x4e, 0xb3, 0x91] ++ littleEndian 7 n
  size := by simp [littleEndian]

def push (s : Session) (c : Controller) : Session × Nat :=
  ({ s with controllers := s.controllers ++ [c] }, s.controllers.length)

def put (s : Session) (g : Nat) (c : Controller) : Session :=
  { s with controllers := s.controllers.set g c }

def keepReference (s : Session) (slot : String) (r : AnyReference) : Session :=
  { s with references := (slot, r) :: s.references }

def floatReference (s : Session) (slot : String) : Except Gap (Reference .float) :=
  match s.references.lookup slot with
  | some (.one .float r) => .ok r
  | _ => .error (.reference slot)

def stamped (c : Controller) (stamp : Stamp) : Snapshot :=
  { c.snapshot stamp.time with id := stamp.id.getD c.id }

def create (s : Session) (name : String) (choice : DefaultsChoice) :
    Session × Except StepFault Reply :=
  let defaults := match choice with
    | .standard => some Defaults.standard
    | .unitGrid => some Defaults.unitGrid
    | .document text => Defaults.parse? text
  match defaults with
  | none => (s, .error .unreadableDefaults)
  | some d =>
    let (s, g) := ({ s with minted := s.minted + 1 } : Session).push (.new (mint s.minted) name d)
    (s, .ok (.created g))

/-- Restores a snapshot, if one could be read, as a further controller. -/
def restore (s : Session) (snapshot : Option Snapshot)
    (reply : Controller → Nat → Snapshot → Reply) : Session × Except StepFault Reply :=
  match snapshot with
  | none => (s, .error .unreadableSnapshot)
  | some saved =>
    match Controller.restore saved with
    | .error fault => (s, .error (.restoring fault))
    | .ok c =>
      let (s, g) := s.push c
      (s, .ok (reply c g saved))

def restored (c : Controller) (g : Nat) (saved : Snapshot) : Reply :=
  .restored g (c.id = saved.id) saved

def act (s : Session) (g : Nat) (c : Controller) (a : Action) : Session × Except StepFault Reply :=
  match a.work.run c with
  | .ok answer c => (s.put g c, .ok (.answer answer))
  | .error fault c => (s.put g c, .error (.authoring fault))

/-- Performs a registration, and keeps the reference if it succeeds. -/
def register (s : Session) (g : Nat) (c : Controller) (a : Action) (slot : Except Gap String)
    (r : AnyReference) : Outcome := do
  match s.act g c a with
  | (s, .ok reply) => return (s.keepReference (← slot) r, .ok reply)
  | refused => return refused

/-- Goes on only if what the step is about is found. -/
def onceFound {α : Type} (s : Session) (found : Except Fault α) (next : Outcome) : Outcome :=
  match found with
  | .ok _ => next
  | .error fault => .ok (s, .error (.authoring fault))

/-- Starts a transition and runs its chain. The edges made since the start are shown. -/
def travel (s : Session) (g : Nat) (c : Controller) (j : Journey Supply) : Outcome :=
  match (Work.start j.opening).run c with
  | .error fault c => .ok (s.put g c, .error (.authoring fault))
  | .ok (e, route) started =>
    let w := j.chain.run route (.fresh e) ⟨started, s.tokens, [], []⟩
    match w.gaps with
    | gap :: _ => .error gap
    | [] =>
      let s := { s.put g w.controller with tokens := w.tokens }
      .ok (s, .ok (.transition w.reports (w.controller.numberedEdges.drop c.edges.length)))

def task (s : Session) (g : Nat) (c : Controller) : Task → Outcome
  | .act a => .ok (s.act g c a)
  | .ask q => .ok (s, ((q.answer c).map .answer).mapError .authoring)
  | .edit h edits => s.onceFound (c.stateSettings h) do
    return s.act g c (.editState h (← (← edits).mapM (·.mapM s.floatReference)))
  | .attach h kind value => s.onceFound (c.node h) do
    return s.act g c (.attach h kind (← value))
  | .register kind name slot => s.register g c (.register kind name) slot (.one kind ⟨name⟩)
  | .registerAll kind names slot =>
    s.register g c (.registerAll kind names) slot (.group kind (.ofNames names))
  | .transition j => s.travel g c ⟨j.opening, j.chain.map (·.supply s.references)⟩
  | .saveText stamp => .ok (s, .ok (.text (stamped c stamp).toText))
  | .saveBytes stamp => .ok (s, .ok (.bytes (stamped c stamp).toBytes))
  | .copy form stamp =>
    let taken := stamped c stamp
    let read := match form with
      | .direct => some taken
      | .text => Snapshot.ofText? taken.toText
      | .bytes => Snapshot.ofBytes? taken.toBytes
    .ok (s.restore read fun _ g saved => .copied g (saved == taken))

def step (s : Session) : Step → Outcome
  | .create name choice => .ok (s.create name choice)
  | .restoreText text => .ok (s.restore (Snapshot.ofText? text) restored)
  | .restoreBytes bytes => .ok (s.restore (Snapshot.ofBytes? bytes) restored)
  | .sameIdentity a b =>
    match s.controllers[a]?, s.controllers[b]? with
    | some c, some d => .ok (s, .ok (.same (c.id = d.id)))
    | _, _ => .ok (s, .error .noController)
  | .showReference slot =>
    match s.references.lookup slot with
    | some r => .ok (s, .ok (.reference r))
    | none => .error (.reference slot)
  | .task g t =>
    match s.controllers[g]? with
    | some c => do s.task g c (← t)
    | none => .ok (s, .error .noController)

/-- Runs steps in order, and answers what each of them gave. -/
def run (s : Session) : List Step → Except Gap (Session × List (Except StepFault Reply))
  | [] => .ok (s, [])
  | t :: ts => do
    let (s, reply) ← s.step t
    let (s, replies) ← s.run ts
    return (s, reply :: replies)

end Session

end Statechart
