import Statechart.Codec

/-! Handles of nodes and edges. A handle is a position in a controller, and is only meaningful
there; a state or machine handle says what kind of node is meant. -/

namespace Statechart

structure NodeHandle where
  value : UInt32
  deriving DecidableEq

structure StateHandle where
  node : NodeHandle
  deriving DecidableEq

structure MachineHandle where
  node : NodeHandle
  deriving DecidableEq

structure EdgeHandle where
  value : UInt32
  deriving DecidableEq

namespace NodeHandle

def index (h : NodeHandle) : Nat := h.value.toNat

def ofIndex (i : Nat) : NodeHandle := ⟨UInt32.ofNat i⟩

def label (h : NodeHandle) : String := "node#" ++ toString h.index

def codec : Codec NodeHandle := Codec.word.along .mk (·.value)

end NodeHandle

namespace StateHandle

def index (h : StateHandle) : Nat := h.node.index

def label (h : StateHandle) : String := "state#" ++ toString h.index

def codec : Codec StateHandle := NodeHandle.codec.along .mk (·.node)

end StateHandle

namespace MachineHandle

def index (h : MachineHandle) : Nat := h.node.index

def label (h : MachineHandle) : String := "machine#" ++ toString h.index

def codec : Codec MachineHandle := NodeHandle.codec.along .mk (·.node)

end MachineHandle

namespace EdgeHandle

def index (h : EdgeHandle) : Nat := h.value.toNat

def ofIndex (i : Nat) : EdgeHandle := ⟨UInt32.ofNat i⟩

def label (h : EdgeHandle) : String := "edge#" ++ toString h.index

end EdgeHandle

end Statechart
