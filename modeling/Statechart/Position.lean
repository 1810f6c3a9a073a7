import Statechart.Record

/-! Positions of nodes, and the grid that places them. -/

namespace Statechart

structure Position where
  x : Single
  y : Single
  deriving BEq, DecidableEq

namespace Position

def origin : Position := ⟨.zero false, .zero false⟩

instance : Add Position := ⟨fun p q => ⟨p.x + q.x, p.y + q.y⟩⟩

def codec : Codec Position :=
  (Codec.record (.field "x" .single (.field "y" .single .done)) false).along
    (fun r => ⟨r.1, r.2.1⟩) fun p => (p.x, p.y, ())

end Position

structure Cell where
  x : Int32
  y : Int32
  deriving BEq, DecidableEq

def Cell.codec : Codec Cell :=
  (Codec.record (.field "x" .integer (.field "y" .integer .done)) false).along
    (fun r => ⟨r.1, r.2.1⟩) fun c => (c.x, c.y, ())

structure Grid where
  x : Single
  y : Single
  deriving BEq, DecidableEq

namespace Grid

def position (g : Grid) (c : Cell) : Position :=
  ⟨.ofInt c.x.toInt * g.x, .ofInt c.y.toInt * g.y⟩

def codec : Codec Grid :=
  (Codec.record (.field "x" .single (.field "y" .single .done)) false).along
    (fun r => ⟨r.1, r.2.1⟩) fun g => (g.x, g.y, ())

end Grid

end Statechart
