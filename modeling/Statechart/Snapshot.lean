import Statechart.Controller
import Statechart.Timestamp

/-! Snapshots: everything authored in a controller, as it is saved. Attachments are not saved. -/

namespace Statechart

structure Snapshot where
  version : UInt32
  id : Uuid
  exportedAt : Timestamp
  name : String
  defaults : Defaults
  parameters : List Parameter
  layers : List Layer
  nodes : List Node
  edges : List Edge
  deriving BEq, DecidableEq

namespace Snapshot

def currentVersion : UInt32 := 1

def codec : Codec Snapshot :=
  (Codec.record
    (.field "version" .word
      (.field "id" Uuid.codec
        (.field "exported_at" Timestamp.codec
          (.field "name" .text
            (.field "defaults" Defaults.codec
              (.field "parameters" (.list Parameter.codec)
                (.field "layers" (.list Layer.codec)
                  (.field "nodes" (.list Node.codec)
                    (.field "edges" (.list Edge.codec) .done)))))))))
    false).along
    (fun (a, b, c, d, e, f, g, h, i, _) => ⟨a, b, c, d, e, f, g, h, i⟩)
    fun s =>
      (s.version, s.id, s.exportedAt, s.name, s.defaults, s.parameters, s.layers, s.nodes, s.edges,
        ())

def toText (s : Snapshot) : String := (codec.toJson s).indented

def ofText? (s : String) : Option Snapshot := codec.decode? s

def toBytes (s : Snapshot) : List UInt8 := codec.toBytes s

/-- Bytes behind the snapshot are ignored. -/
def ofBytes? (bs : List UInt8) : Option Snapshot := (codec.ofBytes bs).map (·.1)

end Snapshot

def Controller.snapshot (c : Controller) (time : Timestamp) : Snapshot where
  version := Snapshot.currentVersion
  id := c.id
  exportedAt := time
  name := c.name
  defaults := c.defaults
  parameters := c.parameters
  layers := c.layers
  nodes := c.nodes
  edges := c.edges

end Statechart
