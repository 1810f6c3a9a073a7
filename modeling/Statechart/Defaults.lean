import Statechart.Node
import Statechart.TransitionSettings

/-! The defaults that new nodes and edges start from. -/

namespace Statechart

/-- The anchors of a new machine are given as cells of the grid. -/
structure Defaults where
  grid : Grid
  writeDefaults : Bool
  transition : TransitionSettings
  entryCell : Cell
  exitCell : Cell
  anyStateCell : Cell
  parentMachineCell : Cell
  deriving BEq, DecidableEq

namespace Defaults

def standard : Defaults where
  grid := ⟨.ofInt 250, .ofInt 70⟩
  writeDefaults := false
  transition := .initial
  entryCell := ⟨0, -1⟩
  exitCell := ⟨7, -1⟩
  anyStateCell := ⟨0, 7⟩
  parentMachineCell := ⟨3, -1⟩

def unitGrid : Defaults := { standard with grid := ⟨.one, .one⟩ }

instance : Inhabited Defaults := ⟨standard⟩

/-- Every field may be left out, and then has its standard value. -/
def codec : Codec Defaults :=
  (Codec.record
    (.fieldOr "grid" Grid.codec standard.grid
      (.fieldOr "write_defaults" .bool standard.writeDefaults
        (.fieldOr "transition" TransitionSettings.codec standard.transition
          (.fieldOr "entry_anchor" Cell.codec standard.entryCell
            (.fieldOr "exit_anchor" Cell.codec standard.exitCell
              (.fieldOr "any_state_anchor" Cell.codec standard.anyStateCell
                (.fieldOr "parent_machine_anchor" Cell.codec standard.parentMachineCell
                  .done)))))))
    true).along
    (fun (a, b, c, d, e, f, g, _) => ⟨a, b, c, d, e, f, g⟩)
    fun d =>
      (d.grid, d.writeDefaults, d.transition, d.entryCell, d.exitCell, d.anyStateCell,
        d.parentMachineCell, ())

def parse? (s : String) : Option Defaults := codec.decode? s

def cellPosition (d : Defaults) (x y : Int32) : Position := d.grid.position ⟨x, y⟩

def firstChildOrigin (d : Defaults) : Position := ⟨d.grid.x * .ofInt 2, .zero false⟩

def newState (d : Defaults) : StateSettings where
  motion := none
  writeDefaults := d.writeDefaults
  speed := .one
  speedParameter := none
  timeParameter := none
  cycleOffset := .zero false
  cycleOffsetParameter := none

def newAnchors (d : Defaults) : Anchors where
  entry := d.grid.position d.entryCell
  exit := d.grid.position d.exitCell
  anyState := d.grid.position d.anyStateCell
  parentMachine := d.grid.position d.parentMachineCell

end Defaults

end Statechart
