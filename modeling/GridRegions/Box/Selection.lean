import GridRegions.Box.Basic
import GridRegions.Interval.Selection

/-!
Relative positions in a box, one per axis.
-/
namespace GridRegions.Box

def cellAt (b : Box) (index : List Int) : Except Fault Cell := do
  Fault.checkDim b.dim index.length
  alongAxes Interval.coordAt b.axes index

def select (b : Box) (selections : List Selection) : Except Fault Box := do
  Fault.checkDim b.dim selections.length
  return ofAxes (← alongAxes Interval.select b.axes selections)

def first (b : Box) : Except Fault Cell := b.cellAt (List.replicate b.dim 0)

def last (b : Box) : Except Fault Cell := b.cellAt (List.replicate b.dim (-1))

/-- The first and the last cell, both inside the box. -/
def corners (b : Box) : Except Fault (Cell × Cell) := do
  let first ← b.first
  let last ← b.last
  return (first, last)

end GridRegions.Box
