import GridRegions.Box.Basic
import GridRegions.Interval.Motion

/-!
Growing, shrinking and shifting a box, each axis by its own amount.
-/
namespace GridRegions.Box

def move {α : Type} (use : Use) (f : Interval → α → Except Fault Interval)
    (b : Box) (amounts : List α) : Except Fault Box :=
  if b.isEmpty then .error (.emptyOperand use)
  else do
    Fault.checkDim b.dim amounts.length
    return ofAxes (← alongAxes f b.axes amounts)

def grow (b : Box) (margins : List Margin) : Except Fault Box :=
  b.move .extended Interval.grow margins

def shrink (b : Box) (margins : List Margin) : Except Fault Box :=
  b.move .shrunk Interval.shrink margins

def shift (b : Box) (deltas : List Int) : Except Fault Box :=
  b.move .shifted Interval.shift deltas

end GridRegions.Box
