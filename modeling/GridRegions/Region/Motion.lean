import GridRegions.Region.Basic
import GridRegions.Box.Motion

/-!
Growing, shrinking and shifting regions. A union is shifted part by part, but only a single
interval or box has ends that can be moved apart or together.
-/
namespace GridRegions.Region

def shift (r : Region) (deltas : List Int) : Except Fault Region := do
  Fault.checkDim r.dim deltas.length
  if r.isEmpty then throw (.emptyOperand .shifted)
  let moved ← r.parts.mapM fun b => b.shift deltas
  return ofParts r.dim moved r.disjoint

/-- The single part, or the empty box of a region without parts. -/
def onlyBox (how : Resizing) (r : Region) : Except Fault Box :=
  match r.parts with
  | [] => .ok (.empty r.dim)
  | [b] => .ok b
  | _ => .error (.unresizableUnion how r.shape)

/- On one axis the number of margins is looked at before the interval, in a box after it. -/
def resize (how : Resizing) (onInterval : Interval → Margin → Except Fault Interval)
    (onBox : Box → List Margin → Except Fault Box) (r : Region) (margins : List Margin) :
    Except Fault Region := do
  let b ← r.onlyBox how
  match b.axes, margins with
  | [i], [m] => return ofInterval (← onInterval i m)
  | [_], _ => throw (.dimensionMismatch 1 margins.length)
  | _, _ => return ofBox (← onBox b margins)

def grow : Region → List Margin → Except Fault Region := resize .extend Interval.grow Box.grow

def shrink : Region → List Margin → Except Fault Region := resize .shrink Interval.shrink Box.shrink

end GridRegions.Region
