import GridRegions.Region.Algebra
import GridRegions.Region.Simplify

/-!
Building regions from parts and from other regions.
-/
namespace GridRegions

namespace Region

/-- The parts of all regions in order; `disjoint` promises that no two of them share a point. -/
def gather (regions : List Region) (disjoint : Bool) : Except Fault Region :=
  match regions with
  | [] => .error (.tooFewParts 0)
  | r :: _ => do
    regions.forM fun s => Fault.checkDim r.dim s.dim
    return ofParts r.dim (regions.flatMap parts) disjoint

def union (r s : Region) : Except Fault Region := do
  return (← gather [r, s] false).simplified

/-- Two boxes or more, none of them empty, taken as they are. -/
def ofBoxes (boxes : List Box) (disjoint : Bool) : Except Fault Region :=
  match boxes with
  | b :: _ :: _ =>
    if boxes.any Box.isEmpty then .error .emptyPart
    else do
      boxes.forM fun other => Fault.checkDim b.dim other.dim
      return ofParts b.dim boxes disjoint
  | _ => .error (.tooFewParts boxes.length)

end Region

namespace Interval

def union (a b : Interval) : Region := (Region.ofParts 1 [.line a, .line b] false).simplified

def diff (a b : Interval) : Region := .ofParts 1 ((a.outside b).map .line) true

/-- Nothing of `a` is left in the complement of `b`. -/
def isSubset (a b : Interval) : Bool :=
  ((Region.ofInterval b).complement.inter (.ofInterval a)).isEmpty

end Interval

end GridRegions
