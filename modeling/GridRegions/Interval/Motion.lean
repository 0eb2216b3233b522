import GridRegions.Interval.Basic

/-!
Moving the ends of an interval: growing and shrinking by a margin, and shifting as a whole.
Infinite ends stay where they are, and the empty interval has no ends to move.
-/
namespace GridRegions

/-- Numbers of cells before the start and after the stop; negative ones count inwards. -/
@[ext] structure Margin where
  before : Coord
  after : Coord
  deriving DecidableEq, Repr

namespace Margin

def symmetric (width : Coord) : Margin := ⟨width, width⟩

def negate (m : Margin) : Except Fault Margin :=
  match m.before.neg?, m.after.neg? with
  | some before, some after => .ok ⟨before, after⟩
  | _, _ => .error .overflow

def widest (m : Margin) : Int := if m.before.val ≤ m.after.val then m.after.val else m.before.val

end Margin

namespace Interval

/- The start moves by the negated width, so that number must be a coordinate as well. -/
def growFor (use : Use) (i : Interval) (m : Margin) : Except Fault Interval :=
  if i.isEmpty then .error (.emptyOperand use)
  else do
    let back ← Fault.orOverflow m.before.neg?
    let start ← i.start.shift back.val
    let stop ← i.stop.shift m.after.val
    return span start stop

def grow (i : Interval) (m : Margin) : Except Fault Interval := i.growFor .extended m

def shrink (i : Interval) (m : Margin) : Except Fault Interval := do
  i.growFor .shrunk (← m.negate)

def shift (i : Interval) (delta : Int) : Except Fault Interval :=
  if i.isEmpty then .error (.emptyOperand .shifted)
  else do
    let start ← i.start.shift delta
    let stop ← i.stop.shift delta
    return span start stop

end Interval

end GridRegions
