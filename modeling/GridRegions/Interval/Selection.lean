import GridRegions.Interval.Basic

/-!
Relative positions on an axis: from the start when not negative, else back from the stop.
-/
namespace GridRegions

/-- A run of positions; a missing one stands for the end of the axis on its side. -/
structure Selection where
  start : Option Int
  stop : Option Int
  step : Option Int
  deriving DecidableEq, Repr

namespace Selection

def all : Selection := ⟨none, none, none⟩

def between (start stop : Int) : Selection := ⟨some start, some stop, none⟩

def startingAt (start : Int) : Selection := ⟨some start, none, none⟩

def upTo (stop : Int) : Selection := ⟨none, some stop, none⟩

/-- Only runs of neighbouring positions can be selected. -/
def checkStep (s : Selection) : Except Fault Unit :=
  match s.step with
  | none => .ok ()
  | some step => if step = 1 then .ok () else .error (.unsupportedStep step)

end Selection

namespace Interval

/-- The coordinate at a relative position. -/
def coordAt (i : Interval) (index : Int) : Except Fault Coord := do
  let base ← (if 0 ≤ index then i.start else i.stop).value
  let x ← Fault.orOverflow (base.shift? index)
  if i.contains (.finite x) then return x else throw (.indexOutOfRange index i.size)

/-- The end at a relative position, or `absent` if none is given. -/
def endAt (i : Interval) (position : Option Int) (absent : Endpoint) : Except Fault Endpoint :=
  match position with
  | none => .ok absent
  | some p => (if p < 0 then i.stop else i.start).shift p

/- The selected ends are not held back to those of the interval. -/
def select (i : Interval) (s : Selection) : Except Fault Interval := do
  s.checkStep
  let start ← i.endAt s.start i.start
  let stop ← i.endAt s.stop i.stop
  return span start stop

end Interval

end GridRegions
