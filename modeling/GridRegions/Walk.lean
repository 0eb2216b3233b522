import GridRegions.Box.Basic

/-!
Visiting the cells of bounded boxes one by one: box after box, the last axis fastest. A walk is a
value, so keeping it keeps the place, and it holds no more than the cell that comes next.
-/
namespace GridRegions

/-- The coordinates from `lo` up to and without `hi`. -/
structure Stretch where
  lo : Coord
  hi : Coord
  deriving DecidableEq, Repr

namespace Stretch

def ofInterval (i : Interval) : Except Fault Stretch := do
  let lo ← i.start.value
  let hi ← i.stop.value
  return ⟨lo, hi⟩

/-- The coordinate after `c`, if it comes before `hi`. -/
def next? (s : Stretch) (c : Coord) : Option Coord :=
  if room : c.val + 1 < s.hi.val then
    some ⟨c.val + 1, by have := c.lower; omega, by have := s.hi.upper; omega⟩
  else none

/-- The first `n` coordinates, or all if there are fewer. -/
def take (s : Stretch) : Nat → List Coord
  | 0 => []
  | n + 1 =>
    if s.lo.val < s.hi.val then
      match s.next? s.lo with
      | some c => s.lo :: take ⟨c, s.hi⟩ n
      | none => [s.lo]
    else []

end Stretch

/-- The boxes ahead, and the cell of the first of them that comes next. -/
structure Walk where
  ahead : List (List Stretch)
  cell : Cell
  deriving DecidableEq, Repr

namespace Walk

def firstCell (axes : List Stretch) : Cell := axes.map Stretch.lo

/-- The cell after this one in the box: an axis moves on when all later axes have run out. -/
def advance : List Stretch → Cell → Option Cell
  | s :: axes, c :: cell =>
    match advance axes cell with
    | some later => some (c :: later)
    | none => (s.next? c).map (· :: firstCell axes)
  | _, _ => none

/-- Stands before the first cell of the first box. -/
def enter : List (List Stretch) → Walk
  | [] => ⟨[], []⟩
  | axes :: rest => ⟨axes :: rest, firstCell axes⟩

/-- Boxes without cells are passed over; one with an infinite end can not be walked. -/
def ofBoxes (boxes : List Box) : Except Fault Walk := do
  let ahead ← (boxes.filter (!·.isEmpty)).mapM fun b => b.axes.mapM Stretch.ofInterval
  return enter ahead

/-- The next cell and the walk after it, or nothing at the end. -/
def next? (w : Walk) : Option (Cell × Walk) :=
  match w.ahead with
  | [] => none
  | axes :: rest =>
    match advance axes w.cell with
    | some later => some (w.cell, ⟨axes :: rest, later⟩)
    | none => some (w.cell, enter rest)

/-- The first `n` cells, or all if there are fewer, and the walk after them. -/
def take (w : Walk) : Nat → List Cell × Walk
  | 0 => ([], w)
  | n + 1 =>
    match w.next? with
    | none => ([], w)
    | some (cell, later) => let (cells, rest) := later.take n; (cell :: cells, rest)

end Walk

end GridRegions
