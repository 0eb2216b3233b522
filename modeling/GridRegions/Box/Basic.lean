import GridRegions.Interval.Basic

/-!
Boxes: one interval per axis. A box with an empty axis is the empty box of its dimension, whose
axes are all empty, so equal sets of points have equal axes.
-/
namespace GridRegions

/-- Carries `f` along two lists of one entry per axis; the first axis at fault gives the fault. -/
def alongAxes {α β γ : Type} (f : α → β → Except Fault γ) :
    List α → List β → Except Fault (List γ)
  | a :: as, b :: bs => do
    let c ← f a b
    let cs ← alongAxes f as bs
    return c :: cs
  | _, _ => .ok []

@[ext] structure Box where
  axes : List Interval
  canonical : (∀ i ∈ axes, i.isEmpty = false) ∨ (∀ i ∈ axes, i = Interval.empty)
  deriving DecidableEq, Repr

/-- The point has one coordinate inside each axis. -/
def Axes.Mem : List Interval → List Int → Prop
  | [], [] => True
  | i :: is, x :: xs => i.Mem x ∧ Axes.Mem is xs
  | _, _ => False

namespace Box

def dim (b : Box) : Nat := b.axes.length

def Mem (b : Box) (p : List Int) : Prop := Axes.Mem b.axes p

/-- The boxes share no point. -/
def Apart (a b : Box) : Prop := ∀ p, ¬ (a.Mem p ∧ b.Mem p)

def isEmpty (b : Box) : Bool := b.axes.any Interval.isEmpty

/-- The box of these axes; one empty axis empties the others. -/
def ofAxes (axes : List Interval) : Box :=
  if void : axes.any Interval.isEmpty = true then
    ⟨axes.map fun _ => .empty, .inr (by simp)⟩
  else ⟨axes, .inl (by simpa using void)⟩

/-- A range is a box with one axis. -/
def line (i : Interval) : Box := ofAxes [i]

/-- What is written as a box has two axes or more. -/
def ofIntervals (axes : List Interval) : Except Fault Box :=
  if axes.length < 2 then .error (.tooFewAxes axes.length) else .ok (ofAxes axes)

def empty (dim : Nat) : Box := ofAxes (List.replicate dim .empty)

def whole (dim : Nat) : Box := ofAxes (List.replicate dim .whole)

def axisBetween (first last : Coord) : Except Fault Interval := do
  let stop ← Fault.orOverflow (last.shift? 1)
  return .span (.finite first) (.finite stop)

/-- The box from one corner to the other, both included. -/
def between (first last : Cell) : Except Fault Box := do
  Fault.checkDim first.length last.length
  ofIntervals (← alongAxes axisBetween first last)

def isBounded (b : Box) : Bool := b.axes.all Interval.isBounded

def shape (b : Box) : List Nat := b.axes.map Interval.size

def size (b : Box) : Nat := Count.product b.shape

/-- A cell with another number of coordinates is outside. -/
def contains (b : Box) (c : Cell) : Bool :=
  c.length == b.dim && (b.axes.zip c).all fun p => p.1.contains (.finite p.2)

def inter (a b : Box) : Box := ofAxes (List.zipWith Interval.inter a.axes b.axes)

/-- The smallest box around both. -/
def hull (a b : Box) : Box :=
  if a.isEmpty then b
  else if b.isEmpty then a
  else ofAxes (List.zipWith Interval.hull a.axes b.axes)

/-- The axes of `a` followed by those of `b`. -/
def prod (a b : Box) : Box := ofAxes (a.axes ++ b.axes)

def text (b : Box) : String := String.intercalate " x " (b.axes.map Interval.text)

theorem ofAxes_of_nonempty {axes : List Interval} (solid : axes.any Interval.isEmpty = false) :
    (ofAxes axes).axes = axes := by
  simp [ofAxes, solid]

theorem ofAxes_of_empty {axes : List Interval} (void : axes.any Interval.isEmpty = true) :
    (ofAxes axes).axes = axes.map fun _ => .empty := by
  simp [ofAxes, void]

@[simp] theorem dim_ofAxes (axes : List Interval) : (ofAxes axes).dim = axes.length := by
  unfold ofAxes dim
  split <;> simp

@[simp] theorem isEmpty_ofAxes (axes : List Interval) :
    (ofAxes axes).isEmpty = axes.any Interval.isEmpty := by
  cases void : axes.any Interval.isEmpty with
  | false => simp [isEmpty, ofAxes_of_nonempty void, void]
  | true =>
    cases axes with
    | nil => simp at void
    | cons i is => simp [isEmpty, ofAxes_of_empty void]

end Box

end GridRegions
