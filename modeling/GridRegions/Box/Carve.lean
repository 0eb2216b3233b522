import GridRegions.Box.Basic

/-!
Taking a box out of another. What is left of the first axis goes with the whole other axes, and
what the two share on it goes with what is left of the other axes.
-/
namespace GridRegions.Box

/-- The pieces of `as` outside `bs`, for axes that overlap pairwise. -/
def leftover : List Interval → List Interval → List (List Interval)
  | a :: as, b :: bs =>
    (a.outside b).map (· :: as) ++ (leftover as bs).map (a.inter b :: ·)
  | _, _ => []

/-- The part of `a` outside `b`, as boxes without a common point. -/
def carve (a b : Box) : List Box :=
  if (a.inter b).isEmpty then [a] else (leftover a.axes b.axes).map ofAxes

/-- All points outside the box: on one axis what comes before and after it, else what is left of
    the whole once the box is carved out. -/
def complement (b : Box) : List Box :=
  match b.axes with
  | [i] => i.complement.map line
  | _ => (whole b.dim).carve b

/-- What is left of the boxes `as` once every box of `bs` is taken out, one after the other. -/
def carveAll (as bs : List Box) : List Box :=
  bs.foldl (fun rest b => rest.flatMap (·.carve b)) as

/-- Every point of the box lies in one of `bs`. -/
def isCovered (a : Box) (bs : List Box) : Bool := (carveAll [a] bs).all isEmpty

end GridRegions.Box
