import GridRegions.Region.Separation
import GridRegions.Box.Motion

/-!
Fewer parts for the same points. On one axis the parts are sorted and joined where one stops and
the next starts. With more axes two parts that touch are replaced by the box around them, as long
as that box lies within the region and the number of parts goes down.
-/
namespace GridRegions

namespace Interval

/-- Order by start, then by stop. -/
def precedes (a b : Interval) : Bool :=
  decide (a.start < b.start) || (a.start == b.start && decide (a.stop ≤ b.stop))

/-- Joins `a` with the intervals after it that begin where the one before stops. -/
def joinFrom (a : Interval) : List Interval → List Interval
  | [] => [a]
  | b :: rest =>
    if a.stop = b.start then joinFrom (span a.start b.stop) rest else a :: joinFrom b rest

def joinAll : List Interval → List Interval
  | [] => []
  | a :: rest => joinFrom a rest

def joinSorted (is : List Interval) : List Interval := joinAll (is.mergeSort precedes)

end Interval

/-- Each element with the others, in order. -/
def picks {α : Type} : List α → List (α × List α)
  | [] => []
  | a :: as => (a, as) :: (picks as).map fun p => (p.1, a :: p.2)

/-- Each ordered pair of elements at two places, with the others. -/
def pairPicks {α : Type} (as : List α) : List (α × α × List α) :=
  (picks as).flatMap fun p => (picks p.2).map fun q => (p.1, q.1, q.2)

namespace Box

/-- The box lies at most one cell away from `a`; at the limits of the coordinates nothing does. -/
def touches (a b : Box) : Bool :=
  match a.grow (List.replicate a.dim (.symmetric ⟨1, by decide, by decide⟩)) with
  | .ok grown => !(grown.inter b).isEmpty
  | .error _ => false

/-- The parts once `a` and `b` are replaced by the box around them, which the rest makes room for. -/
def merge (a b : Box) (rest : List Box) : List Box := carveAll rest [a.hull b] ++ [a.hull b]

/-- One replacement of two parts that leaves fewer of them, the first there is. -/
def fuse? (parts : List Box) : Option (List Box) :=
  (pairPicks parts).findSome? fun (a, b, rest) =>
    if a.touches b && (a.hull b).isCovered parts && decide ((a.merge b rest).length < parts.length)
    then some (a.merge b rest)
    else none

theorem length_lt_of_fuse? {parts fused : List Box} (h : fuse? parts = some fused) :
    fused.length < parts.length := by
  obtain ⟨⟨a, b, rest⟩, _, found⟩ := List.exists_of_findSome?_eq_some h
  simp only [Option.ite_none_right_eq_some, Bool.and_eq_true, decide_eq_true_eq] at found
  obtain ⟨⟨_, fewer⟩, eq⟩ := found
  exact Option.some.inj eq ▸ fewer

def fuseAll (parts : List Box) : List Box :=
  match _step : fuse? parts with
  | some fused => fuseAll fused
  | none => parts
termination_by parts.length
decreasing_by exact length_lt_of_fuse? (by assumption)

end Box

namespace Region

/-- The axis of each part; only for regions of one dimension. -/
def intervals (r : Region) : List Interval := r.parts.flatMap Box.axes

def simplified (r : Region) : Region :=
  let parts :=
    if r.dim = 1 then (Interval.joinSorted r.separated.intervals).map Box.line
    else Box.fuseAll r.separated.parts
  ofParts r.dim parts true

end Region

end GridRegions
