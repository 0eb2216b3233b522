import GridRegions.Region.Basic

/-!
Intersection, difference and complement of regions, and the comparisons that rest on them. `inter`
and `diff` are for regions of one dimension; `intersection` and `difference` check it.
-/
namespace GridRegions.Region

/-- The common part of each pair of parts. -/
def inter (r s : Region) : Region :=
  ofParts r.dim (r.parts.flatMap fun a => s.parts.map fun b => a.inter b) (r.disjoint && s.disjoint)

/-- The region without one box: on one axis its complement is met with each part, with more axes
    it is carved out of each. -/
def remove (r : Region) (b : Box) : Region :=
  ofParts r.dim (r.parts.flatMap fun a =>
    if r.dim = 1 then b.complement.map (·.inter a) else a.carve b) r.disjoint

def removeAll (r : Region) (bs : List Box) : Region := bs.foldl remove r

/-- All points of the dimension that are not in the region. -/
def complement (r : Region) : Region :=
  match r.parts with
  | [b] => ofParts r.dim b.complement true
  | parts => (ofBox (.whole r.dim)).removeAll parts

/-- Each part of `r` without `s`: on one axis it is met with the complement of `s`, with more axes
    the parts of `s` are taken out of it one after the other. -/
def diff (r s : Region) : Region :=
  ofParts r.dim (r.parts.flatMap fun a =>
    if r.dim = 1 then s.complement.parts.map (·.inter a)
    else ((ofBox a).removeAll s.parts).parts) r.disjoint

/-- No point of `r` is in the complement of `s`. -/
def isWithin (r s : Region) : Bool := (s.complement.inter r).isEmpty

/-- The same points, however they are cut into parts. -/
def samePoints (r s : Region) : Bool := r.dim == s.dim && r.isWithin s && s.isWithin r

def intersection (r s : Region) : Except Fault Region := do
  Fault.checkDim r.dim s.dim
  return r.inter s

def difference (r s : Region) : Except Fault Region := do
  Fault.checkDim r.dim s.dim
  return r.diff s

/-- The points of `window` outside `r`. -/
def complementIn (r window : Region) : Except Fault Region := r.complement.intersection window

def isSubset (r s : Region) : Except Fault Bool := do
  Fault.checkDim r.dim s.dim
  return r.isWithin s

def intersectionAll (r : Region) (others : List Region) : Except Fault Region :=
  others.foldlM intersection r

def differenceAll (r : Region) (others : List Region) : Except Fault Region :=
  others.foldlM difference r

/-- Cartesian product: the axes of `r` come before those of `s`. -/
def prod (r s : Region) : Region :=
  ofParts (r.dim + s.dim) (r.parts.flatMap fun a => s.parts.map fun b => a.prod b)
    (r.disjoint && s.disjoint)

end GridRegions.Region
