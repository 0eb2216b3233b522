import GridRegions.Region.Simplify

/-!
The algebra of regions as it goes by their shapes. A union is taken apart until a range comes
together with a range or a box with a box. There is no result where a range comes together with a
box, nor where the boxes of a union do not all have its number of axes.
-/
namespace GridRegions

/-- Boxes with one axis are ranges. -/
def Box.isRange (b : Box) : Bool := decide (b.dim < 2)

def Shape.isUnion : Shape → Bool
  | .interval | .box => false
  | .intervalUnion | .boxUnion => true

namespace Region

def flatten? (dim : Nat) (rs : List Region) (disjoint : Bool) : Option Region :=
  assemble? dim (rs.flatMap components) disjoint

/-- The range or the box that a region is unless it is a union. -/
def primitive (r : Region) : Box := r.parts.headD (.empty r.dim)

/-- What becomes of a union, part by part. -/
def eachPart? (r : Region) (f : Box → Option Region) (disjoint : Bool) : Option Region := do
  flatten? r.dim (← r.parts.mapM f) disjoint

def meetBoxes? (a b : Box) : Option Region :=
  match a.isRange, b.isRange with
  | true, true | false, false => some (ofBox (a.inter b))
  | true, false | false, true => none

def meetPart? (s : Region) (a : Box) : Option Region :=
  if s.shape.isUnion then s.eachPart? (meetBoxes? · a) s.disjoint else meetBoxes? a s.primitive

/- A union of ranges is looked for first, then one of boxes. -/
def meet? (r s : Region) : Option Region :=
  match r.shape, s.shape with
  | .intervalUnion, _ => r.eachPart? s.meetPart? (r.disjoint && s.disjoint)
  | _, .intervalUnion => s.eachPart? r.meetPart? (s.disjoint && r.disjoint)
  | .boxUnion, _ => r.eachPart? s.meetPart? (r.disjoint && s.disjoint)
  | _, .boxUnion => s.eachPart? r.meetPart? (s.disjoint && r.disjoint)
  | _, _ => meetBoxes? r.primitive s.primitive

/-- Everything outside a range or a box. -/
def outside (b : Box) : Region := ofParts b.dim b.complement true

def removePart? (b a : Box) : Option Region :=
  match a.isRange, b.isRange with
  | true, _ => meet? (outside b) (ofBox a)
  | false, false => assemble? a.dim (a.carve b) true
  | false, true => none

def remove? (r : Region) (b : Box) : Option Region :=
  if r.shape.isUnion then r.eachPart? (removePart? b) r.disjoint else removePart? b r.primitive

def complement? (r : Region) : Option Region :=
  if r.shape.isUnion then r.parts.foldlM remove? (whole r.dim) else some (outside r.primitive)

def diffPart? (s : Region) (a : Box) : Option Region :=
  match a.isRange, s.shape with
  | _, .interval | _, .box => removePart? s.primitive a
  | true, _ => do meet? (← s.complement?) (ofBox a)
  | false, .boxUnion => s.parts.foldlM remove? (ofBox a)
  | false, .intervalUnion => none

def diff? (r s : Region) : Option Region :=
  if r.shape.isUnion then r.eachPart? s.diffPart? r.disjoint else s.diffPart? r.primitive

def isWithin? (r s : Region) : Option Bool := do
  return (← meet? (← s.complement?) r).isEmpty

def separate? (rs : List Region) : Option (List Region) :=
  rs.foldlM (fun taken r => do return taken ++ [← taken.foldlM diff? r]) []

def separated? (r : Region) : Option Region :=
  if r.disjoint then some r
  else do flatten? r.dim (← separate? (r.parts.map ofBox)) true

/-- What is left of a part once there is room for the box `around`. -/
def makeRoom? (around c : Box) : Option (List Box) := do
  if ← (ofBox c).isWithin? (ofBox around) then return []
  else return (← (ofBox c).diff? (ofBox around)).components

/-- The union with the box around `a` and `b` in their place, if that is within it and leaves fewer
    parts. -/
def fusePair? (r : Region) (a b : Box) (rest : List Box) : Option (Option Region) := do
  if a.touches b then
    if ← (ofBox (a.hull b)).isWithin? r then
      let left ← rest.mapM (makeRoom? (a.hull b))
      let fused ← assemble? r.dim (left.flatten ++ [a.hull b]) true
      return if fused.components.length < r.parts.length then some fused else none
    else return none
  else return none

def fuseOnce? (r : Region) : Option (Option Region) :=
  (pairPicks r.parts).findSomeM? fun (a, b, rest) => r.fusePair? a b rest

end Region

end GridRegions
