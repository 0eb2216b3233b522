import GridRegions.Region.Algebra

/-!
Cutting overlapping parts apart, and counting the points of a region.
-/
namespace GridRegions.Region

/-- Each region in turn, without what is left of those before it. -/
def separate (rs : List Region) : List Region :=
  rs.foldl (fun taken r => taken ++ [taken.foldl diff r]) []

/-- The same points, in parts that share none. -/
def separated (r : Region) : Region :=
  if r.disjoint then r
  else ofParts r.dim ((separate (r.parts.map ofBox)).flatMap parts) true

/-- Number of points, each counted once. -/
def size (r : Region) : Nat := Count.total (r.separated.parts.map Box.size)

end GridRegions.Region
