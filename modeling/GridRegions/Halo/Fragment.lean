import GridRegions.Halo.Grid
import GridRegions.Region.Algebra
import GridRegions.Region.Simplify

/-!
The halo of a subdomain: the cells within its margins that are not its own, up to the edge of the
grid or through the images next to it. It is cut into fragments that lie in one image each.
-/
namespace GridRegions

/-- The same cells seen from the first cell of the subdomain, and where they are in the grid. -/
structure Fragment where
  relative : Box
  absolute : Box
  deriving DecidableEq, Repr

structure Halo where
  dim : Nat
  fragments : List Fragment
  deriving DecidableEq, Repr

namespace Halo

def relative (h : Halo) : Region := .ofParts h.dim (h.fragments.map Fragment.relative) true

/- Through different images the halo may reach the same cell of the grid. -/
def absolute (h : Halo) : Region := .ofParts h.dim (h.fragments.map Fragment.absolute) false

end Halo

namespace Grid

/-- The cells to look at: those within the margins, as far as the grid or its images go. -/
def reach (g : Grid) (d : Subdomain) : Except Fault Box := do
  let grown ← d.box.grow g.margins
  return grown.inter (← g.horizon)

/-- The part of `piece` in one image of the grid, if there is any. -/
def fragmentIn (g : Grid) (origin : Cell) (piece : Box) (image : List Int) :
    Except Fault (Option Fragment) := do
  let offsets := g.offsets image
  let shared := piece.inter (← g.box.shift offsets)
  if shared.isEmpty then return none
  let relative ← shared.shift (origin.map fun c => -c.val)
  let absolute ← shared.shift (offsets.map fun delta => -delta)
  return some ⟨relative, absolute⟩

def haloOf (g : Grid) (d : Subdomain) : Except Fault Halo := do
  Fault.checkDim g.box.dim d.box.dim
  if d.box.inter g.box ≠ d.box then throw (.outsideGlobal d.id)
  let reach ← g.reach d
  let pieces := ((Region.ofBox reach).diff (.ofBox d.box)).simplified.components
  let origin ← d.box.first
  let fragments ← pieces.mapM fun piece => g.images.mapM (g.fragmentIn origin piece)
  return ⟨g.box.dim, fragments.flatten.filterMap id⟩

end Grid

end GridRegions
