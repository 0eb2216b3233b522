import GridRegions.Box.Motion
import GridRegions.Box.Selection

/-!
A grid is a bounded box of cells with a halo margin on each axis. On a periodic axis the grid
repeats itself, one extent further on either side.
-/
namespace GridRegions

/-- A bounded, non-empty box of cells that one owner works on. -/
structure Subdomain where
  id : Int
  box : Box
  deriving DecidableEq, Repr

def Subdomain.ofBox (id : Int) (box : Box) : Except Fault Subdomain :=
  if box.isEmpty then .error (.emptyOperand .subdomain)
  else if box.isBounded then .ok ⟨id, box⟩
  else .error .unbounded

/-- One margin and one flag per axis; without any flags no axis is periodic. -/
structure Settings where
  margins : List Margin
  periodic : List Bool
  deriving DecidableEq, Repr

structure Grid where
  box : Box
  margins : List Margin
  periodic : List Bool
  extents : List Coord
  deriving DecidableEq, Repr

namespace Grid

/- A margin may reach through the neighbouring image of the grid, and no further. -/
def checkMargins (axis : Nat) : List Margin → List Bool → List Coord → Except Fault Unit
  | m :: margins, wraps :: periodic, n :: extents =>
    if wraps ∧ n.val < m.widest then .error (.haloTooWide axis m.widest n.val.toNat)
    else checkMargins (axis + 1) margins periodic extents
  | _, _, _ => .ok ()

def ofBox (box : Box) (margins : List Margin) (periodic : List Bool) : Except Fault Grid := do
  Fault.checkDim box.dim margins.length
  Fault.checkDim box.dim periodic.length
  if box.isEmpty then throw (.emptyOperand .globalDomain)
  if !box.isBounded then throw .unbounded
  let extents ← box.shape.mapM fun n => Fault.orOverflow (Coord.ofInt? (Int.ofNat n))
  checkMargins 0 margins periodic extents
  return ⟨box, margins, periodic, extents⟩

def ofSettings (box : Box) (settings : Settings) : Except Fault Grid :=
  match settings.periodic with
  | [] => ofBox box settings.margins (List.replicate box.dim false)
  | periodic => ofBox box settings.margins periodic

/-- The grid itself, with one more image on either side of a periodic axis. -/
def horizon (g : Grid) : Except Fault Box :=
  g.box.grow (List.zipWith (fun wraps n => .symmetric (if wraps then n else .zero))
    g.periodic g.extents)

/-- The images of the grid, each by its number of periods along every axis. -/
def imagesOf : List Bool → List (List Int)
  | [] => [[]]
  | wraps :: periodic =>
    (if wraps then [-1, 0, 1] else [0]).flatMap fun k => (imagesOf periodic).map (k :: ·)

def images (g : Grid) : List (List Int) := imagesOf g.periodic

/-- How far an image lies from the grid along every axis. -/
def offsets (g : Grid) (image : List Int) : List Int :=
  List.zipWith (fun k (n : Coord) => k * n.val) image g.extents

end Grid

end GridRegions
