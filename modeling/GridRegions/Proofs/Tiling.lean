import GridRegions.Proofs.HaloFaults

/-!
The images of a grid tile its horizon. Every combination of periods is listed once, and where the
grid can be widened by a period on each periodic axis it can be shifted by any of them. The
shifted grids share no cell, since a cell is seen from one image only, and they leave none out.
-/
namespace GridRegions

namespace Interval

theorem mem_periods_iff {wraps : Bool} {k : Int} :
    k ∈ (if wraps then [-1, 0, 1] else [0] : List Int) ↔
      k = 0 ∨ wraps = true ∧ (k = -1 ∨ k = 1) := by
  cases wraps with
  | false => simp
  | true =>
    simp only [↓reduceIte, List.mem_cons, List.not_mem_nil, or_false, true_and]
    exact or_left_comm

end Interval

namespace Axes

variable {gs : List Interval} {ms : List Margin} {ws : List Bool} {ns : List Coord}

theorem Fits.extents (fits : Fits gs ms ws ns) :
    ns.map Coord.val = (gs.map Interval.size).map Int.ofNat := by
  induction fits with
  | nil => rfl
  | cons first _ ih =>
    simp only [List.map_cons]
    rw [ih, ← first.size]
    rfl

theorem Fits.offsets_eq (fits : Fits gs ms ws ns) (image : List Int) : offsets image ns =
    List.zipWith (fun k (n : Nat) => k * (n : Int)) image (gs.map Interval.size) := by
  calc
    offsets image ns = List.zipWith (· * ·) image (ns.map Coord.val) :=
      List.zipWith_map_right.symm
    _ = List.zipWith (· * ·) image ((gs.map Interval.size).map Int.ofNat) := by rw [fits.extents]
    _ = _ := List.zipWith_map_right

theorem mem_imagesOf_iff {image : List Int} : image ∈ Grid.imagesOf ws ↔
    List.Forall₂ (fun wraps k => k = 0 ∨ wraps = true ∧ (k = -1 ∨ k = 1)) ws image := by
  induction ws generalizing image with
  | nil => rw [Grid.imagesOf, List.mem_singleton, List.forall₂_nil_left_iff]
  | cons wraps ws ih =>
    rw [mem_imagesOf_cons, List.forall₂_cons_left_iff]
    constructor
    · rintro ⟨k, period, rest, later, eq⟩
      exact ⟨k, rest, Interval.mem_periods_iff.mp period, ih.mp later, eq⟩
    · rintro ⟨k, rest, period, later, eq⟩
      exact ⟨k, Interval.mem_periods_iff.mpr period, rest, ih.mpr later, eq⟩

end Axes

namespace Grid

variable {g : Grid}

section

variable {tiles : List Box}

theorem tiles_apart (fits : g.Fits)
    (run : g.images.mapM (fun image => g.box.shift (g.offsets image)) = .ok tiles) :
    tiles.Pairwise Box.Apart := by
  apply pairwise_of_forall₂ (mapM_eq_ok.mp run) _ (Axes.imagesOf_nodup g.periodic)
  intro image left other right tile next shifted moved differ p both
  have here : g.Sees image p := (Box.mem_shift shifted).mp both.1
  have there : g.Sees other p := (Box.mem_shift moved).mp both.2
  exact differ (sees_unique fits left right here there)

theorem mem_tiles_iff
    (run : g.images.mapM (fun image => g.box.shift (g.offsets image)) = .ok tiles) {p : List Int} :
    (∃ tile ∈ tiles, tile.Mem p) ↔ ∃ image ∈ g.images, g.Sees image p := by
  have related := mapM_eq_ok.mp run
  constructor
  · intro ⟨tile, member, inside⟩
    obtain ⟨image, listed, shifted⟩ := exists_of_forall₂ related member
    exact ⟨image, listed, (Box.mem_shift shifted).mp inside⟩
  · intro ⟨image, listed, seen⟩
    obtain ⟨tile, member, shifted⟩ := exists_of_forall₂ related.flip listed
    exact ⟨tile, member, (Box.mem_shift shifted).mpr seen⟩

end

end Grid

/-- Every choice of one period back, none or one further on for the periodic axes, and none for the
    others, is listed once as an image of the grid, and lies that many extents of the box away. If the
    grid has a horizon, the box can be shifted to each of its images, no two of them share a point, and
    the points in them are those of the horizon. -/
theorem images_tile {box : Box} {margins : List Margin} {periodic : List Bool} {g : Grid}
    (grid : Grid.ofBox box margins periodic = .ok g) :
    g.images.Nodup ∧
    (∀ image, image ∈ g.images ↔
      List.Forall₂ (fun wraps k => k = 0 ∨ wraps = true ∧ (k = -1 ∨ k = 1)) periodic image) ∧
    (∀ image, g.offsets image = List.zipWith (fun k (n : Nat) => k * (n : Int)) image box.shape) ∧
    ∀ limits, g.horizon = .ok limits →
      ∃ tiles, g.images.mapM (fun image => box.shift (g.offsets image)) = .ok tiles ∧
        tiles.Pairwise Box.Apart ∧ ∀ p, limits.Mem p ↔ ∃ tile ∈ tiles, tile.Mem p := by
  obtain ⟨rfl, rfl, rfl, _, fits⟩ := Grid.ofBox_eq_ok grid
  refine ⟨Axes.imagesOf_nodup g.periodic, fun _ => Axes.mem_imagesOf_iff,
    Axes.Fits.offsets_eq fits, ?_⟩
  intro limits far
  have room := (Grid.exists_horizon_iff fits).mp ⟨limits, far⟩
  obtain ⟨tiles, run⟩ := exists_mapM fun image listed => Grid.exists_image fits room listed
  refine ⟨tiles, run, Grid.tiles_apart fits run, fun p => ?_⟩
  rw [Grid.mem_horizon fits far, Grid.mem_tiles_iff run]

namespace Sample

def between (lo hi : Int) : Interval :=
  .span (.finite ((Coord.ofInt? lo).getD .zero)) (.finite ((Coord.ofInt? hi).getD .zero))

def widest : Box := .ofAxes [between (-9223372036854775806) (-9223372036854775804), side 0 4,
  between 9223372036854775801 9223372036854775804]

def outermost : Grid :=
  ⟨widest, List.replicate 3 (.symmetric (coord 1)), [true, false, true], [coord 2, coord 4, coord 3]⟩

end Sample

theorem images_tile_outermost :
    Grid.ofBox Sample.widest (List.replicate 3 (.symmetric (Sample.coord 1))) [true, false, true] =
      .ok Sample.outermost ∧
    ∃ (limits : Box) (tiles : List Box), Sample.outermost.horizon = .ok limits ∧ tiles.length = 9 ∧
      tiles.Pairwise Box.Apart ∧ ∀ p, limits.Mem p ↔ ∃ tile ∈ tiles, tile.Mem p := by
  have grid : Grid.ofBox Sample.widest (List.replicate 3 (.symmetric (Sample.coord 1)))
      [true, false, true] = .ok Sample.outermost := by decide +kernel
  have room : List.Forall₂ Interval.RoomToRepeat Sample.outermost.box.axes
      Sample.outermost.periodic := by decide +kernel
  obtain ⟨_, _, _, _, fits⟩ := Grid.ofBox_eq_ok grid
  obtain ⟨limits, far⟩ := (Grid.exists_horizon_iff fits).mpr room
  obtain ⟨_, _, _, tile⟩ := images_tile grid
  obtain ⟨tiles, run, apart, points⟩ := tile limits far
  have count : Sample.outermost.images.length = tiles.length := (mapM_eq_ok.mp run).length_eq
  exact ⟨grid, limits, tiles, far, count ▸ (by decide +kernel), apart, points⟩

end GridRegions
