import GridRegions.Proofs.Fragments
import GridRegions.Proofs.Overflow

/-!
Why a halo can not be cut. A subdomain of the grid leaves only overflow as a cause, and none if
the subdomain has room for its margins, the grid for its images, and the reach for the way back
from the first cell of the subdomain. Then the pieces of the reach have as much room, in any
image.
-/
namespace GridRegions

/-- An axis that repeats itself has room for its images on either side. -/
def Interval.RoomToRepeat (i : Interval) (wraps : Bool) : Prop :=
  wraps = true → i.start.Room (-(i.size : Int)) ∧ i.stop.Room i.size

instance (i : Interval) (wraps : Bool) : Decidable (i.RoomToRepeat wraps) :=
  inferInstanceAs (Decidable (_ → _))

namespace Interval.Fits

variable {g : Interval} {m : Margin} {wraps : Bool} {n : Coord}

theorem solid (fits : g.Fits m wraps n) : g.isEmpty = false := by
  obtain ⟨lo, hi, start, stop, ordered, _⟩ := fits.ends
  exact isEmpty_of_mem ((mem_of_ends start stop).mpr ⟨Int.le_refl lo.val, ordered⟩)

theorem room_width (fits : g.Fits m wraps n) (room : g.RoomToRepeat wraps) :
    g.RoomToGrow (.symmetric (if wraps then n else .zero)) := by
  obtain ⟨lo, hi, start, stop, ordered, extent⟩ := fits.ends
  have := lo.lower
  have := lo.upper
  have := hi.lower
  have := hi.upper
  simp only [RoomToRepeat, RoomToGrow, Endpoint.Room, start, stop, Coord.Fits, fits.size, ne_eq,
    Coord.ext_iff, Coord.lowest, Margin.symmetric] at room ⊢
  cases wraps with
  | false =>
    simp only [Bool.false_eq_true, ↓reduceIte, Coord.zero]
    omega
  | true =>
    have free := room rfl
    simp only [↓reduceIte]
    omega

theorem room_repeat (fits : g.Fits m wraps n)
    (room : g.RoomToGrow (.symmetric (if wraps then n else .zero))) : g.RoomToRepeat wraps := by
  intro flag
  rw [flag] at room
  obtain ⟨_, before, after⟩ := room
  rw [fits.size]
  exact ⟨before, after⟩

theorem room_image (fits : g.Fits m wraps n) (room : g.RoomToRepeat wraps) {k : Int}
    (period : k ∈ (if wraps then [-1, 0, 1] else [0] : List Int)) :
    g.RoomToShift (k * n.val) := by
  obtain ⟨lo, hi, start, stop, ordered, extent⟩ := fits.ends
  have := lo.lower
  have := lo.upper
  have := hi.lower
  have := hi.upper
  simp only [RoomToRepeat, RoomToShift, Endpoint.Room, start, stop, Coord.Fits, fits.size] at room ⊢
  cases wraps with
  | false =>
    rw [List.mem_singleton.mp period]
    omega
  | true =>
    have free := room rfl
    simp only [↓reduceIte, List.mem_cons, List.not_mem_nil, or_false] at period
    rcases period with rfl | rfl | rfl
    · omega
    · omega
    · omega

theorem fits_offset (fits : g.Fits m wraps n) {k : Int}
    (period : k ∈ (if wraps then [-1, 0, 1] else [0] : List Int)) :
    Coord.Fits (k * n.val) ∧ Coord.Fits (-(k * n.val)) := by
  have positive := fits.period
  have := n.upper
  unfold Coord.Fits
  cases wraps with
  | false =>
    rw [List.mem_singleton.mp period]
    omega
  | true =>
    simp only [↓reduceIte, List.mem_cons, List.not_mem_nil, or_false] at period
    rcases period with rfl | rfl | rfl
    · omega
    · omega
    · omega

end Interval.Fits

namespace Axes

variable {gs : List Interval} {ms : List Margin} {ws : List Bool} {ns : List Coord}

theorem Fits.solid (fits : Fits gs ms ws ns) : gs.any Interval.isEmpty = false := by
  induction fits with
  | nil => rfl
  | cons first _ ih =>
    rw [List.any_cons, first.solid, ih]
    rfl

theorem Fits.length_margins (fits : Fits gs ms ws ns) : gs.length = ms.length := by
  induction fits with
  | nil => rfl
  | cons _ _ ih => exact congrArg (· + 1) ih

theorem Fits.room_widths (fits : Fits gs ms ws ns)
    (room : List.Forall₂ Interval.RoomToRepeat gs ws) :
    List.Forall₂ Interval.RoomToGrow gs (widths ws ns) := by
  induction fits with
  | nil => exact .nil
  | cons first _ ih =>
    cases room with
    | cons head tail => exact .cons (first.room_width head) (ih tail)

theorem Fits.room_repeat (fits : Fits gs ms ws ns)
    (room : List.Forall₂ Interval.RoomToGrow gs (widths ws ns)) :
    List.Forall₂ Interval.RoomToRepeat gs ws := by
  induction fits with
  | nil => exact .nil
  | cons first _ ih =>
    cases room with
    | cons head tail => exact .cons (first.room_repeat head) (ih tail)

theorem Fits.room_offsets (fits : Fits gs ms ws ns)
    (room : List.Forall₂ Interval.RoomToRepeat gs ws) {image : List Int}
    (listed : image ∈ Grid.imagesOf ws) :
    List.Forall₂ Interval.RoomToShift gs (offsets image ns) := by
  induction fits generalizing image with
  | nil =>
    rw [offsets, List.zipWith_nil_right]
    exact .nil
  | cons first _ ih =>
    obtain ⟨k, period, rest, later, rfl⟩ := mem_imagesOf_cons.mp listed
    cases room with
    | cons head tail => exact .cons (first.room_image head period) (ih tail later)

theorem Fits.fits_offsets (fits : Fits gs ms ws ns) {image : List Int}
    (listed : image ∈ Grid.imagesOf ws) :
    ∀ delta ∈ offsets image ns, Coord.Fits delta ∧ Coord.Fits (-delta) := by
  induction fits generalizing image with
  | nil =>
    rw [offsets, List.zipWith_nil_right]
    exact List.forall_mem_nil _
  | cons first _ ih =>
    obtain ⟨k, period, rest, later, rfl⟩ := mem_imagesOf_cons.mp listed
    exact List.forall_mem_cons.mpr ⟨first.fits_offset period, ih later⟩

end Axes

namespace Subdomain

theorem id_of_ofBox {id : Int} {box : Box} {d : Subdomain}
    (run : Subdomain.ofBox id box = .ok d) : d.id = id := by
  unfold ofBox at run
  split at run
  · cases run
  · split at run
    · cases run
      rfl
    · cases run

end Subdomain

namespace Grid

variable {g : Grid} {d : Subdomain}

/-- Every sum of coordinates that the halo of the subdomain is cut with is a coordinate: where its
    margins end, where the images of the grid end, and where the reach ends as it is seen from the
    first cell of the subdomain. -/
structure HasRoom (g : Grid) (d : Subdomain) : Prop where
  margins : List.Forall₂ Interval.RoomToGrow d.box.axes g.margins
  images : List.Forall₂ Interval.RoomToRepeat g.box.axes g.periodic
  seen : ∀ reach origin, g.reach d = .ok reach → reach.isEmpty = false →
    d.box.first = .ok origin → List.Forall₂ (fun i c => i.RoomToShift (-c.val)) reach.axes origin

theorem Fits.isEmpty_box (fits : g.Fits) : g.box.isEmpty = false := Axes.Fits.solid fits

theorem Fits.dim_box (fits : g.Fits) : g.box.dim = g.margins.length := Axes.Fits.length_margins fits

theorem length_widths (fits : g.Fits) :
    g.box.dim = (Axes.widths g.periodic g.extents).length := by
  obtain ⟨flags, extents⟩ := Axes.Fits.lengths fits
  rw [Axes.widths, List.length_zipWith, flags, extents, Nat.min_self]
  rfl

theorem horizon_onlyOverflows (fits : g.Fits) : OnlyOverflows g.horizon :=
  Box.grow_onlyOverflows fits.isEmpty_box (length_widths fits)

theorem exists_horizon_iff (fits : g.Fits) : (∃ limits, g.horizon = .ok limits) ↔
    List.Forall₂ Interval.RoomToRepeat g.box.axes g.periodic := by
  apply (Box.exists_grow_iff fits.isEmpty_box (length_widths fits)).trans
  exact ⟨Axes.Fits.room_repeat fits, Axes.Fits.room_widths fits⟩

theorem exists_image (fits : g.Fits)
    (room : List.Forall₂ Interval.RoomToRepeat g.box.axes g.periodic) {image : List Int}
    (listed : image ∈ g.images) : ∃ tile, g.box.shift (g.offsets image) = .ok tile :=
  (Box.exists_shift_iff fits.isEmpty_box (length_offsets fits listed).symm).mpr
    (Axes.Fits.room_offsets fits room listed)

theorem reach_onlyOverflows (fits : g.Fits) (same : g.box.dim = d.box.dim)
    (solid : d.box.isEmpty = false) : OnlyOverflows (g.reach d) := by
  apply OnlyOverflows.bind
  · exact Box.grow_onlyOverflows solid (same.symm.trans fits.dim_box)
  · intro grown _
    apply OnlyOverflows.bind (horizon_onlyOverflows fits)
    exact fun limit _ => .ok (grown.inter limit)

theorem exists_reach (fits : g.Fits) (same : g.box.dim = d.box.dim) (solid : d.box.isEmpty = false)
    (room : g.HasRoom d) : ∃ reach, g.reach d = .ok reach := by
  obtain ⟨grown, near⟩ :=
    (Box.exists_grow_iff solid (same.symm.trans fits.dim_box)).mpr room.margins
  obtain ⟨limit, far⟩ := (exists_horizon_iff fits).mpr room.images
  exact ⟨grown.inter limit, bind_eq_ok.mpr ⟨grown, near, bind_eq_ok.mpr ⟨limit, far, rfl⟩⟩⟩

theorem isBounded_reach (bounded : g.box.isBounded = true) {reach : Box}
    (run : g.reach d = .ok reach) : reach.isBounded = true := by
  obtain ⟨grown, _, run⟩ := bind_eq_ok.mp run
  obtain ⟨limit, far, run⟩ := bind_eq_ok.mp run
  cases run
  exact Box.isBounded_inter (Box.isBounded_grow far bounded)

section

variable {origin : Cell} {piece : Box} {image : List Int}

theorem fragmentIn_onlyOverflows (fits : g.Fits) (listed : image ∈ g.images)
    (dims : piece.dim = g.box.dim) (lengths : origin.length = g.box.dim) :
    OnlyOverflows (g.fragmentIn origin piece image) := by
  have offsets := (length_offsets fits listed).symm
  apply OnlyOverflows.bind (Box.shift_onlyOverflows fits.isEmpty_box offsets)
  intro moved shifted
  have dim : (piece.inter moved).dim = g.box.dim :=
    (Box.dim_inter (dims.trans (Box.dim_move shifted).symm)).trans dims
  dsimp only
  split
  · exact .ok none
  · rename_i solid
    have full : (piece.inter moved).isEmpty = false := Bool.not_eq_true _ ▸ solid
    apply OnlyOverflows.bind
    · apply Box.shift_onlyOverflows full
      rw [dim, List.length_map, lengths]
    · intro relative _
      apply OnlyOverflows.bind
      · apply Box.shift_onlyOverflows full
        rw [dim, List.length_map, offsets]
      · exact fun absolute _ => .ok _

/- What a piece and an image share lies in the reach and in the image, so it can be shifted as these
   can; from the image it goes back into the grid. -/
theorem exists_fragmentIn {reach moved : Box} (bounded : g.box.isBounded = true)
    (ends : reach.isBounded = true) (dims : piece.dim = g.box.dim) (dim : reach.dim = g.box.dim)
    (within : ∀ p, piece.Mem p → reach.Mem p) (shifted : g.box.shift (g.offsets image) = .ok moved)
    (seen : reach.isEmpty = false → ∃ relative, reach.shift (origin.map fun c => -c.val) = .ok relative) :
    ∃ found, g.fragmentIn origin piece image = .ok found := by
  have dimM : piece.dim = moved.dim := dims.trans (Box.dim_move shifted).symm
  have both := fun p => Box.mem_inter dimM (p := p)
  have dimS := Box.dim_inter dimM
  cases void : (piece.inter moved).isEmpty with
  | true => exact ⟨none, bind_eq_ok.mpr ⟨moved, shifted, if_pos void⟩⟩
  | false =>
    have inReach : ∀ p, (piece.inter moved).Mem p → reach.Mem p := fun p inside =>
      within p ((both p).mp inside).1
    obtain ⟨p, inside⟩ := Axes.exists_mem void
    obtain ⟨_, back⟩ := seen (Box.isEmpty_of_mem (inReach p inside))
    obtain ⟨relative, first⟩ :=
      Box.exists_shift_within (dimS.trans (dims.trans dim.symm)) void ends inReach back
    obtain ⟨absolute, second⟩ := Box.exists_shift_within (dimS.trans dimM) void
      (Box.isBounded_shift shifted bounded) (fun p inside => ((both p).mp inside).2)
      (Box.shift_back shifted)
    refine ⟨some ⟨relative, absolute⟩, bind_eq_ok.mpr ⟨moved, shifted, ?_⟩⟩
    dsimp only
    rw [if_neg (Bool.eq_false_iff.mp void), first, second]
    rfl

end

theorem haloOf_of_inside (same : g.box.dim = d.box.dim) (inside : d.box.inter g.box = d.box) :
    g.haloOf d = do
      let reach ← g.reach d
      let pieces := ((Region.ofBox reach).diff (.ofBox d.box)).simplified.components
      let origin ← d.box.first
      let fragments ← pieces.mapM fun piece => g.images.mapM (g.fragmentIn origin piece)
      return ⟨g.box.dim, fragments.flatten.filterMap id⟩ := by
  rw [haloOf, (checkDim_eq_ok (u := ())).mpr same]
  exact if_neg (not_not.mpr inside)

theorem haloOf_of_outside (same : g.box.dim = d.box.dim) (outside : d.box.inter g.box ≠ d.box) :
    g.haloOf d = .error (.outsideGlobal d.id) := by
  rw [haloOf, (checkDim_eq_ok (u := ())).mpr same]
  exact if_pos outside

theorem haloOf_of_dims (differ : g.box.dim ≠ d.box.dim) :
    g.haloOf d = .error (.dimensionMismatch g.box.dim d.box.dim) := by
  rw [haloOf, Fault.checkDim, if_neg differ]
  rfl

theorem haloOf_onlyOverflows (fits : g.Fits) (positive : 0 < g.box.dim)
    (solid : d.box.isEmpty = false) (bounded : d.box.isBounded = true)
    (same : g.box.dim = d.box.dim) (inside : d.box.inter g.box = d.box) :
    OnlyOverflows (g.haloOf d) := by
  rw [haloOf_of_inside same inside]
  apply OnlyOverflows.bind (reach_onlyOverflows fits same solid)
  intro reach near
  have dim := dim_reach same near
  obtain ⟨dims, _, _⟩ := rest_pieces dim (dim ▸ same ▸ positive)
  obtain ⟨origin, _, corner, _⟩ := Box.exists_corners solid bounded
  dsimp only
  rw [corner]
  apply OnlyOverflows.bind (.ok origin)
  intro _ eq
  cases eq
  have lengths := (Box.length_of_first corner).trans same.symm
  apply OnlyOverflows.bind
  · apply OnlyOverflows.mapM
    intro piece part
    apply OnlyOverflows.mapM
    intro image listed
    exact fragmentIn_onlyOverflows fits listed ((dims piece part).trans (dim.trans same.symm)) lengths
  · exact fun table _ => .ok _

theorem exists_haloOf (fits : g.Fits) (positive : 0 < g.box.dim) (full : g.box.isBounded = true)
    (solid : d.box.isEmpty = false) (bounded : d.box.isBounded = true)
    (same : g.box.dim = d.box.dim) (inside : d.box.inter g.box = d.box) (room : g.HasRoom d) :
    ∃ h, g.haloOf d = .ok h := by
  obtain ⟨reach, near⟩ := exists_reach fits same solid room
  obtain ⟨origin, _, corner, _⟩ := Box.exists_corners solid bounded
  have dim := dim_reach same near
  obtain ⟨dims, _, points⟩ := rest_pieces dim (dim ▸ same ▸ positive)
  have seen : reach.isEmpty = false →
      ∃ relative, reach.shift (origin.map fun c => -c.val) = .ok relative := by
    intro some
    apply (Box.exists_shift_iff some _).mpr
    · exact List.forall₂_map_right_iff.mpr (room.seen reach origin near some corner)
    · rw [List.length_map, Box.length_of_first corner, dim]
  have each : ∀ piece ∈ ((Region.ofBox reach).diff (.ofBox d.box)).simplified.components,
      ∃ row, g.images.mapM (g.fragmentIn origin piece) = .ok row := by
    intro piece part
    apply exists_mapM
    intro image listed
    obtain ⟨moved, shifted⟩ := exists_image fits room.images listed
    apply exists_fragmentIn full (isBounded_reach full near) _ (dim.trans same.symm) _ shifted seen
    · exact (dims piece part).trans (dim.trans same.symm)
    · exact fun p held => ((points p).mp ⟨piece, part, held⟩).1
  obtain ⟨table, rows⟩ := exists_mapM each
  refine ⟨⟨g.box.dim, table.flatten.filterMap id⟩, ?_⟩
  rw [haloOf_of_inside same inside]
  exact bind_eq_ok.mpr ⟨reach, near, bind_eq_ok.mpr ⟨origin, corner, bind_eq_ok.mpr ⟨table, rows, rfl⟩⟩⟩

end Grid

/-- A halo is refused if the subdomain has another number of axes than the grid, else if it has a cell
    outside the grid, and otherwise for an overflow only. There is none if all sums of coordinates
    that it is cut with are coordinates; the numbers of periods to the images always are. -/
theorem halo_faults {id : Int} {box cells : Box} {margins : List Margin} {periodic : List Bool}
    {g : Grid} {d : Subdomain} (positive : 0 < box.dim)
    (grid : Grid.ofBox box margins periodic = .ok g) (domain : Subdomain.ofBox id cells = .ok d) :
    (∀ expected found, g.haloOf d = .error (.dimensionMismatch expected found) ↔
      box.dim ≠ cells.dim ∧ expected = box.dim ∧ found = cells.dim) ∧
    (box.dim = cells.dim → ∀ name, g.haloOf d = .error (.outsideGlobal name) ↔
      name = id ∧ ∃ p, cells.Mem p ∧ ¬ box.Mem p) ∧
    (box.dim = cells.dim → (∀ p, cells.Mem p → box.Mem p) →
      OnlyOverflows (g.haloOf d) ∧ (g.HasRoom d → ∃ h, g.haloOf d = .ok h)) ∧
    ∀ image ∈ g.images, ∀ delta ∈ g.offsets image, Coord.Fits delta ∧ Coord.Fits (-delta) := by
  obtain ⟨rfl, rfl, rfl, full, fits⟩ := Grid.ofBox_eq_ok grid
  obtain ⟨rfl, solid, bounded⟩ := Subdomain.ofBox_eq_ok domain
  obtain rfl := Subdomain.id_of_ofBox domain
  have overflows := Grid.haloOf_onlyOverflows fits positive solid bounded
  refine ⟨fun expected found => ?_, fun same name => ?_, fun same within => ?_, fun image listed =>
    Axes.Fits.fits_offsets fits listed⟩
  · constructor
    · intro run
      by_cases same : g.box.dim = d.box.dim
      · by_cases inside : d.box.inter g.box = d.box
        · cases overflows same inside _ run
        · rw [Grid.haloOf_of_outside same inside] at run
          cases run
      · rw [Grid.haloOf_of_dims same] at run
        cases run
        exact ⟨same, rfl, rfl⟩
    · intro ⟨differ, first, second⟩
      rw [first, second, Grid.haloOf_of_dims differ]
  · have within := Box.inter_eq_left_iff same.symm
    by_cases inside : d.box.inter g.box = d.box
    · apply iff_of_false
      · intro run
        cases overflows same inside _ run
      · intro ⟨_, p, held, away⟩
        exact away (within.mp inside p held)
    · obtain ⟨p, out⟩ := not_forall.mp (mt within.mpr inside)
      rw [Grid.haloOf_of_outside same inside]
      constructor
      · intro eq
        cases eq
        exact ⟨rfl, p, Classical.not_imp.mp out⟩
      · intro ⟨eq, _⟩
        rw [eq]
  · have inside := (Box.inter_eq_left_iff same.symm).mpr within
    exact ⟨overflows same inside, Grid.exists_haloOf fits positive full solid bounded same inside⟩

namespace Sample

def cylinder : Grid := ⟨box, margins, [true, false], [four, four]⟩

def middle : Subdomain := ⟨0, tile 1 1 2 2⟩

def overhang : Subdomain := ⟨9, tile 3 3 2 2⟩

end Sample

theorem halo_faults_cylinder :
    Grid.ofBox Sample.box Sample.margins [true, false] = .ok Sample.cylinder ∧
    Subdomain.ofBox 0 Sample.middle.box = .ok Sample.middle ∧
    Subdomain.ofBox 9 Sample.overhang.box = .ok Sample.overhang ∧
    Sample.cylinder.HasRoom Sample.middle ∧
    (∃ h, Sample.cylinder.haloOf Sample.middle = .ok h) ∧
    Sample.cylinder.haloOf Sample.overhang = .error (.outsideGlobal 9) := by
  have grid : Grid.ofBox Sample.box Sample.margins [true, false] = .ok Sample.cylinder := by
    decide +kernel
  have inner : Subdomain.ofBox 0 Sample.middle.box = .ok Sample.middle := by decide +kernel
  have outer : Subdomain.ofBox 9 Sample.overhang.box = .ok Sample.overhang := by decide +kernel
  have corner : Sample.middle.box.first = .ok [Sample.coord 1, Sample.coord 1] := by decide +kernel
  have wide : (Sample.cylinder.reach Sample.middle).map (fun reach =>
      decide (List.Forall₂ (fun i c => i.RoomToShift (-c.val)) reach.axes
        [Sample.coord 1, Sample.coord 1])) = .ok true := by decide +kernel
  have room : Sample.cylinder.HasRoom Sample.middle := by
    refine ⟨by decide +kernel, by decide +kernel, ?_⟩
    intro reach origin near _ first
    obtain ⟨_, run, free⟩ := map_eq_ok.mp wide
    rw [near] at run
    cases run
    rw [corner] at first
    cases first
    exact of_decide_eq_true free
  have within : ∀ p, Sample.middle.box.Mem p → Sample.box.Mem p :=
    (Box.inter_eq_left_iff (by decide +kernel)).mp (by decide +kernel)
  obtain ⟨_, _, cut, _⟩ := halo_faults (by decide) grid inner
  obtain ⟨_, refused, _, _⟩ := halo_faults (by decide) grid outer
  have outside : ¬ ∀ p, Sample.overhang.box.Mem p → Sample.box.Mem p :=
    mt (Box.inter_eq_left_iff (by decide +kernel)).mpr (by decide +kernel)
  obtain ⟨p, out⟩ := not_forall.mp outside
  exact ⟨grid, inner, outer, room, (cut (by decide +kernel) within).2 room,
    (refused (by decide +kernel) 9).mpr ⟨rfl, p, Classical.not_imp.mp out⟩⟩

end GridRegions
