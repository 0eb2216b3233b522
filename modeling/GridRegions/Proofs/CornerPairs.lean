import GridRegions.Proofs.Positions
import GridRegions.Proofs.RoundTrip

/-!
A pair of corners and a box stand for each other. The corners of a box that is bounded and not
empty are the first and the last of its points, and the box from one to the other is the box
itself; any two cells in order along every axis are the corners of the box between them, as long
as the last has a coordinate after it on each axis. No other box has corners.
-/
namespace GridRegions

namespace Endpoint

theorem value_of_infinite {e : Endpoint} (infinite : e.isFinite = false) :
    e.value = .error .unbounded := by
  cases e with
  | negInf => rfl
  | finite c => cases infinite
  | posInf => rfl

end Endpoint

namespace Interval

variable {i : Interval} {c d : Coord} {index : Int} {fault : Fault}

theorem stop_of_coordAt (run : i.coordAt (-1) = .ok c) :
    ∃ stop, i.stop = .finite stop ∧ c.val + 1 = stop.val := by
  obtain ⟨stop, ends, sum, _⟩ := coordAt_eq_ok.mp run
  exact ⟨stop, ends, by omega⟩

theorem mem_iff_of_coordAt (low : i.coordAt 0 = .ok c) (high : i.coordAt (-1) = .ok d) {x : Int} :
    i.Mem x ↔ c.val ≤ x ∧ x ≤ d.val := by
  obtain ⟨stop, ends, sum⟩ := stop_of_coordAt high
  rw [mem_of_ends (start_of_coordAt low) ends]
  omega

theorem isBounded_of_coordAt (low : i.coordAt 0 = .ok c) (high : i.coordAt (-1) = .ok d) :
    i.isBounded = true := by
  obtain ⟨stop, ends, _⟩ := stop_of_coordAt high
  rw [isBounded, start_of_coordAt low, ends]
  rfl

/-- The interval from one number to another that is no smaller is the one with these two at its ends. -/
theorem axisBetween_eq_ok_iff (ordered : c.val ≤ d.val) :
    Box.axisBetween c d = .ok i ↔ i.coordAt 0 = .ok c ∧ i.coordAt (-1) = .ok d := by
  constructor
  · intro run
    obtain ⟨stop, fits, run⟩ := bind_eq_ok.mp run
    cases run
    have sum : d.val + 1 = stop.val := Coord.ofInt?_eq_some_iff.mp (orOverflow_eq_ok.mp fits)
    have proper : Endpoint.finite c < .finite stop := by
      rw [Endpoint.lt_iff_rank]
      simp only [Endpoint.rank]
      omega
    rw [span_of_lt proper]
    constructor
    · exact coordAt_eq_ok.mpr ⟨c, rfl, Int.add_zero _, (mem_of_ends rfl rfl).mpr (by omega)⟩
    · exact coordAt_eq_ok.mpr ⟨stop, rfl, by omega, (mem_of_ends rfl rfl).mpr (by omega)⟩
  · rintro ⟨low, high⟩
    obtain ⟨stop, ends, sum⟩ := stop_of_coordAt high
    have fits : Fault.orOverflow (d.shift? 1) = .ok stop :=
      orOverflow_eq_ok.mpr (Coord.ofInt?_eq_some_iff.mpr sum)
    rw [Box.axisBetween, fits, ← span_start_stop i, start_of_coordAt low, ends]
    rfl

theorem exists_axisBetween_iff :
    (∃ i, Box.axisBetween c d = .ok i) ↔ d.val < 9223372036854775807 := by
  constructor
  · intro ⟨i, run⟩
    obtain ⟨stop, fits, _⟩ := bind_eq_ok.mp run
    have sum : d.val + 1 = stop.val := Coord.ofInt?_eq_some_iff.mp (orOverflow_eq_ok.mp fits)
    have := stop.upper
    omega
  · intro room
    have := d.lower
    have fits : Fault.orOverflow (d.shift? 1) = .ok ⟨d.val + 1, by omega, by omega⟩ :=
      orOverflow_eq_ok.mpr (Coord.ofInt?_eq_some_iff.mpr rfl)
    rw [Box.axisBetween, fits]
    exact ⟨_, rfl⟩

theorem coordAt_of_infinite (index : Int)
    (infinite : (if 0 ≤ index then i.start else i.stop).isFinite = false) :
    i.coordAt index = .error .unbounded := by
  rw [coordAt, Endpoint.value_of_infinite infinite]
  rfl

theorem mem_start (solid : i.isEmpty = false) (start : i.start = .finite c) : i.Mem c.val := by
  have ordered := (isEmpty_eq_false_iff i).mp solid
  rw [start, ← Endpoint.not_le, Endpoint.finite_le_iff_atMost] at ordered
  rw [Mem, start]
  exact ⟨Int.le_refl _, ordered⟩

theorem fault_of_coordAt (found : (if 0 ≤ index then i.start else i.stop).isFinite = true →
    ∃ c, i.coordAt index = .ok c) (run : i.coordAt index = .error fault) : fault = .unbounded := by
  cases finite : (if 0 ≤ index then i.start else i.stop).isFinite with
  | false =>
    rw [coordAt_of_infinite index finite] at run
    cases run
    rfl
  | true =>
    obtain ⟨c, here⟩ := found finite
    rw [here] at run
    cases run

theorem fault_of_coordAt_zero (solid : i.isEmpty = false) (run : i.coordAt 0 = .error fault) :
    fault = .unbounded := by
  apply fault_of_coordAt _ run
  intro finite
  obtain ⟨c, start⟩ := Endpoint.eq_finite_of_isFinite finite
  exact ⟨c, coordAt_eq_ok.mpr ⟨c, start, Int.add_zero _, mem_start solid start⟩⟩

theorem fault_of_coordAt_last (solid : i.isEmpty = false) (finite : i.start.isFinite = true)
    (run : i.coordAt (-1) = .error fault) : fault = .unbounded := by
  apply fault_of_coordAt _ run
  intro bounded
  obtain ⟨_, c, _, found⟩ := exists_coordAt solid (Bool.and_eq_true_iff.mpr ⟨finite, bounded⟩)
  exact ⟨c, found⟩

end Interval

namespace Axes

variable {is : List Interval} {first last : Cell}

theorem between_eq_ok_iff (ordered : List.Forall₂ (fun c d => c.val ≤ d.val) first last) :
    alongAxes Box.axisBetween first last = .ok is ↔
      alongAxes Interval.coordAt is (List.replicate is.length 0) = .ok first ∧
        alongAxes Interval.coordAt is (List.replicate is.length (-1)) = .ok last := by
  induction ordered generalizing is with
  | nil =>
    cases is with
    | nil => exact iff_of_true rfl ⟨rfl, rfl⟩
    | cons i is =>
      constructor
      · intro run
        cases run
      · intro ⟨low, _⟩
        obtain ⟨_, _, _, _, none⟩ := alongAxes_cons_eq_ok.mp low
        cases none
  | cons here _ ih =>
    cases is with
    | nil =>
      constructor
      · intro run
        obtain ⟨_, _, _, _, none⟩ := alongAxes_cons_eq_ok.mp run
        cases none
      · intro ⟨low, _⟩
        cases low
    | cons i is =>
      simp only [List.length_cons, List.replicate_succ, alongAxes_cons_eq_ok, List.cons.injEq]
      constructor
      · rintro ⟨_, _, run, later, rfl, rfl⟩
        obtain ⟨low, high⟩ := (Interval.axisBetween_eq_ok_iff here).mp run
        obtain ⟨lows, highs⟩ := ih.mp later
        exact ⟨⟨_, _, low, lows, rfl, rfl⟩, _, _, high, highs, rfl, rfl⟩
      · rintro ⟨⟨_, _, low, lows, rfl, rfl⟩, _, _, high, highs, rfl, rfl⟩
        exact ⟨i, is, (Interval.axisBetween_eq_ok_iff here).mpr ⟨low, high⟩, ih.mpr ⟨lows, highs⟩,
          rfl, rfl⟩

theorem mem_of_coordAt {index : List Int} {cell : Cell} (same : is.length = index.length)
    (run : alongAxes Interval.coordAt is index = .ok cell) : Mem is (cell.map Coord.val) := by
  induction is generalizing index cell with
  | nil =>
    cases run
    trivial
  | cons i is ih =>
    cases index with
    | nil => simp at same
    | cons k index =>
      obtain ⟨c, rest, here, later, rfl⟩ := alongAxes_cons_eq_ok.mp run
      obtain ⟨_, _, _, inside⟩ := Interval.coordAt_eq_ok.mp here
      exact ⟨inside, ih (Nat.succ.inj same) later⟩

theorem mem_iff_of_corners
    (low : alongAxes Interval.coordAt is (List.replicate is.length 0) = .ok first)
    (high : alongAxes Interval.coordAt is (List.replicate is.length (-1)) = .ok last)
    {p : List Int} : Mem is p ↔ List.Forall₂ (· ≤ ·) (first.map Coord.val) p ∧
      List.Forall₂ (· ≤ ·) p (last.map Coord.val) := by
  induction is generalizing first last p with
  | nil =>
    cases low
    cases high
    cases p <;> simp [Mem]
  | cons i is ih =>
    rw [List.length_cons, List.replicate_succ] at low high
    obtain ⟨c, cs, here, later, rfl⟩ := alongAxes_cons_eq_ok.mp low
    obtain ⟨d, ds, here', later', rfl⟩ := alongAxes_cons_eq_ok.mp high
    cases p with
    | nil => simp [Mem]
    | cons x xs =>
      rw [Mem, Interval.mem_iff_of_coordAt here here', ih later later', List.map_cons, List.map_cons,
        List.forall₂_cons, List.forall₂_cons, and_and_and_comm]

end Axes

theorem eq_or_lex_of_forall₂_le {p q : List Int} (le : List.Forall₂ (· ≤ ·) p q) :
    p = q ∨ List.Lex (· < ·) p q := by
  induction le with
  | nil => exact .inl rfl
  | @cons x y xs ys here _ ih =>
    rcases Int.lt_or_eq_of_le here with less | rfl
    · exact .inr (.rel less)
    · rcases ih with rfl | before
      · exact .inl rfl
      · exact .inr (.cons before)

namespace Box

variable {b : Box} {first last : Cell}

theorem mem_iff_of_corners (run : b.corners = .ok (first, last)) {p : List Int} :
    b.Mem p ↔ List.Forall₂ (· ≤ ·) (first.map Coord.val) p ∧
      List.Forall₂ (· ≤ ·) p (last.map Coord.val) := by
  obtain ⟨low, high⟩ := corners_eq_ok.mp run
  exact Axes.mem_iff_of_corners low high

theorem mem_of_corners (run : b.corners = .ok (first, last)) :
    b.Mem (first.map Coord.val) ∧ b.Mem (last.map Coord.val) := by
  obtain ⟨low, high⟩ := corners_eq_ok.mp run
  exact ⟨Axes.mem_of_coordAt List.length_replicate.symm low,
    Axes.mem_of_coordAt List.length_replicate.symm high⟩

theorem ordered_of_corners (run : b.corners = .ok (first, last)) :
    List.Forall₂ (fun c d => c.val ≤ d.val) first last := by
  have inside := ((mem_iff_of_corners run).mp (mem_of_corners run).1).2
  exact List.forall₂_map_left_iff.mp (List.forall₂_map_right_iff.mp inside)

theorem isBounded_of_corners (run : b.corners = .ok (first, last)) : b.isBounded = true := by
  obtain ⟨low, high⟩ := corners_eq_ok.mp run
  have lows := Axes.exists_coordAt_replicate_iff.mp ⟨first, low⟩
  have highs := Axes.exists_coordAt_replicate_iff.mp ⟨last, high⟩
  apply List.all_eq_true.mpr
  intro i axis
  obtain ⟨_, here⟩ := lows i axis
  obtain ⟨_, there⟩ := highs i axis
  exact Interval.isBounded_of_coordAt here there

/-- For cells in order along two axes or more, the box between them is the one that has them as its
    corners. -/
theorem between_eq_ok_iff (many : 2 ≤ first.length)
    (ordered : List.Forall₂ (fun c d => c.val ≤ d.val) first last) :
    between first last = .ok b ↔ b.corners = .ok (first, last) := by
  rw [between, bind_eq_ok, corners_eq_ok, ← Axes.between_eq_ok_iff ordered]
  simp only [checkDim_eq_ok, exists_const, ordered.length_eq, true_and]
  constructor
  · intro run
    obtain ⟨axes, along, run⟩ := bind_eq_ok.mp run
    obtain ⟨_, rfl⟩ := ofIntervals_eq_ok.mp run
    obtain ⟨low, _⟩ := (Axes.between_eq_ok_iff ordered).mp along
    have solid := Axes.solid_of_mem (Axes.mem_of_coordAt List.length_replicate.symm low)
    rw [ofAxes_of_nonempty solid]
    exact along
  · intro along
    have length := length_of_alongAxes ordered.length_eq along
    have axes : 2 ≤ b.axes.length := length ▸ many
    exact bind_eq_ok.mpr ⟨b.axes, along, ofIntervals_eq_ok.mpr ⟨axes, (ofAxes_axes b).symm⟩⟩

theorem exists_between (many : 2 ≤ first.length) (fits : List.Forall₂
    (fun c d => c.val ≤ d.val ∧ d.val < 9223372036854775807) first last) :
    ∃ b, between first last = .ok b := by
  have same := fits.length_eq
  have room : List.Forall₂ (fun _ d => d.val < 9223372036854775807) first last :=
    fits.imp fun _ _ => And.right
  obtain ⟨axes, along⟩ :=
    (exists_alongAxes_iff (fun _ _ _ => Interval.exists_axisBetween_iff) same).mpr room
  have length := length_of_alongAxes same along
  refine ⟨ofAxes axes, ?_⟩
  rw [between, bind_eq_ok]
  have built : ofIntervals axes = .ok (ofAxes axes) := ofIntervals_eq_ok.mpr ⟨length ▸ many, rfl⟩
  exact ⟨(), checkDim_eq_ok.mpr same, bind_eq_ok.mpr ⟨axes, along, built⟩⟩

theorem corners_of_isEmpty (void : b.isEmpty = true) :
    b.corners = .error (.indexOutOfRange 0 0) := by
  have axes := axes_of_isEmpty void
  have none : Interval.empty.coordAt 0 = .error (.indexOutOfRange 0 0) := rfl
  rw [corners, Box.first, cellAt_replicate]
  cases dim : b.dim with
  | zero =>
    rw [isEmpty, axes, dim] at void
    cases void
  | succ n =>
    rw [axes, dim, List.length_replicate, List.replicate_succ, List.replicate_succ, alongAxes, none]
    rfl

theorem corners_of_unbounded (solid : b.isEmpty = false) (unbounded : b.isBounded = false) :
    b.corners = .error .unbounded := by
  rw [corners, Box.first, Box.last, cellAt_replicate, cellAt_replicate]
  cases low : alongAxes Interval.coordAt b.axes (List.replicate b.axes.length 0) with
  | error fault =>
    obtain ⟨i, axis, k, listed, failed⟩ := exists_of_alongAxes_eq_error low
    rw [List.eq_of_mem_replicate listed] at failed
    rw [Interval.fault_of_coordAt_zero (Axes.solid_axis solid axis) failed]
    rfl
  | ok first =>
    cases high : alongAxes Interval.coordAt b.axes (List.replicate b.axes.length (-1)) with
    | error fault =>
      obtain ⟨i, axis, k, listed, failed⟩ := exists_of_alongAxes_eq_error high
      rw [List.eq_of_mem_replicate listed] at failed
      obtain ⟨c, found⟩ := Axes.exists_coordAt_replicate_iff.mp ⟨first, low⟩ i axis
      have finite : i.start.isFinite = true := by
        rw [Interval.start_of_coordAt found]
        rfl
      rw [Interval.fault_of_coordAt_last (Axes.solid_axis solid axis) finite failed]
      rfl
    | ok last =>
      rw [isBounded_of_corners (corners_eq_ok.mpr ⟨low, high⟩)] at unbounded
      cases unbounded

/-- A box that is bounded and not empty has the first and the last of its points as corners, and it is
    the box from one to the other. Cells in order, the last with a coordinate after it on each axis,
    are the corners of the box between them, which has the points that are neither below the first
    nor above the last on any axis. An empty box has no first position, and one with an infinite end
    no corners. -/
theorem corners_between :
    (∀ b : Box, b.isEmpty = false → b.isBounded = true → ∃ first last,
      b.corners = .ok (first, last) ∧
      b.Mem (first.map Coord.val) ∧ b.Mem (last.map Coord.val) ∧
      (∀ p, b.Mem p →
        (first.map Coord.val = p ∨ List.Lex (· < ·) (first.map Coord.val) p) ∧
        (p = last.map Coord.val ∨ List.Lex (· < ·) p (last.map Coord.val))) ∧
      (2 ≤ b.dim → between first last = .ok b)) ∧
    (∀ first last : Cell, 2 ≤ first.length →
      List.Forall₂ (fun c d => c.val ≤ d.val ∧ d.val < 9223372036854775807) first last →
      ∃ b, between first last = .ok b ∧ b.isEmpty = false ∧ b.isBounded = true ∧
        b.corners = .ok (first, last) ∧
        ∀ p, b.Mem p ↔ List.Forall₂ (· ≤ ·) (first.map Coord.val) p ∧
          List.Forall₂ (· ≤ ·) p (last.map Coord.val)) ∧
    (∀ b : Box, b.isEmpty = true → b.corners = .error (.indexOutOfRange 0 0)) ∧
    ∀ b : Box, b.isEmpty = false → b.isBounded = false → b.corners = .error .unbounded := by
  refine ⟨fun b solid bounded => ?_, fun first last many fits => ?_,
    fun b => corners_of_isEmpty, fun b => corners_of_unbounded⟩
  · obtain ⟨first, last, _, run⟩ := exists_corners solid bounded
    obtain ⟨low, high⟩ := mem_of_corners run
    refine ⟨first, last, run, low, high, fun p inside => ?_, fun many => ?_⟩
    · obtain ⟨above, below⟩ := (mem_iff_of_corners run).mp inside
      exact ⟨eq_or_lex_of_forall₂_le above, eq_or_lex_of_forall₂_le below⟩
    · have length : first.length = b.dim := by
        rw [← List.length_map Coord.val, length_of_mem low]
      exact (between_eq_ok_iff (length ▸ many) (ordered_of_corners run)).mpr run
  · have ordered : List.Forall₂ (fun c d => c.val ≤ d.val) first last := fits.imp fun _ _ => And.left
    obtain ⟨b, run⟩ := exists_between many fits
    have corner := (between_eq_ok_iff many ordered).mp run
    exact ⟨b, run, isEmpty_of_mem (mem_of_corners corner).1, isBounded_of_corners corner, corner,
      fun p => mem_iff_of_corners corner⟩

theorem corners_between_band :
    Sample.band.isEmpty = false ∧ Sample.band.isBounded = true ∧
    (∃ first last, Sample.band.corners = .ok (first, last) ∧
      between first last = .ok Sample.band ∧
      ([0, 5] = last.map Coord.val ∨ List.Lex (· < ·) [0, 5] (last.map Coord.val))) ∧
    (∃ b, between [.lowest, Sample.coord 5] [Sample.coord 9223372036854775806, Sample.coord 6] = .ok b ∧
      b.corners =
        .ok ([.lowest, Sample.coord 5], [Sample.coord 9223372036854775806, Sample.coord 6]) ∧
      b.Mem [-9223372036854775808, 6]) ∧
    (Box.empty 2).corners = .error (.indexOutOfRange 0 0) ∧
    Sample.beam.corners = .error .unbounded := by
  have solid : Sample.band.isEmpty = false := by decide +kernel
  have bounded : Sample.band.isBounded = true := by decide +kernel
  have inside : Sample.band.contains [.zero, Sample.coord 5] = true := by decide +kernel
  obtain ⟨outer, inner, void, unbounded⟩ := corners_between
  obtain ⟨first, last, run, _, _, order, back⟩ := outer Sample.band solid bounded
  have ordered := (order _ (contains_iff.mp inside)).2
  obtain ⟨b, built, _, _, corner, points⟩ := inner [.lowest, Sample.coord 5]
    [Sample.coord 9223372036854775806, Sample.coord 6] (by decide)
    (.cons (by decide +kernel) (.cons (by decide +kernel) .nil))
  have low : b.Mem [-9223372036854775808, 6] := by
    apply (points _).mpr
    constructor
    · exact .cons (by decide +kernel) (.cons (by decide +kernel) .nil)
    · exact .cons (by decide +kernel) (.cons (by decide +kernel) .nil)
  exact ⟨solid, bounded, ⟨first, last, run, back (by decide +kernel), ordered⟩,
    ⟨b, built, corner, low⟩, void _ (by decide +kernel),
    unbounded _ (by decide +kernel) (by decide +kernel)⟩

end Box

end GridRegions
