import GridRegions.Proofs.Motion
import GridRegions.Box.Selection

/-!
Bounded boxes. Common parts with a bounded box and shifts of it are bounded, a shift keeps the
shape, and a bounded box that is not empty has both its corners.
-/
namespace GridRegions

namespace Endpoint

theorem eq_finite_of_isFinite {e : Endpoint} (finite : e.isFinite = true) : ∃ c, e = .finite c := by
  cases e with
  | negInf => cases finite
  | finite c => exact ⟨c, rfl⟩
  | posInf => cases finite

theorem isFinite_of_between {a e b : Endpoint} (low : a.isFinite = true) (high : b.isFinite = true)
    (above : a ≤ e) (below : e ≤ b) : e.isFinite = true := by
  obtain ⟨c, rfl⟩ := eq_finite_of_isFinite low
  obtain ⟨d, rfl⟩ := eq_finite_of_isFinite high
  rw [le_iff_rank] at above below
  cases e with
  | negInf =>
    have := c.lower
    simp only [rank] at above
    omega
  | finite x => rfl
  | posInf =>
    have := d.upper
    simp only [rank] at below
    omega

theorem le_max_right (a b : Endpoint) : b ≤ max a b := by
  by_cases le : a ≤ b
  · rw [max_eq_of_le le]
    exact Int.le_refl _
  · rw [max_eq_of_lt (not_le.mp le)]
    exact le_of_lt (not_le.mp le)

theorem min_le_right (a b : Endpoint) : min a b ≤ b := by
  by_cases le : a ≤ b
  · rw [min_eq_of_le le]
    exact le
  · rw [min_eq_of_lt (not_le.mp le)]
    exact Int.le_refl _

theorem gap_finite (l u : Coord) : gap (.finite l) (.finite u) = (u.val - l.val).toNat := by
  unfold gap
  split
  · rename_i reversed
    rw [le_iff_rank] at reversed
    simp only [rank] at reversed
    omega
  · rfl

theorem gap_of_unbounded {lower upper : Endpoint} (ordered : lower < upper)
    (unbounded : (lower.isFinite && upper.isFinite) = false) : gap lower upper = Count.cap := by
  unfold gap
  rw [if_neg (not_le.mpr ordered)]
  split
  · cases unbounded
  · rfl

end Endpoint

namespace Interval

theorem ends_of_isBounded {i : Interval} (bounded : i.isBounded = true) :
    ∃ l u, i.start = .finite l ∧ i.stop = .finite u := by
  have both := Bool.and_eq_true_iff.mp bounded
  obtain ⟨l, start⟩ := Endpoint.eq_finite_of_isFinite both.1
  obtain ⟨u, stop⟩ := Endpoint.eq_finite_of_isFinite both.2
  exact ⟨l, u, start, stop⟩

theorem start_le_stop (i : Interval) : i.start ≤ i.stop := by
  rcases i.proper with ordered | ⟨starts, stops⟩
  · exact Endpoint.le_of_lt ordered
  · rw [starts, stops]
    exact Int.le_refl _

theorem isBounded_inter {a b : Interval} (bounded : b.isBounded = true) :
    (a.inter b).isBounded = true := by
  obtain ⟨low, high⟩ := Bool.and_eq_true_iff.mp bounded
  have above := Endpoint.le_max_right a.start b.start
  have below := Endpoint.min_le_right a.stop b.stop
  unfold inter
  by_cases ordered : max a.start b.start < min a.stop b.stop
  · rw [span_of_lt ordered]
    have le := Endpoint.le_of_lt ordered
    apply Bool.and_eq_true_iff.mpr
    constructor
    · exact Endpoint.isFinite_of_between low high above (Int.le_trans le below)
    · exact Endpoint.isFinite_of_between low high (Int.le_trans above le) below
  · rw [span_of_not_lt ordered]
    rfl

theorem isBounded_shift {i moved : Interval} {delta : Int} (run : i.shift delta = .ok moved) :
    moved.isBounded = i.isBounded := by
  obtain ⟨start, stop⟩ := ends_shift run
  rw [isBounded, isBounded, Endpoint.isFinite_shift start, Endpoint.isFinite_shift stop]

theorem isBounded_span {start stop : Endpoint} (low : start.isFinite = true)
    (high : stop.isFinite = true) : (span start stop).isBounded = true := by
  by_cases ordered : start < stop
  · rw [span_of_lt ordered]
    exact Bool.and_eq_true_iff.mpr ⟨low, high⟩
  · rw [span_of_not_lt ordered]
    rfl

theorem isBounded_grow {i grown : Interval} {m : Margin} (run : i.grow m = .ok grown)
    (bounded : i.isBounded = true) : grown.isBounded = true := by
  obtain ⟨low, high⟩ := Bool.and_eq_true_iff.mp bounded
  obtain ⟨_, _, start, stop, _, first, last, rfl⟩ := growFor_eq_ok.mp run
  exact isBounded_span ((Endpoint.isFinite_shift first).trans low)
    ((Endpoint.isFinite_shift last).trans high)

theorem size_shift {i moved : Interval} {delta : Int} (run : i.shift delta = .ok moved) :
    moved.size = i.size := by
  obtain ⟨start, stop⟩ := ends_shift run
  cases bounded : i.isBounded with
  | true =>
    obtain ⟨l, u, startI, stopI⟩ := ends_of_isBounded bounded
    rw [startI] at start
    rw [stopI] at stop
    obtain ⟨m, low, startM⟩ := Endpoint.shift_finite_eq_ok.mp start
    obtain ⟨v, high, stopM⟩ := Endpoint.shift_finite_eq_ok.mp stop
    rw [size, size, startI, stopI, startM, stopM, Endpoint.gap_finite, Endpoint.gap_finite]
    omega
  | false =>
    have ordered := (isEmpty_eq_false_iff i).mp (shift_eq_ok run).1
    have ordered' := (isEmpty_eq_false_iff moved).mp (isEmpty_shift run)
    rw [size, size, Endpoint.gap_of_unbounded ordered bounded,
      Endpoint.gap_of_unbounded ordered' ((isBounded_shift run).trans bounded)]

theorem coordAt_eq_ok {i : Interval} {index : Int} {c : Coord} : i.coordAt index = .ok c ↔
    ∃ base, (if 0 ≤ index then i.start else i.stop) = .finite base ∧ base.val + index = c.val ∧
      i.Mem c.val := by
  unfold coordAt
  constructor
  · intro run
    obtain ⟨base, side, run⟩ := bind_eq_ok.mp run
    obtain ⟨x, fits, run⟩ := bind_eq_ok.mp run
    have sum : base.val + index = x.val := Coord.ofInt?_eq_some_iff.mp (orOverflow_eq_ok.mp fits)
    split at run
    · rename_i held
      cases run
      exact ⟨base, Endpoint.value_eq_ok.mp side, sum, contains_finite_iff.mp held⟩
    · cases run
  · intro ⟨base, side, sum, inside⟩
    have fits : Fault.orOverflow (base.shift? index) = .ok c :=
      orOverflow_eq_ok.mpr (Coord.ofInt?_eq_some_iff.mpr sum)
    refine bind_eq_ok.mpr ⟨base, Endpoint.value_eq_ok.mpr side, bind_eq_ok.mpr ⟨c, fits, ?_⟩⟩
    exact if_pos (contains_finite_iff.mpr inside)

theorem start_of_coordAt {i : Interval} {c : Coord} (run : i.coordAt 0 = .ok c) : i.start = .finite c := by
  obtain ⟨base, start, sum, _⟩ := coordAt_eq_ok.mp run
  rw [Int.add_zero] at sum
  exact start.trans (congrArg Endpoint.finite (Coord.ext sum))

theorem mem_of_ends {i : Interval} {l u : Coord} (start : i.start = .finite l)
    (stop : i.stop = .finite u) {x : Int} : i.Mem x ↔ l.val ≤ x ∧ x < u.val := by
  rw [Mem, start, stop]
  exact and_congr_right fun _ => Int.not_le

theorem exists_coordAt {i : Interval} (solid : i.isEmpty = false) (bounded : i.isBounded = true) :
    ∃ first last, i.coordAt 0 = .ok first ∧ i.coordAt (-1) = .ok last := by
  obtain ⟨l, u, start, stop⟩ := ends_of_isBounded bounded
  have ordered := (isEmpty_eq_false_iff i).mp solid
  rw [start, stop, Endpoint.lt_iff_rank] at ordered
  simp only [Endpoint.rank] at ordered
  have low := l.lower
  have high := u.upper
  refine ⟨l, ⟨u.val - 1, by omega, by omega⟩, ?_, ?_⟩
  · have inside : i.Mem l.val := (mem_of_ends start stop).mpr ⟨Int.le_refl _, ordered⟩
    exact coordAt_eq_ok.mpr ⟨l, start, Int.add_zero _, inside⟩
  · have inside : i.Mem (u.val - 1) := (mem_of_ends start stop).mpr (by omega)
    exact coordAt_eq_ok.mpr ⟨u, stop, rfl, inside⟩

end Interval

namespace Axes

theorem all_isBounded_inter {as bs : List Interval} (bounded : bs.all Interval.isBounded = true) :
    (List.zipWith Interval.inter as bs).all Interval.isBounded = true := by
  induction as generalizing bs with
  | nil => rfl
  | cons a as ih =>
    cases bs with
    | nil => rfl
    | cons b bs =>
      rw [List.all_cons, Bool.and_eq_true] at bounded
      rw [List.zipWith_cons_cons, List.all_cons, Interval.isBounded_inter bounded.1, ih bounded.2]
      rfl

theorem all_isBounded_along {α : Type} {f : Interval → α → Except Fault Interval}
    (keeps : ∀ i a j, f i a = .ok j → i.isBounded = true → j.isBounded = true)
    {is moved : List Interval} {amounts : List α} (run : alongAxes f is amounts = .ok moved)
    (bounded : is.all Interval.isBounded = true) : moved.all Interval.isBounded = true := by
  induction is generalizing amounts moved with
  | nil =>
    cases run
    rfl
  | cons i is ih =>
    cases amounts with
    | nil =>
      cases run
      rfl
    | cons a amounts =>
      obtain ⟨j, rest, first, later, rfl⟩ := alongAxes_cons_eq_ok.mp run
      rw [List.all_cons, Bool.and_eq_true] at bounded
      rw [List.all_cons, keeps i a j first bounded.1, ih later bounded.2]
      rfl

theorem map_size_shift {is moved : List Interval} {deltas : List Int}
    (same : is.length = deltas.length) (run : alongAxes Interval.shift is deltas = .ok moved) :
    moved.map Interval.size = is.map Interval.size := by
  induction is generalizing deltas moved with
  | nil =>
    cases run
    rfl
  | cons i is ih =>
    cases deltas with
    | nil => simp at same
    | cons d deltas =>
      obtain ⟨j, rest, first, later, rfl⟩ := alongAxes_cons_eq_ok.mp run
      rw [List.map_cons, List.map_cons, Interval.size_shift first, ih (Nat.succ.inj same) later]

theorem exists_coordAt_replicate_iff {is : List Interval} {index : Int} :
    (∃ cs, alongAxes Interval.coordAt is (List.replicate is.length index) = .ok cs) ↔
      ∀ i ∈ is, ∃ c, i.coordAt index = .ok c := by
  rw [exists_alongAxes_iff (fun _ _ _ => Iff.rfl) List.length_replicate.symm]
  exact forall₂_replicate_iff

end Axes

namespace Box

theorem isBounded_ofAxes {axes : List Interval} (bounded : axes.all Interval.isBounded = true) :
    (ofAxes axes).isBounded = true := by
  cases void : axes.any Interval.isEmpty with
  | false =>
    rw [isBounded, ofAxes_of_nonempty void]
    exact bounded
  | true =>
    rw [isBounded, ofAxes_of_empty void, List.all_map]
    exact List.all_eq_true.mpr fun _ _ => rfl

theorem isBounded_inter {a b : Box} (bounded : b.isBounded = true) : (a.inter b).isBounded = true :=
  isBounded_ofAxes (Axes.all_isBounded_inter bounded)

theorem isBounded_grow {b grown : Box} {ms : List Margin} (run : b.grow ms = .ok grown)
    (bounded : b.isBounded = true) : grown.isBounded = true := by
  obtain ⟨_, _, axes, along, rfl⟩ := move_eq_ok run
  exact isBounded_ofAxes
    (Axes.all_isBounded_along (fun _ _ _ first => Interval.isBounded_grow first) along bounded)

theorem isBounded_shift {b moved : Box} {deltas : List Int} (run : b.shift deltas = .ok moved)
    (bounded : b.isBounded = true) : moved.isBounded = true :=
  Axes.all_isBounded_along (fun _ _ _ first => (Interval.isBounded_shift first).trans)
    (axes_shift run) bounded

theorem shape_shift {b moved : Box} {deltas : List Int} (run : b.shift deltas = .ok moved) :
    moved.shape = b.shape :=
  Axes.map_size_shift (move_eq_ok run).2.1 (axes_shift run)

theorem cellAt_replicate (b : Box) (index : Int) : b.cellAt (List.replicate b.dim index) =
    alongAxes Interval.coordAt b.axes (List.replicate b.axes.length index) := by
  rw [cellAt, List.length_replicate, (checkDim_eq_ok (u := ())).mpr rfl]
  rfl

theorem corners_eq_ok {b : Box} {first last : Cell} : b.corners = .ok (first, last) ↔
    alongAxes Interval.coordAt b.axes (List.replicate b.axes.length 0) = .ok first ∧
      alongAxes Interval.coordAt b.axes (List.replicate b.axes.length (-1)) = .ok last := by
  rw [corners, bind_eq_ok, Box.first, Box.last, cellAt_replicate, cellAt_replicate]
  constructor
  · intro ⟨_, low, run⟩
    obtain ⟨_, high, run⟩ := bind_eq_ok.mp run
    cases run
    exact ⟨low, high⟩
  · intro ⟨low, high⟩
    exact ⟨first, low, bind_eq_ok.mpr ⟨last, high, rfl⟩⟩

theorem length_of_first {b : Box} {c : Cell} (run : b.first = .ok c) : c.length = b.dim := by
  rw [Box.first, cellAt_replicate] at run
  exact length_of_alongAxes List.length_replicate.symm run

theorem exists_corners {b : Box} (solid : b.isEmpty = false) (bounded : b.isBounded = true) :
    ∃ first last, b.first = .ok first ∧ b.corners = .ok (first, last) := by
  have each : ∀ i ∈ b.axes, ∃ first last, i.coordAt 0 = .ok first ∧ i.coordAt (-1) = .ok last := by
    intro i axis
    exact Interval.exists_coordAt (Axes.solid_axis solid axis) (List.all_eq_true.mp bounded i axis)
  obtain ⟨first, low⟩ := Axes.exists_coordAt_replicate_iff.mpr fun i axis =>
    let ⟨c, _, found, _⟩ := each i axis
    ⟨c, found⟩
  obtain ⟨last, high⟩ := Axes.exists_coordAt_replicate_iff.mpr fun i axis =>
    let ⟨_, c, _, found⟩ := each i axis
    ⟨c, found⟩
  exact ⟨first, last, (cellAt_replicate b 0).trans low, corners_eq_ok.mpr ⟨low, high⟩⟩

end Box

end GridRegions
