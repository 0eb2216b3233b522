import GridRegions.Proofs.Hulls
import GridRegions.Proofs.Positions

/-!
Runs of positions. Both positions of a selection are places on the axis, counted from its start,
and what it picks are the places between them that the axis has. The selected part holds the
numbers at all of these. Its ends are not held back to those of the axis, so it goes on to where
the places beyond would be, and it is what the selection picks exactly if there are no such
places.
-/
namespace GridRegions

namespace Selection

variable {s : Selection} {size : Nat} {k : Int}

/-- The place of a position on an axis of this size; a negative one counts back from the end. -/
def place (size : Nat) (position : Int) : Int := if position < 0 then size + position else position

def low (s : Selection) (size : Nat) : Int := (s.start.map (place size)).getD 0

def high (s : Selection) (size : Nat) : Int := (s.stop.map (place size)).getD size

/-- The place comes between the two positions, be it on the axis or beyond. -/
def Names (s : Selection) (size : Nat) (k : Int) : Prop := s.low size ≤ k ∧ k < s.high size

/-- The place comes between the two positions, where each is held back to the axis. -/
def Picks (s : Selection) (size : Nat) (k : Int) : Prop :=
  max 0 (min (size : Int) (s.low size)) ≤ k ∧ k < max 0 (min (size : Int) (s.high size))

/-- The axis has all the places between the two positions. -/
def Fits (s : Selection) (size : Nat) : Prop := ∀ k, s.Names size k → 0 ≤ k ∧ k < size

/-- No position is farther from either end than the axis is long. -/
def Reaches (s : Selection) (size : Nat) : Prop :=
  ∀ p, s.start = some p ∨ s.stop = some p → -(size : Int) ≤ p ∧ p ≤ size

theorem picks_iff : s.Picks size k ↔ s.Names size k ∧ 0 ≤ k ∧ k < size := by
  unfold Picks Names
  omega

theorem checkStep_eq_ok : s.checkStep = .ok () ↔ s.step = none ∨ s.step = some 1 := by
  unfold checkStep
  cases s.step with
  | none => simp
  | some step => by_cases unit : step = 1 <;> simp [unit]

theorem place_of_reach {p : Int} (reach : -(size : Int) ≤ p ∧ p ≤ size) :
    0 ≤ place size p ∧ place size p ≤ size := by
  unfold place
  split <;> omega

theorem Reaches.low (reach : s.Reaches size) : 0 ≤ s.low size ∧ s.low size ≤ size := by
  unfold Selection.low
  cases start : s.start with
  | none => simp
  | some p => exact place_of_reach (reach p (.inl start))

theorem Reaches.high (reach : s.Reaches size) : 0 ≤ s.high size ∧ s.high size ≤ size := by
  unfold Selection.high
  cases stop : s.stop with
  | none => simp
  | some p => exact place_of_reach (reach p (.inr stop))

theorem Reaches.fits (reach : s.Reaches size) : s.Fits size := by
  intro k ⟨above, below⟩
  exact ⟨Int.le_trans reach.low.1 above, Int.lt_of_lt_of_le below reach.high.2⟩

end Selection

/- What is selected is what the part has in common with the whole, so the part is no more than that
   only if all of it lies within the whole. -/
theorem exact_iff_within {α : Type} {whole part selected : α → Prop}
    (common : ∀ x, selected x ↔ whole x ∧ part x) :
    (∀ x, part x ↔ selected x) ↔ ∀ x, part x → whole x := by
  constructor
  · intro exact x held
    exact ((common x).mp ((exact x).mp held)).1
  · intro within x
    rw [common x]
    exact ⟨fun held => ⟨within x held, held⟩, And.right⟩

namespace Interval

variable {i part : Interval} {s : Selection} {lo hi : Coord} {x : Int}

/-- The number stands at a place that the selection picks. -/
def Selected (i : Interval) (s : Selection) (x : Int) : Prop :=
  ∃ k c, s.Picks i.size k ∧ i.coordAt k = .ok c ∧ c.val = x

theorem size_of_finite (start : i.start = .finite lo) (stop : i.stop = .finite hi) :
    (i.size : Int) = hi.val - lo.val := by
  have ordered : lo.val ≤ hi.val := by
    have le := start_le_stop i
    rwa [start, stop, Endpoint.le_iff_rank] at le
  rw [size_of_ends start stop]
  omega

theorem mem_iff_place (start : i.start = .finite lo) (stop : i.stop = .finite hi) :
    i.Mem x ↔ 0 ≤ x - lo.val ∧ x - lo.val < i.size := by
  rw [mem_of_ends start stop, size_of_finite start stop]
  omega

theorem selected_iff (start : i.start = .finite lo) (stop : i.stop = .finite hi) :
    i.Selected s x ↔ s.Picks i.size (x - lo.val) := by
  constructor
  · rintro ⟨k, c, picked, run, rfl⟩
    obtain ⟨_, low, _⟩ := Selection.picks_iff.mp picked
    have sum := ((coordAt_eq_ok_iff start stop).mp run).2.2
    rw [if_pos low] at sum
    rwa [sum, add_sub_cancel_left]
  · intro picked
    obtain ⟨_, low, high⟩ := Selection.picks_iff.mp picked
    rw [size_of_finite start stop] at high
    have := lo.lower
    have := hi.upper
    refine ⟨x - lo.val, ⟨x, by omega, by omega⟩, picked, ?_, rfl⟩
    rw [coordAt_eq_ok_iff start stop, if_pos low, size_of_finite start stop]
    exact ⟨by omega, high, (add_sub_cancel lo.val x).symm⟩

theorem endAt_eq_ok (start : i.start = .finite lo) (stop : i.stop = .finite hi)
    {position : Option Int} {absent : Coord} {k : Int} (there : absent.val = lo.val + k)
    {e : Endpoint} : i.endAt position (.finite absent) = .ok e ↔ ∃ c : Coord, e = .finite c ∧
      c.val = lo.val + (position.map (Selection.place i.size)).getD k := by
  have length := size_of_finite start stop
  cases position with
  | none =>
    constructor
    · intro run
      cases run
      exact ⟨absent, rfl, there⟩
    · rintro ⟨c, rfl, sum⟩
      rw [Coord.ext (sum.trans there.symm)]
      rfl
  | some p =>
    simp only [endAt, Option.map_some, Option.getD_some, Selection.place]
    split
    · rw [stop, Endpoint.shift_finite_eq_ok]
      constructor
      · rintro ⟨c, sum, rfl⟩
        exact ⟨c, rfl, by omega⟩
      · rintro ⟨c, rfl, sum⟩
        exact ⟨c, by omega, rfl⟩
    · rw [start, Endpoint.shift_finite_eq_ok]
      constructor
      · rintro ⟨c, sum, rfl⟩
        exact ⟨c, rfl, sum.symm⟩
      · rintro ⟨c, rfl, sum⟩
        exact ⟨c, sum.symm, rfl⟩

theorem select_eq_ok (start : i.start = .finite lo) (stop : i.stop = .finite hi) :
    i.select s = .ok part ↔ s.checkStep = .ok () ∧ ∃ c d : Coord,
      c.val = lo.val + s.low i.size ∧ d.val = lo.val + s.high i.size ∧
      part = span (.finite c) (.finite d) := by
  have first : lo.val = lo.val + 0 := (Int.add_zero _).symm
  have last : hi.val = lo.val + i.size := by
    rw [size_of_finite start stop]
    omega
  unfold select
  constructor
  · intro run
    obtain ⟨_, unit, run⟩ := bind_eq_ok.mp run
    obtain ⟨from', low, run⟩ := bind_eq_ok.mp run
    obtain ⟨to', high, run⟩ := bind_eq_ok.mp run
    rw [start] at low
    rw [stop] at high
    obtain ⟨c, rfl, sumC⟩ := (endAt_eq_ok start stop first).mp low
    obtain ⟨d, rfl, sumD⟩ := (endAt_eq_ok start stop last).mp high
    cases run
    exact ⟨unit, c, d, sumC, sumD, rfl⟩
  · rintro ⟨unit, c, d, sumC, sumD, rfl⟩
    have low : i.endAt s.start i.start = .ok (.finite c) := by
      rw [start]
      exact (endAt_eq_ok start stop first).mpr ⟨c, rfl, sumC⟩
    have high : i.endAt s.stop i.stop = .ok (.finite d) := by
      rw [stop]
      exact (endAt_eq_ok start stop last).mpr ⟨d, rfl, sumD⟩
    rw [unit, low, high]
    rfl

theorem mem_select (start : i.start = .finite lo) (stop : i.stop = .finite hi)
    (run : i.select s = .ok part) : part.Mem x ↔ s.Names i.size (x - lo.val) := by
  obtain ⟨_, c, d, sumC, sumD, rfl⟩ := (select_eq_ok start stop).mp run
  rw [mem_span, Selection.Names]
  simp only [Endpoint.AtMost]
  omega

theorem selected_iff_mem (bounded : i.isBounded = true) (run : i.select s = .ok part) :
    i.Selected s x ↔ i.Mem x ∧ part.Mem x := by
  obtain ⟨lo, hi, start, stop⟩ := ends_of_isBounded bounded
  rw [selected_iff start stop, mem_iff_place start stop, mem_select start stop run,
    Selection.picks_iff, and_comm]

theorem select_within_iff (bounded : i.isBounded = true) (run : i.select s = .ok part) :
    (∀ x, part.Mem x → i.Mem x) ↔ s.Fits i.size := by
  obtain ⟨lo, hi, start, stop⟩ := ends_of_isBounded bounded
  simp only [mem_iff_place start stop, mem_select start stop run]
  constructor
  · intro within k named
    have held := within (k + lo.val)
    rw [Int.add_sub_cancel] at held
    exact held named
  · intro fits x
    exact fits (x - lo.val)

theorem exists_select (bounded : i.isBounded = true) (unit : s.step = none ∨ s.step = some 1)
    (reach : s.Reaches i.size) : ∃ part, i.select s = .ok part := by
  obtain ⟨lo, hi, start, stop⟩ := ends_of_isBounded bounded
  have := size_of_finite start stop
  have := lo.lower
  have := hi.upper
  have := reach.low
  have := reach.high
  exact ⟨_, (select_eq_ok start stop).mpr ⟨Selection.checkStep_eq_ok.mpr unit,
    ⟨lo.val + s.low i.size, by omega, by omega⟩, ⟨lo.val + s.high i.size, by omega, by omega⟩,
    rfl, rfl, rfl⟩⟩

end Interval

namespace Axes

variable {is parts : List Interval} {ss : List Selection}

/-- Each coordinate stands at a place that the selection for its axis picks. -/
def Selected : List Interval → List Selection → List Int → Prop
  | [], [], [] => True
  | i :: is, s :: ss, x :: xs => i.Selected s x ∧ Selected is ss xs
  | _, _, _ => False

theorem selected_iff_mem (bounded : is.all Interval.isBounded = true) (same : is.length = ss.length)
    (run : alongAxes Interval.select is ss = .ok parts) {p : List Int} :
    Selected is ss p ↔ Mem is p ∧ Mem parts p := by
  induction is generalizing ss parts p with
  | nil =>
    rw [List.length_eq_zero_iff.mp same.symm] at run ⊢
    cases run
    cases p <;> simp [Selected, Mem]
  | cons i is ih =>
    cases ss with
    | nil => simp at same
    | cons s ss =>
      obtain ⟨part, rest, here, later, rfl⟩ := alongAxes_cons_eq_ok.mp run
      rw [List.all_cons, Bool.and_eq_true] at bounded
      cases p with
      | nil => simp [Selected, Mem]
      | cons x xs =>
        rw [Selected, Interval.selected_iff_mem bounded.1 here, ih bounded.2 (Nat.succ.inj same) later,
          Mem, Mem, and_and_and_comm]

theorem select_within_iff (bounded : is.all Interval.isBounded = true) (same : is.length = ss.length)
    (run : alongAxes Interval.select is ss = .ok parts) :
    List.Forall₂ (fun part i => ∀ x, part.Mem x → i.Mem x) parts is ↔
      ∀ a ∈ is.zip ss, a.2.Fits a.1.size := by
  induction is generalizing ss parts with
  | nil =>
    cases run
    simp
  | cons i is ih =>
    cases ss with
    | nil => simp at same
    | cons s ss =>
      obtain ⟨part, rest, here, later, rfl⟩ := alongAxes_cons_eq_ok.mp run
      rw [List.all_cons, Bool.and_eq_true] at bounded
      rw [List.forall₂_cons, List.zip_cons_cons, List.forall_mem_cons,
        Interval.select_within_iff bounded.1 here, ih bounded.2 (Nat.succ.inj same) later]

end Axes

namespace Box

variable {b part : Box} {ss : List Selection}

def Selected (b : Box) (ss : List Selection) (p : List Int) : Prop := Axes.Selected b.axes ss p

theorem select_eq_ok : b.select ss = .ok part ↔ b.dim = ss.length ∧
    ∃ parts, alongAxes Interval.select b.axes ss = .ok parts ∧ part = ofAxes parts := by
  rw [select, bind_eq_ok]
  simp only [checkDim_eq_ok, exists_const]
  apply and_congr_right
  intro _
  constructor
  · intro run
    obtain ⟨parts, along, run⟩ := bind_eq_ok.mp run
    cases run
    exact ⟨parts, along, rfl⟩
  · rintro ⟨parts, along, rfl⟩
    exact bind_eq_ok.mpr ⟨parts, along, rfl⟩

theorem selected_iff_mem (bounded : b.isBounded = true) (run : b.select ss = .ok part)
    (p : List Int) : b.Selected ss p ↔ b.Mem p ∧ part.Mem p := by
  obtain ⟨same, parts, along, rfl⟩ := select_eq_ok.mp run
  rw [mem_ofAxes]
  exact Axes.selected_iff_mem bounded same along

theorem select_within_iff (bounded : b.isBounded = true) (run : b.select ss = .ok part) :
    (∀ p, part.Mem p → b.Mem p) ↔
      part.isEmpty = true ∨ ∀ a ∈ b.axes.zip ss, a.2.Fits a.1.size := by
  obtain ⟨same, parts, along, rfl⟩ := select_eq_ok.mp run
  have length := length_of_alongAxes same along
  rw [← Axes.select_within_iff bounded same along, isEmpty_ofAxes]
  simp only [mem_ofAxes]
  cases void : parts.any Interval.isEmpty with
  | true =>
    have none := Axes.not_mem_of_empty void
    exact iff_of_true (fun p inside => (none p inside).elim) (.inl rfl)
  | false =>
    rw [← Axes.within_iff length void]
    simp only [Bool.false_eq_true, false_or]
    rfl

theorem exists_select (bounded : b.isBounded = true) (same : b.dim = ss.length)
    (given : ∀ a ∈ b.axes.zip ss, (a.2.step = none ∨ a.2.step = some 1) ∧ a.2.Reaches a.1.size) :
    ∃ part, b.select ss = .ok part := by
  have each : List.Forall₂ (fun i s => ∃ part, Interval.select i s = .ok part) b.axes ss := by
    apply List.forall₂_iff_zip.mpr
    refine ⟨same, fun pair => ?_⟩
    obtain ⟨unit, reach⟩ := given _ pair
    exact Interval.exists_select (List.all_eq_true.mp bounded _ (List.of_mem_zip pair).1) unit reach
  obtain ⟨parts, along⟩ := (exists_alongAxes_iff (fun _ _ _ => Iff.rfl) same).mpr each
  exact ⟨_, select_eq_ok.mpr ⟨same, parts, along, rfl⟩⟩

end Box

/-- The part selected from a bounded interval holds those of its numbers that stand at the places the
    selection picks, and it holds nothing else exactly if the interval has every place between the
    two positions. That is so, and there is a part, whenever neither position is farther from either
    end than the interval is long. A bounded box is selected from in the same way on every axis. -/
theorem select_exact {i : Interval} {b : Box} (bounded : i.isBounded = true)
    (bounded' : b.isBounded = true) (s : Selection) (ss : List Selection) :
    (∀ part, i.select s = .ok part →
      (∀ x, i.Selected s x ↔ i.Mem x ∧ part.Mem x) ∧
      ((∀ x, part.Mem x ↔ i.Selected s x) ↔ s.Fits i.size)) ∧
    ((s.step = none ∨ s.step = some 1) → s.Reaches i.size →
      ∃ part, i.select s = .ok part ∧ ∀ x, part.Mem x ↔ i.Selected s x) ∧
    (∀ part, b.select ss = .ok part →
      (∀ p, b.Selected ss p ↔ b.Mem p ∧ part.Mem p) ∧
      ((∀ p, part.Mem p ↔ b.Selected ss p) ↔
        part.isEmpty = true ∨ ∀ a ∈ b.axes.zip ss, a.2.Fits a.1.size)) ∧
    (b.dim = ss.length →
      (∀ a ∈ b.axes.zip ss, (a.2.step = none ∨ a.2.step = some 1) ∧ a.2.Reaches a.1.size) →
      ∃ part, b.select ss = .ok part ∧ ∀ p, part.Mem p ↔ b.Selected ss p) := by
  have exact_iff : ∀ part, i.select s = .ok part →
      ((∀ x, part.Mem x ↔ i.Selected s x) ↔ s.Fits i.size) := by
    intro part run
    rw [exact_iff_within fun x => Interval.selected_iff_mem bounded run,
      Interval.select_within_iff bounded run]
  have exact_iff' : ∀ part, b.select ss = .ok part → ((∀ p, part.Mem p ↔ b.Selected ss p) ↔
      part.isEmpty = true ∨ ∀ a ∈ b.axes.zip ss, a.2.Fits a.1.size) := by
    intro part run
    rw [exact_iff_within (Box.selected_iff_mem bounded' run), Box.select_within_iff bounded' run]
  refine ⟨fun part run => ?_, fun unit reach => ?_, fun part run => ?_, fun same given => ?_⟩
  · exact ⟨fun x => Interval.selected_iff_mem bounded run, exact_iff part run⟩
  · obtain ⟨part, run⟩ := Interval.exists_select bounded unit reach
    exact ⟨part, run, (exact_iff part run).mpr reach.fits⟩
  · exact ⟨Box.selected_iff_mem bounded' run, exact_iff' part run⟩
  · obtain ⟨part, run⟩ := Box.exists_select bounded' same given
    exact ⟨part, run, (exact_iff' part run).mpr (.inr fun a pair => (given a pair).2.fits)⟩

namespace Sample

def cuts : List Selection := [.between (-3) (-1), .startingAt 1]

end Sample

theorem select_exact_tail :
    (Sample.side 3 5).isBounded = true ∧ (Sample.tile 3 0 5 2).isBounded = true ∧
    (Selection.between (-3) (-1)).Reaches (Sample.side 3 5).size ∧
    (∃ part, (Sample.side 3 5).select (.between (-3) (-1)) = .ok part ∧
      ∀ x, part.Mem x ↔ (Sample.side 3 5).Selected (.between (-3) (-1)) x) ∧
    ∃ part, (Sample.tile 3 0 5 2).select Sample.cuts = .ok part ∧
      (Sample.tile 3 0 5 2).Selected Sample.cuts [6, 1] ∧
      ∀ p, part.Mem p ↔ (Sample.tile 3 0 5 2).Selected Sample.cuts p := by
  have bounded : (Sample.side 3 5).isBounded = true := by decide +kernel
  have bounded' : (Sample.tile 3 0 5 2).isBounded = true := by decide +kernel
  have reach : (Selection.between (-3) (-1)).Reaches (Sample.side 3 5).size := by
    rintro p (start | stop)
    · cases start
      decide +kernel
    · cases stop
      decide +kernel
  have reach' : (Selection.startingAt 1).Reaches (Sample.side 0 2).size := by
    rintro p (start | stop)
    · cases start
      decide +kernel
    · cases stop
  have axes : (Sample.tile 3 0 5 2).axes = [Sample.side 3 5, Sample.side 0 2] := by decide +kernel
  have held : ((Sample.tile 3 0 5 2).select Sample.cuts).map
      (·.contains [Sample.coord 6, Sample.coord 1]) = .ok true := by decide +kernel
  obtain ⟨_, picked, _, picked'⟩ :=
    select_exact bounded bounded' (.between (-3) (-1)) Sample.cuts
  have given : ∀ a ∈ (Sample.tile 3 0 5 2).axes.zip Sample.cuts,
      (a.2.step = none ∨ a.2.step = some 1) ∧ a.2.Reaches a.1.size := by
    rw [axes, Sample.cuts]
    simp only [List.zip_cons_cons, List.zip_nil_left, List.forall_mem_cons]
    exact ⟨⟨.inl rfl, reach⟩, ⟨.inl rfl, reach'⟩, List.forall_mem_nil _⟩
  obtain ⟨part, run, points⟩ := picked' (by decide +kernel) given
  rw [run] at held
  exact ⟨bounded, bounded', reach, picked (.inl rfl) reach, part, run,
    (points _).mp (Box.contains_iff.mp (Except.ok.inj held)), points⟩

/- Positions beyond the end are not held back: of ten numbers, the part from the sixth on has more than
   five. -/
theorem select_exact_beyond :
    (Sample.side 0 10).isBounded = true ∧ (Sample.tile 0 0 10 2).isBounded = true ∧
    (∃ part, (Sample.side 0 10).select (.between 5 20) = .ok part ∧ part.Mem 12 ∧
      ¬ (Sample.side 0 10).Selected (.between 5 20) 12 ∧ ¬ (Sample.side 0 10).Mem 12) ∧
    ∃ part, (Sample.tile 0 0 10 2).select [.between 5 20, .all] = .ok part ∧ part.Mem [12, 1] ∧
      ¬ (Sample.tile 0 0 10 2).Selected [.between 5 20, .all] [12, 1] ∧
      ¬ (Sample.tile 0 0 10 2).Mem [12, 1] := by
  have bounded : (Sample.side 0 10).isBounded = true := by decide +kernel
  have bounded' : (Sample.tile 0 0 10 2).isBounded = true := by decide +kernel
  have held : ((Sample.side 0 10).select (.between 5 20)).map
      (·.contains (.finite (Sample.coord 12))) = .ok true := by decide +kernel
  have held' : ((Sample.tile 0 0 10 2).select [.between 5 20, .all]).map
      (·.contains [Sample.coord 12, Sample.coord 1]) = .ok true := by decide +kernel
  have outside : (Sample.side 0 10).contains (.finite (Sample.coord 12)) = false := by decide +kernel
  have outside' : (Sample.tile 0 0 10 2).contains [Sample.coord 12, Sample.coord 1] = false := by
    decide +kernel
  have away : ¬ (Sample.side 0 10).Mem 12 := fun inside =>
    absurd (Interval.contains_finite_iff.mpr inside) (Bool.eq_false_iff.mp outside)
  have away' : ¬ (Sample.tile 0 0 10 2).Mem [12, 1] := fun inside =>
    absurd (Box.contains_iff.mpr inside) (Bool.eq_false_iff.mp outside')
  obtain ⟨part, run, there⟩ := map_eq_ok.mp held
  obtain ⟨part', run', there'⟩ := map_eq_ok.mp held'
  exact ⟨bounded, bounded',
    ⟨part, run, Interval.contains_finite_iff.mp there,
      fun selected => away ((Interval.selected_iff_mem bounded run).mp selected).1, away⟩,
    part', run', Box.contains_iff.mp there',
    fun selected => away' ((Box.selected_iff_mem bounded' run' _).mp selected).1, away'⟩

end GridRegions
