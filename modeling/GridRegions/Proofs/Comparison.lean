import GridRegions.Proofs.Corners
import GridRegions.Region.Points

/-!
Comparison is exact: a region lies within another when all of its points do, and two regions are
equal when they have the same points, however these are cut into parts. Intervals and boxes are
canonical, so among themselves they have the same points only if they have the same ends.
-/
namespace GridRegions

namespace Endpoint

theorem le_antisymm {a b : Endpoint} (first : a ≤ b) (second : b ≤ a) : a = b :=
  rank_inj (Int.le_antisymm first second)

theorem max_lt {a b c : Endpoint} (first : a < c) (second : b < c) : max a b < c := by
  by_cases le : a ≤ b
  · rwa [max_eq_of_le le]
  · rwa [max_eq_of_lt (not_le.mp le)]

theorem lt_min {a b c : Endpoint} (first : a < b) (second : a < c) : a < min b c := by
  by_cases le : b ≤ c
  · rwa [min_eq_of_le le]
  · rwa [min_eq_of_lt (not_le.mp le)]

end Endpoint

namespace Interval

/- Were an end of `i` outside `j`, there would be a number of `i` between that end and `j`. -/
theorem forall_mem_iff_ends {i j : Interval} (solid : i.isEmpty = false) :
    (∀ x, i.Mem x → j.Mem x) ↔ j.start ≤ i.start ∧ i.stop ≤ j.stop := by
  have ordered := (isEmpty_eq_false_iff i).mp solid
  constructor
  · intro within
    constructor
    · apply Endpoint.not_lt.mp
      intro early
      obtain ⟨x, reached, short⟩ := Endpoint.exists_between (Endpoint.lt_min early ordered)
      rw [Endpoint.atMost_min, not_or] at short
      exact short.1 (within x ⟨reached, short.2⟩).1
    · apply Endpoint.not_lt.mp
      intro late
      obtain ⟨x, reached, short⟩ := Endpoint.exists_between (Endpoint.max_lt ordered late)
      rw [Endpoint.atMost_max] at reached
      exact (within x ⟨reached.1, short⟩).2 reached.2
  · intro ⟨starts, stops⟩ x inside
    exact ⟨inside.1.of_le starts, fun past => inside.2 (past.of_le stops)⟩

theorem mem_of_inter_eq {a g : Interval} (inside : a.inter g = a) {x : Int} (member : a.Mem x) :
    g.Mem x := by
  rw [← inside] at member
  exact (mem_inter.mp member).2

theorem eq_of_mem_iff {i j : Interval} (same : ∀ x, i.Mem x ↔ j.Mem x) : i = j := by
  have voids : i.isEmpty = j.isEmpty := by
    rw [Bool.eq_iff_iff, isEmpty_iff_forall_not_mem, isEmpty_iff_forall_not_mem]
    simp only [same]
  cases void : i.isEmpty with
  | true => rw [(isEmpty_eq_true_iff i).mp void, (isEmpty_eq_true_iff j).mp (voids ▸ void)]
  | false =>
    obtain ⟨startsI, stopsI⟩ := (forall_mem_iff_ends void).mp fun x => (same x).mp
    obtain ⟨startsJ, stopsJ⟩ := (forall_mem_iff_ends (voids ▸ void)).mp fun x => (same x).mpr
    exact Interval.ext (Endpoint.le_antisymm startsJ startsI) (Endpoint.le_antisymm stopsI stopsJ)

end Interval

namespace Axes

theorem eq_of_mem_iff {as bs : List Interval} (lengths : as.length = bs.length)
    (solid : as.any Interval.isEmpty = false) (same : ∀ p, Mem as p ↔ Mem bs p) : as = bs := by
  induction as generalizing bs with
  | nil => exact (List.length_eq_zero_iff.mp lengths.symm).symm
  | cons a as ih =>
    cases bs with
    | nil => simp at lengths
    | cons b bs =>
      rw [List.any_cons, Bool.or_eq_false_iff] at solid
      obtain ⟨x, here⟩ := Interval.exists_mem solid.1
      obtain ⟨xs, later⟩ := exists_mem solid.2
      obtain ⟨here', later'⟩ := (same (x :: xs)).mp ⟨here, later⟩
      have heads : a = b := Interval.eq_of_mem_iff fun y =>
        ⟨fun inside => ((same (y :: xs)).mp ⟨inside, later⟩).1,
          fun inside => ((same (y :: xs)).mpr ⟨inside, later'⟩).1⟩
      have tails : as = bs := ih (Nat.succ.inj lengths) solid.2 fun ys =>
        ⟨fun inside => ((same (x :: ys)).mp ⟨here, inside⟩).2,
          fun inside => ((same (x :: ys)).mpr ⟨here', inside⟩).2⟩
      rw [heads, tails]

end Axes

namespace Box

theorem axes_of_isEmpty {b : Box} (void : b.isEmpty = true) :
    b.axes = List.replicate b.dim .empty := by
  apply List.eq_replicate_of_mem
  intro i axis
  rcases b.canonical with solid | empty
  · obtain ⟨j, other, none⟩ := List.any_eq_true.mp void
    rw [solid j other] at none
    cases none
  · exact empty i axis

theorem eq_of_mem_iff {a b : Box} (dims : a.dim = b.dim) (same : ∀ p, a.Mem p ↔ b.Mem p) :
    a = b := by
  have voids : a.isEmpty = b.isEmpty := by
    rw [Bool.eq_iff_iff, isEmpty_iff_forall_not_mem, isEmpty_iff_forall_not_mem]
    simp only [same]
  apply Box.ext
  cases void : a.isEmpty with
  | true => rw [axes_of_isEmpty void, axes_of_isEmpty (voids ▸ void), dims]
  | false => exact Axes.eq_of_mem_iff dims void same

/-- Clipping to `b` leaves `a` as it is exactly when `a` lies within `b`. -/
theorem inter_eq_left_iff {a b : Box} (dims : a.dim = b.dim) :
    a.inter b = a ↔ ∀ p, a.Mem p → b.Mem p := by
  constructor
  · intro clipped p inside
    rw [← clipped] at inside
    exact ((mem_inter dims).mp inside).2
  · intro within
    apply eq_of_mem_iff (dim_inter dims)
    intro p
    rw [mem_inter dims]
    exact and_iff_left_of_imp (within p)

theorem line_inj {i j : Interval} : line i = line j ↔ i = j := by
  constructor
  · intro same
    apply Interval.eq_of_mem_iff
    intro x
    rw [← mem_line_singleton, same, mem_line_singleton]
  · exact congrArg line

end Box

namespace Region

theorem isSubset_eq (r s : Region) : r.isSubset s =
    if r.dim = s.dim then .ok (r.isWithin s) else .error (.dimensionMismatch r.dim s.dim) := by
  unfold isSubset Fault.checkDim
  split <;> rfl

theorem samePoints_iff {r s : Region} :
    r.samePoints s = true ↔ r.dim = s.dim ∧ ∀ p, r.Mem p ↔ s.Mem p := by
  rw [samePoints, Bool.and_eq_true, Bool.and_eq_true, beq_iff_eq, and_assoc]
  apply and_congr_right
  intro same
  rw [isWithin_iff same, isWithin_iff same.symm]
  constructor
  · intro ⟨within, back⟩ p
    exact ⟨within p, back p⟩
  · intro points
    exact ⟨fun p => (points p).mp, fun p => (points p).mpr⟩

theorem samePoints_ofBox_iff {a b : Box} : (ofBox a).samePoints (ofBox b) = true ↔ a = b := by
  simp only [samePoints_iff, dim_ofBox, mem_ofBox]
  constructor
  · intro ⟨dims, points⟩
    exact Box.eq_of_mem_iff dims points
  · rintro rfl
    exact ⟨rfl, fun p => Iff.rfl⟩

/-- Inclusion and equality are decided by the points alone, for regions of any shape with any
    promise; intervals and boxes are equal in this sense only if they are the same. -/
theorem comparison_exact (r s : Region) :
    (r.dim = s.dim →
      ∃ within, r.isSubset s = .ok within ∧ (within = true ↔ ∀ p, r.Mem p → s.Mem p)) ∧
    (r.dim ≠ s.dim → r.isSubset s = .error (.dimensionMismatch r.dim s.dim)) ∧
    (r.samePoints s = true ↔ r.dim = s.dim ∧ ∀ p, r.Mem p ↔ s.Mem p) ∧
    (∀ i j : Interval, (ofInterval i).samePoints (ofInterval j) = true ↔ i = j) ∧
    ∀ a b : Box, (ofBox a).samePoints (ofBox b) = true ↔ a = b := by
  refine ⟨fun same => ⟨r.isWithin s, ?_, isWithin_iff same⟩, fun differ => ?_, samePoints_iff,
    fun i j => samePoints_ofBox_iff.trans Box.line_inj, fun a b => samePoints_ofBox_iff⟩
  · rw [isSubset_eq, if_pos same]
  · rw [isSubset_eq, if_neg differ]

end Region

namespace Sample

def lapped : Region := .ofParts 2 [tile 0 0 2 2, tile 1 0 3 2] false

def strip : Box := tile 0 0 4 2

end Sample

namespace Region

theorem comparison_exact_strip : Sample.lapped.dim = (ofBox Sample.strip).dim ∧
    Sample.lapped ≠ ofBox Sample.strip ∧ Sample.lapped.samePoints (ofBox Sample.strip) = true ∧
    (∀ p, Sample.lapped.Mem p ↔ (ofBox Sample.strip).Mem p) ∧
    Sample.lapped.isSubset (ofBox (Sample.tile 0 0 3 2)) = .ok false ∧
    (¬ ∀ p, Sample.lapped.Mem p → (ofBox (Sample.tile 0 0 3 2)).Mem p) ∧
    Sample.lapped.isSubset (ofInterval (Sample.side 0 4)) = .error (.dimensionMismatch 2 1) := by
  have same : Sample.lapped.samePoints (ofBox Sample.strip) = true := by decide +kernel
  have longer : Sample.lapped.isSubset (ofBox (Sample.tile 0 0 3 2)) = .ok false := by decide +kernel
  obtain ⟨_, _, equal, _⟩ := comparison_exact Sample.lapped (ofBox Sample.strip)
  obtain ⟨decides, _⟩ := comparison_exact Sample.lapped (ofBox (Sample.tile 0 0 3 2))
  obtain ⟨_, mismatch, _⟩ := comparison_exact Sample.lapped (ofInterval (Sample.side 0 4))
  obtain ⟨dims, points⟩ := equal.mp same
  obtain ⟨within, run, inside⟩ := decides rfl
  rw [longer] at run
  cases run
  refine ⟨dims, by decide +kernel, same, points, longer, fun all => ?_, mismatch (by decide +kernel)⟩
  exact Bool.false_ne_true (inside.mpr all)

end Region

end GridRegions
