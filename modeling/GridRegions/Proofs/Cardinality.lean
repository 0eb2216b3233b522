import GridRegions.Proofs.Separation
import GridRegions.Proofs.Corners
import Mathlib

/-!
The size of a region is the number of its points, counted up to the cap. Products and sums may be
cut at the cap before or after they are taken.
-/
namespace GridRegions

namespace Count

/-- The two numbers are equal as far as they are counted. -/
def Same (a b : ℕ∞) : Prop := min a cap = min b cap

theorem min_mul_min (a b : ℕ∞) : min (min a cap * min b cap) cap = min (a * b) cap := by
  have one : (1 : ℕ∞) ≤ cap := by exact_mod_cast (by decide : 1 ≤ cap)
  have cut : ∀ x y : ℕ∞, (cap : ℕ∞) ≤ x → min (cap * min y cap) cap = min (x * y) cap := by
    intro x y large
    by_cases zero : y = 0
    · rw [zero, min_eq_left zero_le, mul_zero, mul_zero]
    · have positive : 1 ≤ y := Order.one_le_iff_ne_zero.mpr zero
      rw [min_eq_right (le_mul_of_one_le_right' (le_min positive one)),
        min_eq_right (large.trans (le_mul_of_one_le_right' positive))]
  rcases le_total a cap with smallA | largeA
  · rcases le_total b cap with smallB | largeB
    · rw [min_eq_left smallA, min_eq_left smallB]
    · rw [min_eq_right largeB, mul_comm, cut b a largeB, mul_comm]
  · rw [min_eq_right largeA, cut a b largeA]

theorem Same.mul {a b c d : ℕ∞} (left : Same a b) (right : Same c d) : Same (a * c) (b * d) := by
  unfold Same at *
  rw [← min_mul_min, left, right, min_mul_min]

theorem min_add_min (a b : ℕ∞) : min (min a cap + min b cap) cap = min (a + b) cap := by
  rcases le_total a cap with smallA | largeA
  · rcases le_total b cap with smallB | largeB
    · rw [min_eq_left smallA, min_eq_left smallB]
    · rw [min_eq_right largeB, min_eq_right (le_add_left (le_refl _)),
        min_eq_right (le_add_left largeB)]
  · rw [min_eq_right largeA, min_eq_right (le_add_right (le_refl _)),
      min_eq_right (le_add_right largeA)]

theorem Same.add {a b c d : ℕ∞} (left : Same a b) (right : Same c d) : Same (a + c) (b + d) := by
  unfold Same at *
  rw [← min_add_min, left, right, min_add_min]

theorem cast_saturate (n : Nat) : (saturate n : ℕ∞) = min (n : ℕ∞) cap := by
  unfold saturate
  split
  · rename_i small
    rw [min_eq_left (by exact_mod_cast small)]
  · rename_i large
    rw [min_eq_right (by exact_mod_cast Nat.le_of_not_le large)]

theorem eq_of_lt_cap {n : Nat} {a : ℕ∞} (small : n < cap) (count : (n : ℕ∞) = min a cap) :
    a = n := by
  rcases min_choice a (cap : ℕ∞) with exact | full
  · rw [count, exact]
  · rw [full] at count
    have equal : n = cap := by exact_mod_cast count
    omega

theorem same_min (a : ℕ∞) : Same (min a cap) a := by
  unfold Same
  rw [min_assoc, min_self]

end Count

namespace Endpoint

/-- The whole numbers from one end up to and without the other. -/
def between (lower upper : Endpoint) : Set Int := {x | lower.AtMost x ∧ ¬ upper.AtMost x}

theorem between_negInf (u : Coord) : between .negInf (.finite u) = Set.Iio u.val := by
  apply Set.ext
  intro x
  exact ⟨fun both => Int.not_le.mp both.2, fun below => ⟨trivial, Int.not_le.mpr below⟩⟩

theorem between_posInf (l : Coord) : between (.finite l) .posInf = Set.Ici l.val := by
  apply Set.ext
  intro x
  exact ⟨And.left, fun above => ⟨above, id⟩⟩

theorem between_whole : between .negInf .posInf = Set.univ := by
  apply Set.ext
  intro x
  exact ⟨fun _ => trivial, fun _ => ⟨trivial, id⟩⟩

theorem between_finite (l u : Coord) :
    between (.finite l) (.finite u) = (Finset.Ico l.val u.val : Set Int) := by
  apply Set.ext
  intro x
  rw [Finset.coe_Ico]
  exact and_congr_right fun _ => Int.not_le

theorem cap_of_infinite {s : Set Int} (infinite : s.Infinite) :
    min s.encard Count.cap = Count.cap := by
  rw [Set.encard_eq_top infinite]
  exact min_eq_right le_top

theorem infinite_between {lower upper : Endpoint} (ordered : lower < upper)
    (unbounded : (lower.isFinite && upper.isFinite) = false) : (between lower upper).Infinite := by
  rw [lt_iff_rank] at ordered
  cases lower with
  | negInf =>
    cases upper with
    | negInf => exact absurd ordered (Int.lt_irrefl _)
    | finite u =>
      rw [between_negInf]
      exact Set.Iio_infinite _
    | posInf =>
      rw [between_whole]
      exact Set.infinite_univ
  | finite l =>
    cases upper with
    | negInf =>
      have := l.lower
      simp only [rank] at ordered
      omega
    | finite u => cases unbounded
    | posInf =>
      rw [between_posInf]
      exact Set.Ici_infinite _
  | posInf =>
    cases upper with
    | negInf => simp only [rank] at ordered; omega
    | finite u => have := u.upper; simp only [rank] at ordered; omega
    | posInf => exact absurd ordered (Int.lt_irrefl _)

theorem gap_eq_encard (lower upper : Endpoint) :
    (gap lower upper : ℕ∞) = min (between lower upper).encard Count.cap := by
  have small : (gap lower upper : ℕ∞) ≤ Count.cap := by exact_mod_cast gap_le_cap lower upper
  by_cases reversed : upper ≤ lower
  · have none : between lower upper = ∅ := Set.eq_empty_of_forall_notMem fun x both =>
      both.2 (both.1.of_le reversed)
    unfold gap
    rw [none, Set.encard_empty, if_pos reversed]
    rfl
  · have ordered := not_le.mp reversed
    cases bounded : lower.isFinite && upper.isFinite with
    | true =>
      obtain ⟨low, high⟩ := Bool.and_eq_true_iff.mp bounded
      obtain ⟨l, rfl⟩ := eq_finite_of_isFinite low
      obtain ⟨u, rfl⟩ := eq_finite_of_isFinite high
      rw [gap_finite] at small ⊢
      rw [between_finite, Set.encard_coe_eq_coe_finsetCard, Int.card_Ico, min_eq_left small]
    | false =>
      rw [gap_of_unbounded ordered bounded, cap_of_infinite (infinite_between ordered bounded)]

end Endpoint

namespace Axes

/-- The points that have one coordinate inside each axis. -/
def points (axes : List Interval) : Set (List Int) := {p | Mem axes p}

theorem points_cons (i : Interval) (is : List Interval) :
    points (i :: is) = (fun q : Int × List Int => q.1 :: q.2) ''
      (Endpoint.between i.start i.stop ×ˢ points is) := by
  apply Set.ext
  intro p
  constructor
  · intro member
    cases p with
    | nil => exact member.elim
    | cons x xs => exact ⟨(x, xs), member, rfl⟩
  · intro ⟨q, member, eq⟩
    rw [← eq]
    exact member

theorem points_nil : points [] = {[]} := by
  apply Set.ext
  intro p
  cases p with
  | nil => exact ⟨fun _ => rfl, fun _ => trivial⟩
  | cons x xs => simp [points, Mem]

theorem cons_injective : Function.Injective fun q : Int × List Int => q.1 :: q.2 := by
  intro q r eq
  obtain ⟨heads, tails⟩ := List.cons.inj eq
  exact Prod.ext heads tails

theorem encard_points_cons (i : Interval) (is : List Interval) : (points (i :: is)).encard =
    (Endpoint.between i.start i.stop).encard * (points is).encard := by
  rw [points_cons, cons_injective.injOn.encard_image, Set.encard_prod]

theorem same_encard (axes : List Interval) :
    Count.Same ((axes.map Interval.size).foldr (· * ·) 1 : Nat) (points axes).encard := by
  induction axes with
  | nil =>
    rw [points_nil, Set.encard_singleton]
    rfl
  | cons i is ih =>
    rw [List.map_cons, List.foldr_cons, encard_points_cons, Nat.cast_mul]
    refine Count.Same.mul ?_ ih
    rw [Interval.size, Endpoint.gap_eq_encard]
    exact Count.same_min _

end Axes

theorem Box.size_eq_encard (b : Box) : (b.size : ℕ∞) = min {p | b.Mem p}.encard Count.cap := by
  rw [size, Count.product_eq, Count.cast_saturate]
  exact Axes.same_encard b.axes

namespace Region

theorem same_total {bs : List Box} (apart : bs.Pairwise Box.Apart) :
    Count.Same ((bs.map Box.size).foldr (· + ·) 0 : Nat) {p | ∃ b ∈ bs, b.Mem p}.encard := by
  induction bs with
  | nil => simp [Count.Same]
  | cons b bs ih =>
    obtain ⟨first, rest⟩ := List.pairwise_cons.mp apart
    have split : {p | ∃ c ∈ b :: bs, c.Mem p} = {p | b.Mem p} ∪ {p | ∃ c ∈ bs, c.Mem p} := by
      apply Set.ext
      intro p
      exact List.exists_mem_cons_iff (·.Mem p) b bs
    have parted : Disjoint {p | b.Mem p} {p | ∃ c ∈ bs, c.Mem p} := by
      apply Set.disjoint_left.mpr
      intro p here there
      obtain ⟨c, later, inside⟩ := there
      exact first c later p ⟨here, inside⟩
    rw [List.map_cons, List.foldr_cons, split, Set.encard_union_eq parted, Nat.cast_add]
    refine Count.Same.add ?_ (ih rest)
    rw [Box.size_eq_encard]
    exact Count.same_min _

theorem size_eq_encard {r : Region} (truthful : r.Truthful) :
    (r.size : ℕ∞) = min {p | r.Mem p}.encard Count.cap := by
  have points : {p | r.Mem p} = {p | r.separated.Mem p} := Set.ext fun p => mem_separated.symm
  rw [size, Count.total_eq, Count.cast_saturate, points]
  exact same_total (separated_apart truthful)

end Region

end GridRegions
