import GridRegions.Proofs.Cardinality
import GridRegions.Proofs.WellFormed

/-!
Counting the points of regions. A region has infinitely many as soon as one part has an infinite
end, regions of the same points have one size, and a union and a common part have as many points
together as the two regions.
-/
namespace GridRegions

namespace Interval

theorem infinite_iff {i : Interval} (solid : i.isEmpty = false) :
    (Endpoint.between i.start i.stop).Infinite ↔ i.isBounded = false := by
  have ordered := (isEmpty_eq_false_iff i).mp solid
  cases bounded : i.isBounded with
  | true =>
    obtain ⟨l, u, start, stop⟩ := ends_of_isBounded bounded
    rw [start, stop, Endpoint.between_finite]
    exact iff_of_false (Set.not_infinite.mpr (Finset.finite_toSet _)) (by decide)
  | false => exact iff_of_true (Endpoint.infinite_between ordered bounded) rfl

end Interval

namespace Axes

theorem infinite_points_iff {axes : List Interval} (solid : axes.any Interval.isEmpty = false) :
    (points axes).Infinite ↔ axes.all Interval.isBounded = false := by
  induction axes with
  | nil =>
    rw [points_nil]
    exact iff_of_false (Set.not_infinite.mpr (Set.finite_singleton [])) (by decide)
  | cons i is ih =>
    rw [List.any_cons, Bool.or_eq_false_iff] at solid
    have heads : (Endpoint.between i.start i.stop).Nonempty := Interval.exists_mem solid.1
    have tails : (points is).Nonempty := exists_mem solid.2
    rw [points_cons, Set.infinite_image_iff cons_injective.injOn, Set.infinite_prod,
      and_iff_left tails, and_iff_left heads, Interval.infinite_iff solid.1, ih solid.2,
      List.all_cons, Bool.and_eq_false_iff]

end Axes

namespace Region

theorem infinite_iff (r : Region) :
    {p | r.Mem p}.Infinite ↔ ∃ b ∈ r.parts, b.isBounded = false := by
  have each : ∀ b ∈ r.parts, {p | b.Mem p}.Infinite ↔ b.isBounded = false := fun b part =>
    Axes.infinite_points_iff (r.solid b part)
  constructor
  · intro infinite
    by_contra none
    apply infinite
    have finite : (⋃ b ∈ {b | b ∈ r.parts}, {p | b.Mem p}).Finite := by
      apply Set.Finite.biUnion (List.finite_toSet r.parts)
      intro b part
      exact Set.not_infinite.mp fun many => none ⟨b, part, (each b part).mp many⟩
    apply finite.subset
    rintro p ⟨b, part, inside⟩
    exact Set.mem_biUnion part inside
  · rintro ⟨b, part, unbounded⟩
    apply ((each b part).mpr unbounded).mono
    intro p inside
    exact ⟨b, part, inside⟩

theorem size_eq_of_points {r s : Region} (first : r.Truthful) (second : s.Truthful)
    (same : ∀ p, r.Mem p ↔ s.Mem p) : r.size = s.size := by
  have count := size_eq_encard first
  simp only [same] at count
  rw [← size_eq_encard second] at count
  exact_mod_cast count

theorem size_add_size {r s both common : Region} (first : r.Truthful) (second : s.Truthful)
    (third : both.Truthful) (fourth : common.Truthful) (unions : ∀ p, both.Mem p ↔ r.Mem p ∨ s.Mem p)
    (commons : ∀ p, common.Mem p ↔ r.Mem p ∧ s.Mem p)
    (countable : {p | r.Mem p ∨ s.Mem p}.encard ≤ Count.cap) :
    both.size + common.size = r.size + s.size := by
  have exact : ∀ {t : Region}, t.Truthful → (∀ p, t.Mem p → r.Mem p ∨ s.Mem p) →
      (t.size : ℕ∞) = {p | t.Mem p}.encard := by
    intro t truthful within
    rw [size_eq_encard truthful]
    exact min_eq_left ((Set.encard_le_encard within).trans countable)
  have counts : (both.size : ℕ∞) + common.size = r.size + s.size := by
    rw [exact first fun p => .inl, exact second fun p => .inr,
      exact third fun p => (unions p).mp, exact fourth fun p member => .inl ((commons p).mp member).1]
    simp only [unions, commons]
    exact Set.encard_union_add_encard_inter {p | r.Mem p} {p | s.Mem p}
  exact_mod_cast counts

/-- The size of a region is the number of its points, each counted once and up to the cap, so it does
    not depend on how they are cut into parts, on the order or on the promise. Sizes of a union and
    of a common part add up to those of the two regions if the union, which has the most points of
    the four, can be counted. -/
theorem size_exact {r s : Region} (first : r.Truthful) (second : s.Truthful) :
    (r.size : ℕ∞) = min {p | r.Mem p}.encard Count.cap ∧
    ({p | r.Mem p}.encard = ⊤ ↔ ∃ b ∈ r.parts, b.isBounded = false) ∧
    ((∀ p, r.Mem p ↔ s.Mem p) → r.size = s.size) ∧
    (r.dim = s.dim → ∃ raw both common, gather [r, s] false = .ok raw ∧ r.union s = .ok both ∧
      r.intersection s = .ok common ∧ raw.size = both.size ∧
      ({p | r.Mem p ∨ s.Mem p}.encard ≤ Count.cap →
        both.size + common.size = r.size + s.size)) := by
  refine ⟨size_eq_encard first, ?_, size_eq_of_points first second, ?_⟩
  · rw [Set.encard_eq_top_iff, infinite_iff]
  · intro same
    have raw := together_truthful r s
    have both : (r.together s).simplified.Truthful := fun _ => simplified_apart raw
    refine ⟨_, _, _, gather_pair same, union_pair same, by rw [intersection_eq, if_pos same],
      size_eq_of_points raw both fun p => mem_simplified.symm, fun countable => ?_⟩
    apply size_add_size first second both (inter_truthful same first second) _ _ countable
    · exact fun p => mem_simplified.trans (mem_together same)
    · exact fun p => mem_inter same

end Region

namespace Sample

def stairs : Region := .ofParts 2 [tile 0 0 2 2, tile 1 1 2 2] false

def landing : Region := .ofBox (tile 1 1 3 3)

end Sample

namespace Region

theorem size_exact_stairs : Sample.stairs.Truthful ∧ Sample.landing.Truthful ∧
    {p | Sample.stairs.Mem p}.encard = 7 ∧ {p | Sample.landing.Mem p}.encard = 9 ∧
    ∃ both common, Sample.stairs.union Sample.landing = .ok both ∧
      Sample.stairs.intersection Sample.landing = .ok common ∧
      both.size = 12 ∧ common.size = 4 ∧
      both.size + common.size = Sample.stairs.size + Sample.landing.size := by
  have first : Sample.stairs.Truthful := gathered_truthful 2 _
  have second : Sample.landing.Truthful := fun _ => ofBox_apart _
  have counted : (Sample.stairs.union Sample.landing).map size = .ok 12 := by decide +kernel
  have shared : (Sample.stairs.intersection Sample.landing).map size = .ok 4 := by decide +kernel
  have seven : Sample.stairs.size = 7 := by decide +kernel
  have nine : Sample.landing.size = 9 := by decide +kernel
  obtain ⟨left, _, _, pair⟩ := size_exact first second
  obtain ⟨right, _⟩ := size_exact second first
  rw [seven] at left
  rw [nine] at right
  have left := Count.eq_of_lt_cap (by decide) left
  have right := Count.eq_of_lt_cap (by decide) right
  have countable : {p | Sample.stairs.Mem p ∨ Sample.landing.Mem p}.encard ≤ Count.cap := by
    apply (Set.encard_union_le {p | Sample.stairs.Mem p} {p | Sample.landing.Mem p}).trans
    rw [left, right]
    exact_mod_cast (by decide : 7 + 9 ≤ Count.cap)
  obtain ⟨raw, both, common, _, unites, meets, _, sum⟩ := pair rfl
  rw [unites] at counted
  rw [meets] at shared
  exact ⟨first, second, left, right, both, common, unites, meets, Except.ok.inj counted,
    Except.ok.inj shared, sum countable⟩

end Region

end GridRegions
