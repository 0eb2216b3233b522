import GridRegions.Proofs.Gathering
import GridRegions.Proofs.Peeling

/-!
The algebra of intervals is that of the regions they are. Taking one interval out of another cuts
the pieces directly, where a region is met with the complement of what is taken out; both leave
the same pieces in the same order, under the same promise, whichever ends are infinite.
-/
namespace GridRegions

namespace Region

variable {a b : Interval} {p : List Int}

theorem dim_ofInterval (a : Interval) : (ofInterval a).dim = 1 := Box.dim_line a

theorem mem_ofInterval : (ofInterval a).Mem p ↔ ∃ x, p = [x] ∧ a.Mem x :=
  mem_ofBox.trans Box.mem_line

theorem mem_ofLines {is : List Interval} {disjoint : Bool} :
    (ofParts 1 (is.map Box.line) disjoint).Mem p ↔ ∃ x, p = [x] ∧ ∃ i ∈ is, i.Mem x := by
  have lines : ∀ c ∈ is.map Box.line, c.dim = 1 := by
    intro c member
    obtain ⟨i, _, rfl⟩ := List.mem_map.mp member
    exact Box.dim_line i
  rw [mem_ofParts lines]
  constructor
  · rintro ⟨c, member, inside⟩
    obtain ⟨i, listed, rfl⟩ := List.mem_map.mp member
    obtain ⟨x, single, here⟩ := Box.mem_line.mp inside
    exact ⟨x, single, i, listed, here⟩
  · rintro ⟨x, single, i, listed, here⟩
    exact ⟨.line i, List.mem_map_of_mem listed, Box.mem_line.mpr ⟨x, single, here⟩⟩

theorem onAxis_ofInterval (a : Interval) : (ofInterval a).OnAxis := .ofBox (dim_ofInterval a)

end Region

namespace Interval

variable {a b : Interval} {p : List Int}

theorem overlaps_iff : a.overlaps b = true ↔ ∃ x, a.Mem x ∧ b.Mem x := by
  rw [overlaps, Bool.not_eq_true', ← not_iff_not, Bool.not_eq_false, isEmpty_iff_forall_not_mem]
  simp only [mem_inter, not_exists]

theorem mem_diff : (a.diff b).Mem p ↔ ∃ x, p = [x] ∧ a.Mem x ∧ ¬ b.Mem x := by
  rw [diff, Region.mem_ofLines]
  simp only [mem_outside]

theorem mem_union : (a.union b).Mem p ↔ ∃ x, p = [x] ∧ (a.Mem x ∨ b.Mem x) := by
  rw [union, Region.mem_simplified]
  change (Region.ofParts 1 ([a, b].map Box.line) false).Mem p ↔ _
  rw [Region.mem_ofLines]
  simp

theorem diff_ofInterval (a b : Interval) :
    (Region.ofInterval a).diff (.ofInterval b) = a.diff b := by
  have one := Region.dim_ofInterval a
  have same := one.trans (Region.dim_ofInterval b).symm
  cases void : a.isEmpty with
  | true =>
    have never := (isEmpty_iff_forall_not_mem a).mp void
    have left : ∀ p, ¬ ((Region.ofInterval a).diff (.ofInterval b)).Mem p := by
      simp [Region.mem_diff same, Region.mem_ofInterval, never]
    have right : ∀ p, ¬ (a.diff b).Mem p := by simp [mem_diff, never]
    rw [Region.eq_empty_of_forall_not_mem (one ▸ Nat.one_pos) left,
      Region.eq_empty_of_forall_not_mem Nat.one_pos right, Region.dim_diff, one]
    rfl
  | false =>
    rw [Region.ofInterval, Region.ofInterval, Region.diff_ofBox same, Box.line_carve void,
      Box.dim_line]
    rfl

theorem union_ofInterval (a b : Interval) :
    (Region.ofInterval a).union (.ofInterval b) = .ok (a.union b) := by
  apply Region.union_eq_ok (Region.onAxis_ofInterval a) (Region.onAxis_ofInterval b)
    ⟨rfl, Region.gathered_truthful 1 _⟩
  intro p
  rw [← Region.mem_simplified, Region.mem_ofInterval, Region.mem_ofInterval]
  change (a.union b).Mem p ↔ _
  simp only [mem_union, and_or_left, exists_or]

theorem isSubset_iff : a.isSubset b = true ↔ ∀ x, a.Mem x → b.Mem x := by
  have same := (Region.dim_ofInterval a).trans (Region.dim_ofInterval b).symm
  change (Region.ofInterval a).isWithin (.ofInterval b) = true ↔ _
  rw [Region.isWithin_iff same]
  simp only [Region.mem_ofInterval]
  constructor
  · intro within x inside
    obtain ⟨y, single, held⟩ := within [x] ⟨x, rfl, inside⟩
    exact (List.cons.inj single).1 ▸ held
  · rintro within p ⟨x, single, inside⟩
    exact ⟨x, single, within x inside⟩

theorem overlaps_iff_diff_changes : a.overlaps b = true ↔
    ¬ ∀ p, (a.diff b).Mem p ↔ (Region.ofInterval a).Mem p := by
  rw [overlaps_iff]
  constructor
  · rintro ⟨x, inA, inB⟩ same
    have kept := (same [x]).mpr (Region.mem_ofInterval.mpr ⟨x, rfl, inA⟩)
    obtain ⟨y, single, _, away⟩ := mem_diff.mp kept
    exact away ((List.cons.inj single).1 ▸ inB)
  · intro changes
    apply Classical.byContradiction
    intro none
    apply changes
    intro p
    rw [mem_diff, Region.mem_ofInterval]
    constructor
    · rintro ⟨x, single, inA, _⟩
      exact ⟨x, single, inA⟩
    · rintro ⟨x, single, inA⟩
      exact ⟨x, single, inA, fun inB => none ⟨x, inA, inB⟩⟩

/-- What intervals have as their union and difference is what they have as regions: the same pieces
    in the same order, under the same promise. Inclusion is decided by the numbers as well. Two
    intervals overlap if they share a number, which is when the one loses numbers without the other,
    and they are apart if they do not overlap. -/
theorem algebra_agrees (a b : Interval) :
    ((Region.ofInterval a).difference (.ofInterval b) = .ok (a.diff b) ∧
      ∀ p, (a.diff b).Mem p ↔ ∃ x, p = [x] ∧ a.Mem x ∧ ¬ b.Mem x) ∧
    ((Region.ofInterval a).union (.ofInterval b) = .ok (a.union b) ∧
      ∀ p, (a.union b).Mem p ↔ ∃ x, p = [x] ∧ (a.Mem x ∨ b.Mem x)) ∧
    ((Region.ofInterval a).isSubset (.ofInterval b) = .ok (a.isSubset b) ∧
      (a.isSubset b = true ↔ ∀ x, a.Mem x → b.Mem x)) ∧
    (a.overlaps b = true ↔ ∃ x, a.Mem x ∧ b.Mem x) ∧
    (a.overlaps b = true ↔ ¬ ∀ p, (a.diff b).Mem p ↔ (Region.ofInterval a).Mem p) ∧
    (a.isApart b = true ↔ ¬ a.overlaps b = true) := by
  have same := (Region.dim_ofInterval a).trans (Region.dim_ofInterval b).symm
  refine ⟨⟨?_, fun p => mem_diff⟩, ⟨union_ofInterval a b, fun p => mem_union⟩, ⟨?_, isSubset_iff⟩,
    overlaps_iff, overlaps_iff_diff_changes, ?_⟩
  · rw [Region.difference_eq, if_pos same, diff_ofInterval]
  · rw [Region.isSubset_eq, if_pos same]
    rfl
  · rw [isApart, Bool.not_eq_true', Bool.not_eq_true]

end Interval

end GridRegions
