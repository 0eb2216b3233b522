import GridRegions.Proofs.Canonical
import GridRegions.Proofs.Carving

/-!
The complement of a region on one axis is in normal form, whatever the order and the overlap of
the parts: they are taken out of the whole axis one after the other, which leaves intervals in
their order and adds at most one for each part. So two complements, without any sorting or
joining, lead to the same region as simplifying.
-/
namespace GridRegions

namespace Region

variable {r : Region}

theorem intervals_complement (one : r.dim = 1) :
    r.complement.intervals = Interval.outsideAll [.whole] r.intervals := by
  have parts : r.complement.parts =
      (Interval.outsideAll [.whole] r.intervals).map Box.line := by
    rw [parts_complement, parts_eq_map_line one, one,
      ← Box.carveAll_line (Interval.singleton_normal rfl)]
    rfl
  rw [intervals, parts, flatMap_axes_line]

theorem normal_complement (one : r.dim = 1) : Interval.Normal r.complement.intervals := by
  rw [intervals_complement one]
  exact (Interval.singleton_normal rfl).outsideAll r.intervals

theorem length_parts (one : r.dim = 1) : r.parts.length = r.intervals.length := by
  rw [parts_eq_map_line one, List.length_map]

theorem length_complement_le (one : r.dim = 1) :
    r.complement.parts.length ≤ r.parts.length + 1 := by
  have bound := (Interval.singleton_normal (a := .whole) rfl).length_outsideAll r.intervals
  rw [length_parts ((dim_complement r).trans one), length_parts one, intervals_complement one]
  rw [List.length_singleton] at bound
  omega

theorem disjoint_removeAll (promise : r.disjoint = true) (bs : List Box) :
    (r.removeAll bs).disjoint = true := by
  induction bs generalizing r with
  | nil => exact promise
  | cons b bs ih =>
    apply ih
    simp [remove, ofParts, promise]

theorem disjoint_complement (r : Region) : r.complement.disjoint = true := by
  unfold complement
  split
  · rfl
  · exact disjoint_removeAll rfl _

theorem OnAxis.complement (line : r.OnAxis) : r.complement.OnAxis :=
  ⟨(dim_complement r).trans line.one, fun _ => complement_apart r⟩

theorem simplified_of_normal (line : r.OnAxis) (normal : Interval.Normal r.intervals)
    (promise : r.disjoint = true) : r.simplified = r := by
  apply eq_of_intervals line.simplified.one line.one _ promise.symm
  apply (normal_simplified line).eq_of_mem_iff normal
  intro x
  rw [mem_intervals line.simplified.one, mem_intervals line.one, mem_simplified]

theorem simplified_complement (line : r.OnAxis) : r.complement.simplified = r.complement :=
  simplified_of_normal line.complement (normal_complement line.one) (disjoint_complement r)

theorem mem_complement_complement {p : List Int} : r.complement.complement.Mem p ↔ r.Mem p := by
  rw [mem_complement, mem_complement, dim_complement]
  constructor
  · intro ⟨length, outside⟩
    exact Classical.byContradiction fun away => outside ⟨length, away⟩
  · intro inside
    exact ⟨length_of_mem inside, fun outside => outside.2 inside⟩

/-- The complement of a region on one axis is simplified already: its intervals stand in increasing
    order with gaps between them, and it promises that they share no number. It has at most one part
    more than the region, and its own complement is the region simplified. -/
theorem complement_canonical (line : r.OnAxis) :
    (∃ is, r.complement.parts = is.map Box.line ∧ Interval.Normal is) ∧
    r.complement.disjoint = true ∧ r.complement.simplified = r.complement ∧
    r.complement.components.length ≤ r.components.length + 1 ∧
    r.complement.complement = r.simplified := by
  refine ⟨⟨_, parts_eq_map_line line.complement.one, normal_complement line.one⟩,
    disjoint_complement r, simplified_complement line, ?_, ?_⟩
  · have fewer := length_complement_le line.one
    rw [length_components, length_components]
    omega
  · rw [← simplified_complement line.complement]
    apply (simplified_eq_iff line.complement.complement line).mpr
    intro p
    exact mem_complement_complement

theorem complement_canonical_islands : Sample.islands.OnAxis ∧
    Sample.islands.complement.parts =
      [.span .negInf (.finite (Sample.coord 1)), Sample.side 4 5,
        .span (.finite (Sample.coord 12)) .posInf].map Box.line ∧
    Sample.islands.complement.simplified = Sample.islands.complement ∧
    Sample.islands.complement.complement.parts = [Sample.side 1 3, Sample.side 9 3].map Box.line ∧
    Sample.islands.complement.complement = Sample.islands.simplified := by
  have line : Sample.islands.OnAxis := ⟨rfl, gathered_truthful 1 _⟩
  obtain ⟨_, _, settled, _, back⟩ := complement_canonical line
  exact ⟨line, by decide +kernel, settled, by decide +kernel, back⟩

end Region

end GridRegions
