import GridRegions.Proofs.DoubleComplement

/-!
The difference of two regions is what carving leaves of the parts, in any dimension. For two boxes
these are the peeled pieces, the same ones that clipping the complement gives if the boxes meet.
-/
namespace GridRegions

namespace Interval

theorem mem_clip {is : List Interval} {a : Interval} {x : Int} :
    (∃ k ∈ (is.map (·.inter a)).filter (!·.isEmpty), k.Mem x) ↔
      (∃ i ∈ is, i.Mem x) ∧ a.Mem x := by
  constructor
  · rintro ⟨k, kept, inside⟩
    obtain ⟨i, member, rfl⟩ := List.mem_map.mp (List.mem_filter.mp kept).1
    have both := mem_inter.mp inside
    exact ⟨⟨i, member, both.1⟩, both.2⟩
  · rintro ⟨⟨i, member, inside⟩, held⟩
    have both : (i.inter a).Mem x := mem_inter.mpr ⟨inside, held⟩
    refine ⟨_, List.mem_filter.mpr ⟨List.mem_map.mpr ⟨i, member, rfl⟩, ?_⟩, both⟩
    rw [isEmpty_of_mem both]
    rfl

end Interval

namespace Box

theorem eq_empty_of_isEmpty {b : Box} (void : b.isEmpty = true) : b = .empty b.dim := by
  have positive : 0 < b.dim := by
    apply Nat.pos_of_ne_zero
    intro none
    have axes : b.axes = [] := List.length_eq_zero_iff.mp none
    rw [isEmpty, axes] at void
    cases void
  apply eq_of_mem_iff (dim_empty b.dim).symm
  intro p
  exact iff_of_false ((isEmpty_iff_forall_not_mem b).mp void p) (not_mem_empty positive p)

end Box

namespace Region

variable {r s : Region} {a b : Box}

theorem filter_clip_complement (one : s.dim = 1) {i : Interval} (solid : i.isEmpty = false) :
    (s.complement.parts.map (·.inter (.line i))).filter (!·.isEmpty) =
      Box.carveAll [.line i] s.parts := by
  have line : s.complement.dim = 1 := (dim_complement s).trans one
  have clipped : (s.complement.intervals.map (·.inter i)).filter (!·.isEmpty) =
      Interval.outsideAll [i] s.intervals := by
    have alone := Interval.singleton_normal solid
    apply ((normal_complement one).clip i).eq_of_mem_iff (alone.outsideAll s.intervals)
    intro x
    have outside : s.complement.Mem [x] ↔ ∀ j ∈ s.intervals, ¬ j.Mem x := by
      rw [mem_complement, ← mem_intervals one, one]
      simp
    rw [Interval.mem_clip, Interval.mem_outsideAll, mem_intervals line, outside, and_comm]
    simp
  calc (s.complement.parts.map (·.inter (.line i))).filter (!·.isEmpty)
      = ((s.complement.intervals.map (·.inter i)).map Box.line).filter (!·.isEmpty) := by
        rw [parts_eq_map_line line, List.map_map, List.map_map]
        simp only [Function.comp_def, Box.line_inter]
    _ = (Interval.outsideAll [i] s.intervals).map Box.line := by
        rw [Box.filter_map_line, clipped]
    _ = Box.carveAll [.line i] s.parts := by
        rw [← Box.carveAll_line (Interval.singleton_normal solid), ← parts_eq_map_line one]
        rfl

/-- Whatever the dimension, the boxes of `s` are carved out of the parts of `r` one after the
    other. -/
theorem parts_diff (same : r.dim = s.dim) :
    (r.diff s).parts = Box.carveAll r.parts s.parts := by
  rw [Box.carveAll_eq_flatMap, diff, parts_ofParts_eq_filter _ (dims_diff same), List.filter_flatMap]
  apply List.flatMap_congr
  intro a part
  have dim := r.sameDim a part
  split
  · rename_i one
    obtain ⟨i, rfl⟩ := Box.exists_line (dim.trans one)
    exact filter_clip_complement (same.symm.trans one) (Box.isEmpty_line i ▸ r.solid _ part)
  · have dims : ∀ b ∈ s.parts, b.dim = (ofBox a).dim := fun b other =>
      (s.sameDim b other).trans (same.symm.trans dim.symm)
    have kept : ((ofBox a).removeAll s.parts).parts.filter (!·.isEmpty) =
        ((ofBox a).removeAll s.parts).parts := by
      apply List.filter_eq_self.mpr
      intro c left
      rw [((ofBox a).removeAll s.parts).solid c left]
      rfl
    rw [kept, parts_removeAll dims s.solid, parts_ofBox (r.solid a part)]

theorem intervals_diff (one : r.dim = 1) (same : r.dim = s.dim)
    (normal : Interval.Normal r.intervals) :
    (r.diff s).intervals = Interval.outsideAll r.intervals s.intervals := by
  rw [intervals, parts_diff same, parts_eq_map_line one, parts_eq_map_line (same.symm.trans one),
    Box.carveAll_line normal, flatMap_axes_line]

theorem parts_ofBox_of_isEmpty (void : b.isEmpty = true) : (ofBox b).parts = [] := by
  simp [ofBox, ofParts, void]

theorem components_ofBox (b : Box) : (ofBox b).components = [b] := by
  unfold components
  cases void : b.isEmpty with
  | true =>
    rw [parts_ofBox_of_isEmpty void, dim_ofBox, ← Box.eq_empty_of_isEmpty void]
    rfl
  | false =>
    rw [parts_ofBox void]
    rfl

theorem parts_carved (same : a.dim = b.dim) (solid : a.isEmpty = false) :
    (ofParts a.dim (a.carve b) true).parts = a.carve b :=
  parts_ofParts true (fun _ => Box.dim_of_mem_carve same) fun _ => Box.solid_of_mem_carve same solid

theorem diff_ofBox (same : a.dim = b.dim) :
    (ofBox a).diff (ofBox b) = ofParts a.dim (a.carve b) true := by
  refine Region.ext rfl ?_ rfl
  rw [parts_diff same]
  cases voidA : a.isEmpty with
  | true =>
    rw [parts_ofBox_of_isEmpty voidA, Box.carveAll_eq_flatMap,
      Box.carve_of_apart same (Box.apart_of_isEmpty voidA b)]
    exact (parts_ofBox_of_isEmpty voidA).symm
  | false =>
    rw [parts_ofBox voidA, parts_carved same voidA]
    cases voidB : b.isEmpty with
    | true =>
      have apart : a.Apart b := (Box.apart_of_isEmpty voidB a).symm
      rw [parts_ofBox_of_isEmpty voidB, Box.carve_of_apart same apart]
      rfl
    | false =>
      rw [parts_ofBox voidB]
      exact Box.carveAll_single a b

theorem complement_inter_ofBox (same : a.dim = b.dim) (meet : ¬ a.Apart b) :
    (ofBox b).complement.inter (ofBox a) = ofParts a.dim (a.carve b) true := by
  obtain ⟨solidA, solidB⟩ := Box.solid_of_meet same meet
  have dim : (ofBox b).complement.dim = a.dim := (dim_complement (ofBox b)).trans same.symm
  have outside : (ofBox b).complement.parts = b.complement := by
    rw [parts_complement, parts_ofBox solidB, Box.complement_eq_carve]
    exact Box.carveAll_single (.whole b.dim) b
  have clipped : ((ofBox b).complement.inter (ofBox a)).parts = a.carve b := by
    rw [parts_inter dim, outside, parts_ofBox solidA, ← Box.filter_clip_complement same meet,
      List.map_eq_flatMap]
    rfl
  refine Region.ext dim ?_ ?_
  · rw [clipped, parts_carved same solidA]
  · simp [inter, ofParts, disjoint_complement, ofBox]

theorem length_filter_carve_le (same : a.dim = b.dim) (disjoint : Bool) :
    (ofParts a.dim (a.carve b) disjoint).parts.length ≤ 2 * a.dim :=
  (List.length_filter_le _ _).trans (Box.length_carve_le same)

/-- A box without another is left in at most two pieces for each axis, none of them empty. They share
    no point, lie inside the box and hold its points outside the other one. If the two share no point
    the box is left as it is; otherwise the pieces are those that the box clips from the complement
    of the other one, in the same order and with the same promise. -/
theorem difference_peeled (same : a.dim = b.dim) : ∃ r, (ofBox a).difference (ofBox b) = .ok r ∧
    r = ofParts a.dim (a.carve b) true ∧ (∀ p, r.Mem p ↔ a.Mem p ∧ ¬ b.Mem p) ∧
    r.parts.length ≤ 2 * a.dim ∧ r.parts.Pairwise Box.Apart ∧
    (∀ c ∈ r.parts, c.isEmpty = false ∧ ∀ p, c.Mem p → a.Mem p) ∧
    (a.Apart b → r = ofBox a ∧ r.components = [a]) ∧
    (¬ a.Apart b → (ofBox b).complement.intersection (ofBox a) = .ok r) := by
  have dims : (ofBox a).dim = (ofBox b).dim := same
  have points : ∀ p, (ofParts a.dim (a.carve b) true).Mem p ↔ a.Mem p ∧ ¬ b.Mem p := by
    intro p
    rw [mem_ofParts fun c => Box.dim_of_mem_carve same, Box.mem_carve same]
  refine ⟨ofParts a.dim (a.carve b) true, ?_, rfl, points, length_filter_carve_le same true,
    parts_ofParts_apart true (Box.carve_apart a b), ?_, ?_, ?_⟩
  · rw [difference_eq, if_pos dims, diff_ofBox same]
  · intro c part
    exact ⟨(ofParts a.dim (a.carve b) true).solid c part,
      fun p inside => ((points p).mp ⟨c, part, inside⟩).1⟩
  · intro apart
    rw [Box.carve_of_apart same apart]
    exact ⟨rfl, components_ofBox a⟩
  · intro meet
    have back : (ofBox b).complement.dim = (ofBox a).dim :=
      (dim_complement (ofBox b)).trans same.symm
    rw [intersection_eq, if_pos back, complement_inter_ofBox same meet]

end Region

namespace Sample

def pillar : Box := .ofAxes [.span .negInf (.finite (coord 4)), side 0 3, side 1 4]

def shaft : Box := .ofAxes [side 1 9, side 1 1, .span .negInf (.finite (coord 2))]

end Sample

namespace Region

theorem difference_peeled_shaft : Sample.pillar.dim = Sample.shaft.dim ∧
    ¬ Sample.pillar.Apart Sample.shaft ∧
    ∃ r, (ofBox Sample.pillar).difference (ofBox Sample.shaft) = .ok r ∧
      r.parts = [[.span .negInf (.finite (Sample.coord 1)), Sample.side 0 3, Sample.side 1 4],
        [Sample.side 1 3, Sample.side 0 1, Sample.side 1 4],
        [Sample.side 1 3, Sample.side 2 1, Sample.side 1 4],
        [Sample.side 1 3, Sample.side 1 1, Sample.side 2 3]].map Box.ofAxes ∧
      r.parts.length ≤ 2 * Sample.pillar.dim ∧
      (ofBox Sample.shaft).complement.intersection (ofBox Sample.pillar) = .ok r := by
  have same : Sample.pillar.dim = Sample.shaft.dim := by decide +kernel
  have meet : ¬ Sample.pillar.Apart Sample.shaft := by
    rw [Box.apart_iff_isEmpty_inter same]
    decide +kernel
  obtain ⟨r, run, cut, _, fewer, _, _, _, clipped⟩ := difference_peeled same
  refine ⟨same, meet, r, run, ?_, fewer, clipped meet⟩
  rw [cut]
  decide +kernel

end Region

end GridRegions
