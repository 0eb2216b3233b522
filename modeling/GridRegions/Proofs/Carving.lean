import GridRegions.Proofs.Fusion
import GridRegions.Proofs.Remainder

/-!
Carving is the one way in which regions lose boxes. To clip everything outside a box to another
one leaves the same pieces, in the same order, as to carve the first out of the second; on one
axis, where regions are clipped, boxes are as good as carved, and the complement is carved out of
the whole in any dimension.
-/
namespace GridRegions

namespace Axes

variable {as bs : List Interval}

theorem zipWith_whole_inter (as : List Interval) :
    List.zipWith Interval.inter (List.replicate as.length .whole) as = as := by
  induction as with
  | nil => rfl
  | cons a as ih => simp [List.replicate_succ, Interval.whole_inter, ih]

theorem solid_of_overlap (same : as.length = bs.length)
    (overlap : (List.zipWith Interval.inter as bs).any Interval.isEmpty = false) :
    as.any Interval.isEmpty = false ∧ bs.any Interval.isEmpty = false := by
  obtain ⟨p, member⟩ := exists_mem overlap
  obtain ⟨left, right⟩ := (mem_zipWith_inter same).mp member
  exact ⟨solid_of_mem left, solid_of_mem right⟩

/- The first axis of a piece is either outside `b`, and then the others are those of `as`, or in
   `b`, and then it is the common part. No axis of `as` is empty, so a piece is emptied by clipping
   on the axis where it was cut, or not at all. -/
theorem leftover_clip (same : as.length = bs.length)
    (overlap : (List.zipWith Interval.inter as bs).any Interval.isEmpty = false) :
    ((Box.leftover (List.replicate as.length .whole) bs).map
        (List.zipWith Interval.inter · as)).filter (!·.any Interval.isEmpty) =
      Box.leftover as bs := by
  induction as generalizing bs with
  | nil => rfl
  | cons a as ih =>
    cases bs with
    | nil => simp at same
    | cons b bs =>
      obtain ⟨solidA, solidB⟩ := solid_of_overlap same overlap
      rw [List.any_cons, Bool.or_eq_false_iff] at solidA solidB
      rw [List.zipWith_cons_cons, List.any_cons, Bool.or_eq_false_iff] at overlap
      have rest := ih (Nat.succ.inj same) overlap.2
      have common : (Interval.whole.inter b).inter a = a.inter b := by
        rw [Interval.whole_inter, Interval.inter_comm]
      rw [List.length_cons, List.replicate_succ, Box.leftover, Box.leftover, List.map_append,
        List.filter_append]
      congr 1
      · rw [← Interval.filter_clip_complement solidB.1 a, Interval.whole_outside]
        simp [List.filter_map, Function.comp_def, zipWith_whole_inter, solidA.2]
      · rw [← rest]
        simp [List.filter_map, Function.comp_def, common, overlap.1]

theorem length_leftover_le (as bs : List Interval) :
    (Box.leftover as bs).length ≤ 2 * as.length := by
  induction as generalizing bs with
  | nil => exact Nat.zero_le _
  | cons a as ih =>
    cases bs with
    | nil => exact Nat.zero_le _
    | cons b bs =>
      have rest := ih bs
      have first := Interval.length_outside_le a b
      rw [Box.leftover, List.length_append, List.length_map, List.length_map, List.length_cons]
      omega

end Axes

namespace Box

variable {a b : Box} {i j : Interval}

theorem line_inter (i j : Interval) : (line i).inter (line j) = line (i.inter j) := by
  rw [inter, axes_line, axes_line]
  rfl

theorem complement_line (i : Interval) : (line i).complement = i.complement.map line := by
  unfold complement
  rw [axes_line]

theorem filter_map_line (is : List Interval) :
    (is.map line).filter (!·.isEmpty) = (is.filter (!·.isEmpty)).map line := by
  simp [List.filter_map, Function.comp_def, isEmpty_line]

theorem line_carve (solid : i.isEmpty = false) (j : Interval) :
    (line i).carve (line j) = (i.outside j).map line := by
  unfold carve
  rw [line_inter, isEmpty_line, axes_line, axes_line]
  split
  · rename_i none
    have apart : i.Apart j := by
      intro x both
      exact (Interval.isEmpty_iff_forall_not_mem _).mp none x (Interval.mem_inter.mpr both)
    rw [Interval.outside_of_apart solid apart]
    rfl
  · simp [leftover, line]

theorem complement_eq_carve (b : Box) : b.complement = (whole b.dim).carve b := by
  by_cases one : b.dim = 1
  · obtain ⟨i, rfl⟩ := exists_line one
    rw [complement_line, dim_line, ← Interval.whole_outside]
    exact (line_carve rfl i).symm
  · unfold complement
    split
    · rename_i axis
      rw [dim, axis] at one
      exact absurd rfl one
    · rfl

theorem filter_clip_line (solid : j.isEmpty = false) (i : Interval) :
    ((line j).complement.map (·.inter (line i))).filter (!·.isEmpty) =
      (i.outside j).map line := by
  rw [complement_line, ← Interval.filter_clip_complement solid i, ← filter_map_line, List.map_map,
    List.map_map]
  simp only [Function.comp_def, line_inter]

theorem axes_whole (dim : Nat) : (whole dim).axes = List.replicate dim .whole := by
  have solid : Interval.whole.isEmpty = false := rfl
  exact ofAxes_of_nonempty (by simp [solid])

theorem isEmpty_whole (dim : Nat) : (whole dim).isEmpty = false := by
  have solid : Interval.whole.isEmpty = false := rfl
  simp [isEmpty, axes_whole, solid]

theorem filter_map_ofAxes (pieces : List (List Interval)) :
    (pieces.map ofAxes).filter (!·.isEmpty) =
      (pieces.filter (!·.any Interval.isEmpty)).map ofAxes := by
  simp only [List.filter_map, Function.comp_def, isEmpty_ofAxes]

theorem overlap_of_meet (same : a.dim = b.dim) (meet : ¬ a.Apart b) :
    (List.zipWith Interval.inter a.axes b.axes).any Interval.isEmpty = false := by
  rw [apart_iff_isEmpty_inter same, inter, isEmpty_ofAxes] at meet
  exact Bool.not_eq_true _ ▸ meet

theorem solid_of_meet (same : a.dim = b.dim) (meet : ¬ a.Apart b) :
    a.isEmpty = false ∧ b.isEmpty = false :=
  Axes.solid_of_overlap same (overlap_of_meet same meet)

/-- Boxes that share a point lose it in the same pieces when the one is carved out of the other as
    when everything outside the one is clipped to the other. -/
theorem filter_clip_complement (same : a.dim = b.dim) (meet : ¬ a.Apart b) :
    (b.complement.map (·.inter a)).filter (!·.isEmpty) = a.carve b := by
  have dims : (whole b.dim).dim = b.dim := dim_whole b.dim
  have meetWhole : ¬ (whole b.dim).Apart b := by
    intro apart
    apply meet
    intro p both
    exact apart p ⟨mem_whole.mpr (length_of_mem both.2), both.2⟩
  have axes : (whole b.dim).axes = List.replicate a.axes.length .whole := by
    rw [axes_whole, ← same]
    rfl
  have clipped : ∀ ps ∈ leftover (whole b.dim).axes b.axes,
      (ofAxes ps).inter a = ofAxes (List.zipWith Interval.inter ps a.axes) := by
    intro ps cut
    have solid := Axes.solid_of_mem_leftover dims (isEmpty_whole b.dim)
      (overlap_of_meet dims meetWhole) cut
    rw [inter, ofAxes_of_nonempty solid]
  calc (b.complement.map (·.inter a)).filter (!·.isEmpty)
      = (((leftover (whole b.dim).axes b.axes).map ofAxes).map (·.inter a)).filter
          (!·.isEmpty) := by rw [complement_eq_carve, carve_of_meet dims meetWhole]
    _ = (((leftover (whole b.dim).axes b.axes).map
          (List.zipWith Interval.inter · a.axes)).map ofAxes).filter (!·.isEmpty) := by
        rw [List.map_map, List.map_map]
        exact congrArg _ (List.map_congr_left clipped)
    _ = (leftover a.axes b.axes).map ofAxes := by
        rw [filter_map_ofAxes, axes, Axes.leftover_clip same (overlap_of_meet same meet)]
    _ = a.carve b := (carve_of_meet same meet).symm

theorem dim_pos_of_apart (same : a.dim = b.dim) (apart : a.Apart b) : 0 < a.dim := by
  apply Nat.pos_of_ne_zero
  intro none
  have left : a.axes = [] := List.length_eq_zero_iff.mp none
  have right : b.axes = [] := List.length_eq_zero_iff.mp (same.symm.trans none)
  apply apart []
  rw [Mem, Mem, left, right]
  exact ⟨trivial, trivial⟩

theorem length_carve_le (same : a.dim = b.dim) : (a.carve b).length ≤ 2 * a.dim := by
  by_cases apart : a.Apart b
  · have positive := dim_pos_of_apart same apart
    rw [carve_of_apart same apart, List.length_singleton]
    omega
  · rw [carve_of_meet same apart, List.length_map]
    exact Axes.length_leftover_le a.axes b.axes

theorem carveAll_single (a b : Box) : carveAll [a] [b] = a.carve b := by
  rw [carveAll_singleton, List.flatMap_singleton]

theorem carveAll_append (as bs cs : List Box) :
    carveAll as (bs ++ cs) = carveAll (carveAll as bs) cs :=
  List.foldl_append

theorem carveAll_eq_flatMap (as bs : List Box) :
    carveAll as bs = as.flatMap fun a => carveAll [a] bs := by
  induction bs generalizing as with
  | nil => simp [carveAll]
  | cons b bs ih =>
    change carveAll (as.flatMap (·.carve b)) bs =
      as.flatMap fun a => carveAll ([a].flatMap fun c => c.carve b) bs
    rw [ih, List.flatMap_assoc]
    apply List.flatMap_congr
    intro a _
    rw [ih ([a].flatMap fun c => c.carve b), List.flatMap_singleton]

theorem carveAll_line {is : List Interval} (normal : Interval.Normal is) (bs : List Interval) :
    carveAll (is.map line) (bs.map line) = (Interval.outsideAll is bs).map line := by
  induction bs generalizing is with
  | nil => rfl
  | cons b bs ih =>
    have once : (is.map line).flatMap (·.carve (line b)) =
        (is.flatMap (·.outside b)).map line := by
      rw [List.flatMap_map, List.map_flatMap]
      apply List.flatMap_congr
      intro i member
      exact line_carve (normal.solid i member) b
    change carveAll ((is.map line).flatMap (·.carve (line b))) (bs.map line) = _
    rw [once, ih (normal.flatMap_outside b)]
    rfl

end Box

namespace Region

variable {r s : Region}

theorem parts_inter (same : r.dim = s.dim) : (r.inter s).parts =
    (r.parts.flatMap fun a => s.parts.map fun b => a.inter b).filter (!·.isEmpty) :=
  parts_ofParts_eq_filter _ (dims_inter same)

theorem parts_ofBox {b : Box} (solid : b.isEmpty = false) : (ofBox b).parts = [b] :=
  parts_ofParts true (by simp) (by simpa using solid)

/-- Taking a box out carves it out of every part, in one dimension as in any other. -/
theorem parts_remove {b : Box} (same : b.dim = r.dim) (solid : b.isEmpty = false) :
    (r.remove b).parts = r.parts.flatMap (·.carve b) := by
  rw [remove, parts_ofParts_eq_filter _ (dims_remove same), List.filter_flatMap]
  apply List.flatMap_congr
  intro a part
  split
  · rename_i one
    obtain ⟨i, rfl⟩ := Box.exists_line ((r.sameDim a part).trans one)
    obtain ⟨j, rfl⟩ := Box.exists_line (same.trans one)
    have left : i.isEmpty = false := Box.isEmpty_line i ▸ r.solid _ part
    have right : j.isEmpty = false := Box.isEmpty_line j ▸ solid
    rw [Box.filter_clip_line right, Box.line_carve left]
  · apply List.filter_eq_self.mpr
    intro c cut
    rw [Box.solid_of_mem_carve ((r.sameDim a part).trans same.symm) (r.solid a part) cut]
    rfl

theorem parts_removeAll {bs : List Box} (same : ∀ b ∈ bs, b.dim = r.dim)
    (solid : ∀ b ∈ bs, b.isEmpty = false) :
    (r.removeAll bs).parts = Box.carveAll r.parts bs := by
  induction bs generalizing r with
  | nil => rfl
  | cons b bs ih =>
    obtain ⟨sameB, later⟩ := List.forall_mem_cons.mp same
    obtain ⟨solidB, rest⟩ := List.forall_mem_cons.mp solid
    calc ((r.remove b).removeAll bs).parts
        = Box.carveAll (r.remove b).parts bs := ih later rest
      _ = Box.carveAll r.parts (b :: bs) := by rw [parts_remove sameB solidB]; rfl

theorem parts_complement (r : Region) :
    r.complement.parts = Box.carveAll [.whole r.dim] r.parts := by
  unfold complement
  split
  · rename_i b single
    have dim : b.dim = r.dim := r.sameDim b (by simp [single])
    have dims : (Box.whole b.dim).dim = b.dim := Box.dim_whole b.dim
    rw [parts_ofParts, Box.complement_eq_carve, single, dim]
    · exact (Box.carveAll_single _ b).symm
    · exact fun c side => (Box.dim_of_mem_complement side).trans dim
    · intro c side
      rw [Box.complement_eq_carve] at side
      exact Box.solid_of_mem_carve dims (Box.isEmpty_whole b.dim) side
  · have same : ∀ b ∈ r.parts, b.dim = (ofBox (.whole r.dim)).dim := by simpa using r.sameDim
    rw [parts_removeAll same r.solid, parts_ofBox (Box.isEmpty_whole r.dim)]

end Region

end GridRegions
