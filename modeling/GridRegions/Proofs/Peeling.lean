import GridRegions.Proofs.Difference
import GridRegions.Proofs.Fragments
import GridRegions.Proofs.FusionSearch

/-!
No two of the pieces that are peeled off a box can be fused: whichever axes they were cut on, the
box around them holds all points that the two boxes share, and these are in no piece. So peeled
pieces are simplified as they are, those of a halo among them.
-/
namespace GridRegions

namespace Interval

theorem hull_outside (a b : Interval) : (a.outside b).Pairwise fun i j =>
    ∀ x, b.Mem x → (i.hull j).Mem x := by
  unfold outside
  split
  · exact List.pairwise_singleton _ _
  · rw [List.pairwise_filter, List.pairwise_pair]
    intro before after x inside
    obtain ⟨y, left⟩ := exists_mem (by simpa using before)
    obtain ⟨z, right⟩ := exists_mem (by simpa using after)
    have low := lt_of_before inside (mem_inter.mp left).1
    have high := lt_of_after inside (mem_inter.mp right).1
    apply mem_of_between (mem_hull (.inl left)) (mem_hull (.inr right))
    · exact Int.le_trans (Int.min_le_left y z) (Int.le_of_lt low)
    · exact Int.le_trans (Int.le_of_lt high) (Int.le_max_right y z)

end Interval

namespace Axes

/- Pieces cut on the first axis lie on either side of `b` there and are as wide as `as` on the others;
   a piece cut on a later axis has all of the common part on the first. -/
theorem hull_leftover {as bs : List Interval} (same : as.length = bs.length) :
    (Box.leftover as bs).Pairwise fun ps qs =>
      ∀ p, Mem as p → Mem bs p → Mem (List.zipWith Interval.hull ps qs) p := by
  induction as generalizing bs with
  | nil => exact .nil
  | cons a as ih =>
    cases bs with
    | nil => simp at same
    | cons b bs =>
      have tails : as.length = bs.length := Nat.succ.inj same
      apply List.pairwise_append.mpr
      refine ⟨?_, ?_, ?_⟩
      · apply List.pairwise_map.mpr
        refine (Interval.hull_outside a b).imp fun spans p left right => ?_
        cases p with
        | nil => exact left
        | cons x xs => exact ⟨spans x right.1, mem_zipWith_hull rfl (.inl left.2)⟩
      · apply List.pairwise_map.mpr
        refine (ih tails).imp fun spans p left right => ?_
        cases p with
        | nil => exact left
        | cons x xs =>
          have common := Interval.mem_inter.mpr ⟨left.1, right.1⟩
          exact ⟨Interval.mem_hull (.inl common), spans xs left.2 right.2⟩
      · intro ps outside qs inside p left right
        obtain ⟨i, _, rfl⟩ := List.mem_map.mp outside
        obtain ⟨rest, cut, rfl⟩ := List.mem_map.mp inside
        cases p with
        | nil => exact left
        | cons x xs =>
          have common := Interval.mem_inter.mpr ⟨left.1, right.1⟩
          have lengths := (length_of_mem_leftover tails cut).symm
          exact ⟨Interval.mem_hull (.inr common), mem_zipWith_hull lengths (.inl left.2)⟩

end Axes

namespace Box

variable {a b : Box}

theorem hull_ofAxes {ps qs : List Interval} (left : ps.any Interval.isEmpty = false)
    (right : qs.any Interval.isEmpty = false) :
    (ofAxes ps).hull (ofAxes qs) = ofAxes (List.zipWith Interval.hull ps qs) := by
  rw [hull, isEmpty_ofAxes, isEmpty_ofAxes, left, right, ofAxes_of_nonempty left,
    ofAxes_of_nonempty right]
  rfl

/-- The box around two peeled pieces holds all that was taken out. -/
theorem hull_carve (same : a.dim = b.dim) : (a.carve b).Pairwise fun c d =>
    ∀ p, a.Mem p → b.Mem p → (c.hull d).Mem p := by
  by_cases apart : a.Apart b
  · rw [carve_of_apart same apart]
    exact List.pairwise_singleton _ a
  · have overlap := overlap_of_meet same apart
    have solid : ∀ ps ∈ leftover a.axes b.axes, ps.any Interval.isEmpty = false := fun _ =>
      Axes.solid_of_mem_leftover same (solid_of_meet same apart).1 overlap
    rw [carve_of_meet same apart]
    apply List.pairwise_map.mpr
    apply (Axes.hull_leftover same).imp_of_mem
    intro ps qs first second spans p left right
    rw [hull_ofAxes (solid ps first) (solid qs second), mem_ofAxes]
    exact spans p left right

theorem fuse?_singleton (b : Box) : fuse? [b] = none := rfl

theorem fuse?_carve (same : a.dim = b.dim) : fuse? (a.carve b) = none := by
  by_cases apart : a.Apart b
  · rw [carve_of_apart same apart]
    exact fuse?_singleton a
  · have solidA : a.isEmpty = false := (solid_of_meet same apart).1
    obtain ⟨p, shared⟩ := Axes.exists_mem (overlap_of_meet same apart)
    obtain ⟨inA, inB⟩ := (Axes.mem_zipWith_inter same).mp shared
    apply List.findSome?_eq_none_iff.mpr
    intro ⟨c, d, rest⟩ pick
    have perm := perm_of_mem_pairPicks pick
    have cutC : c ∈ a.carve b := perm.mem_iff.mp List.mem_cons_self
    have cutD : d ∈ a.carve b := perm.mem_iff.mp (List.mem_cons_of_mem c List.mem_cons_self)
    -- The pair may have been picked in the other order.
    have spans : (c :: d :: rest).Pairwise fun e f =>
        e.isEmpty = false → f.isEmpty = false → (e.hull f).Mem p := by
      apply (perm.pairwise_iff ?_).mpr
      · exact (hull_carve same).imp fun spans _ _ => spans p inA inB
      · intro e f spans left right
        rw [hull_comm left right]
        exact spans right left
    have held : (c.hull d).Mem p := List.rel_of_pairwise_cons spans List.mem_cons_self
      (solid_of_mem_carve same solidA cutC) (solid_of_mem_carve same solidA cutD)
    have uncovered : ¬ (c.hull d).isCovered (a.carve b) = true := by
      intro covered
      have dim : (c.hull d).dim = a.dim := by
        rw [dim_hull, dim_of_mem_carve same cutC]
        rw [dim_of_mem_carve same cutC, dim_of_mem_carve same cutD]
      have dims : ∀ e ∈ a.carve b, e.dim = (c.hull d).dim := fun e cut =>
        (dim_of_mem_carve same cut).trans dim.symm
      obtain ⟨e, cut, inside⟩ := (isCovered_iff dims).mp covered p held
      exact ((mem_carve same).mp ⟨e, cut, inside⟩).2 inB
    simp [uncovered]

end Box

namespace Region

variable {a b : Box}

theorem OnAxis.ofBox (one : a.dim = 1) : (ofBox a).OnAxis := ⟨one, fun _ => ofBox_apart a⟩

theorem OnAxis.diff {r s : Region} (left : r.OnAxis) (right : s.dim = 1) : (r.diff s).OnAxis :=
  ⟨left.one, diff_truthful (left.one.trans right.symm) left.truthful⟩

theorem normal_ofBox (one : a.dim = 1) : Interval.Normal (ofBox a).intervals := by
  obtain ⟨i, rfl⟩ := Box.exists_line one
  cases void : i.isEmpty with
  | true =>
    rw [intervals, parts_ofBox_of_isEmpty ((Box.isEmpty_line i).trans void)]
    exact ⟨by simp, .nil⟩
  | false =>
    rw [intervals, parts_ofBox ((Box.isEmpty_line i).trans void), List.flatMap_singleton,
      Box.axes_line]
    exact Interval.singleton_normal void

theorem simplified_diff_ofBox (same : a.dim = b.dim) :
    ((ofBox a).diff (ofBox b)).simplified = (ofBox a).diff (ofBox b) := by
  by_cases one : a.dim = 1
  · have normal := normal_ofBox one
    apply simplified_of_normal ((OnAxis.ofBox one).diff (same.symm.trans one)) _ rfl
    rw [intervals_diff one same normal]
    exact normal.outsideAll _
  · apply simplified_of_fuse? one rfl
    rw [diff_ofBox same]
    cases void : a.isEmpty with
    | true =>
      rw [Box.carve_of_apart same (Box.apart_of_isEmpty void b)]
      change Box.fuse? (ofBox a).parts = none
      rw [parts_ofBox_of_isEmpty void]
      rfl
    | false =>
      rw [parts_carved same void]
      exact Box.fuse?_carve same

theorem length_peeled_le (same : a.dim = b.dim) (positive : 0 < a.dim) :
    ((ofBox a).diff (ofBox b)).components.length ≤ 2 * a.dim := by
  have pieces := length_filter_carve_le same true
  rw [length_components, diff_ofBox same]
  omega

end Region

namespace Grid

/-- The halo as it is cut from the peeled pieces, without any attempt to simplify them. -/
def haloOfPeeled (g : Grid) (d : Subdomain) : Except Fault Halo := do
  Fault.checkDim g.box.dim d.box.dim
  if d.box.inter g.box ≠ d.box then throw (.outsideGlobal d.id)
  let reach ← g.reach d
  let pieces := ((Region.ofBox reach).diff (.ofBox d.box)).components
  let origin ← d.box.first
  let fragments ← pieces.mapM fun piece => g.images.mapM (g.fragmentIn origin piece)
  return ⟨g.box.dim, fragments.flatten.filterMap id⟩

theorem haloOf_eq_peeled (g : Grid) (d : Subdomain) : g.haloOf d = g.haloOfPeeled d := by
  unfold haloOf haloOfPeeled
  by_cases same : g.box.dim = d.box.dim
  · cases near : g.reach d with
    | error fault => rfl
    | ok reach =>
      have settled := Region.simplified_diff_ofBox (dim_reach same near)
      simp only [bind, Except.bind, settled]
  · rw [Fault.checkDim, if_neg same]
    rfl

theorem length_imagesOf (ws : List Bool) : (imagesOf ws).length = 3 ^ ws.count true := by
  induction ws with
  | nil => rfl
  | cons wraps ws ih =>
    cases wraps with
    | false => simp [imagesOf, ih]
    | true =>
      simp [imagesOf, ih, Nat.pow_succ]
      omega

theorem length_fragments_le {g : Grid} {d : Subdomain} {h : Halo} (positive : 0 < g.box.dim)
    (run : g.haloOf d = .ok h) :
    h.fragments.length ≤ 2 * g.box.dim * 3 ^ g.periodic.count true := by
  obtain ⟨same, _, reach, origin, found, near, _, related, rfl⟩ := haloOf_eq_ok run
  have dim := dim_reach same near
  rw [Region.simplified_diff_ofBox dim] at related
  have pieces := Region.length_peeled_le dim (dim ▸ same ▸ positive)
  have pairs := related.length_eq
  rw [List.length_product, images, length_imagesOf] at pairs
  calc (found.filterMap id).length
      ≤ found.length := List.length_filterMap_le id found
    _ = _ := pairs.symm
    _ ≤ 2 * g.box.dim * 3 ^ g.periodic.count true := by
      rw [same, ← dim]
      exact Nat.mul_le_mul_right _ pieces

end Grid

namespace Region

/-- Simplifying changes nothing about a box without another one: it has the same pieces in the same
    order as before. So a halo is cut from the peeled pieces, and it has at most two fragments for
    each axis and each image of the grid, of which there are three along every periodic axis. -/
theorem peeled_simplified :
    (∀ a b : Box, a.dim = b.dim → ∃ r, (ofBox a).difference (ofBox b) = .ok r ∧
      r = ofParts a.dim (a.carve b) true ∧ r.simplified = r) ∧
    (∀ g : Grid, ∀ d, g.haloOf d = g.haloOfPeeled d) ∧
    (∀ g : Grid, ∀ d h, 0 < g.box.dim → g.haloOf d = .ok h →
      h.fragments.length ≤ 2 * g.box.dim * 3 ^ g.periodic.count true) := by
  refine ⟨fun a b same => ?_, Grid.haloOf_eq_peeled, fun g d h => Grid.length_fragments_le⟩
  have dims : (ofBox a).dim = (ofBox b).dim := same
  refine ⟨(ofBox a).diff (ofBox b), ?_, diff_ofBox same, simplified_diff_ofBox same⟩
  rw [difference_eq, if_pos dims]

theorem peeled_simplified_torus : Sample.pillar.dim = Sample.shaft.dim ∧
    (∃ r, (ofBox Sample.pillar).difference (ofBox Sample.shaft) = .ok r ∧ r.parts.length = 4 ∧
      r.simplified = r) ∧
    ∃ g d h, Grid.ofBox Sample.box Sample.margins [true, true] = .ok g ∧
      Subdomain.ofBox 0 Sample.box = .ok d ∧ 0 < g.box.dim ∧ g.haloOf d = .ok h ∧
      g.haloOfPeeled d = .ok h ∧ h.fragments.length = 8 ∧ h.fragments.length ≤ 36 := by
  have same : Sample.pillar.dim = Sample.shaft.dim := by decide +kernel
  obtain ⟨peeled, halos, bound⟩ := peeled_simplified
  obtain ⟨r, cut, rfl, settled⟩ := peeled _ _ same
  have counted : Sample.torus.map (fun h => h.fragments.length) = .ok 8 := by decide +kernel
  obtain ⟨h, run, many⟩ := map_eq_ok.mp counted
  obtain ⟨g, grid, run⟩ := bind_eq_ok.mp run
  obtain ⟨d, domain, run⟩ := bind_eq_ok.mp run
  obtain ⟨box, _, flags, _, _⟩ := Grid.ofBox_eq_ok grid
  have two : g.box.dim = 2 := box ▸ rfl
  have fewer := bound g d h (two ▸ Nat.two_pos) run
  rw [two, flags] at fewer
  exact ⟨same, ⟨_, cut, by decide +kernel, settled⟩, g, d, h, grid, domain, two ▸ Nat.two_pos, run,
    halos g d ▸ run, many, fewer⟩

end Region

end GridRegions
