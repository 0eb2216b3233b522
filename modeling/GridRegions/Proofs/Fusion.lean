import GridRegions.Proofs.WellFormed

/-!
Fusing the parts of a region with two axes or more. Each step leaves fewer parts, which hold the
same points and share none, so the steps come to an end; there no step is possible any more, and
simplifying once more changes nothing.
-/
namespace GridRegions

namespace Box

/-- Parts that a region may promise to be disjoint. -/
structure Parted (dim : Nat) (parts : List Box) : Prop where
  dims : ∀ b ∈ parts, b.dim = dim
  solid : ∀ b ∈ parts, b.isEmpty = false
  apart : parts.Pairwise Apart

theorem isEmpty_hull {a b : Box} (same : a.dim = b.dim) (solid : a.isEmpty = false) :
    (a.hull b).isEmpty = false := by
  obtain ⟨p, inside⟩ := Axes.exists_mem solid
  exact isEmpty_of_mem (mem_hull same (.inl inside))

theorem carveAll_singleton (rest : List Box) (b : Box) :
    carveAll rest [b] = rest.flatMap (·.carve b) := rfl

theorem solid_merge {dim : Nat} {rest : List Box} {a b : Box} (dims : ∀ c ∈ a :: b :: rest, c.dim = dim)
    (solid : ∀ c ∈ a :: b :: rest, c.isEmpty = false) : ∀ c ∈ a.merge b rest, c.isEmpty = false := by
  rw [List.forall_mem_cons, List.forall_mem_cons] at dims solid
  obtain ⟨dimA, dimB, dimR⟩ := dims
  obtain ⟨solidA, _, solidR⟩ := solid
  have same : a.dim = b.dim := dimA.trans dimB.symm
  intro c member
  rcases List.mem_append.mp member with cut | last
  · rw [carveAll_singleton] at cut
    obtain ⟨d, source, piece⟩ := List.mem_flatMap.mp cut
    apply solid_of_mem_carve _ (solidR d source) piece
    rw [dim_hull same, dimR d source, dimA]
  · rw [List.mem_singleton.mp last]
    exact isEmpty_hull same solidA

namespace Parted

variable {dim : Nat} {parts others rest : List Box} {a b : Box}

theorem perm (parted : Parted dim parts) (perm : others.Perm parts) : Parted dim others :=
  ⟨fun c member => parted.dims c (perm.mem_iff.mp member),
    fun c member => parted.solid c (perm.mem_iff.mp member),
    (perm.pairwise_iff fun {_ _} => Apart.symm).mpr parted.apart⟩

theorem pair (parted : Parted dim (a :: b :: rest)) :
    a.isEmpty = false ∧ b.isEmpty = false ∧ a.dim = b.dim ∧ a.Apart b := by
  have left : a ∈ a :: b :: rest := List.mem_cons_self
  have right : b ∈ a :: b :: rest := List.mem_cons_of_mem a List.mem_cons_self
  exact ⟨parted.solid a left, parted.solid b right,
    (parted.dims a left).trans (parted.dims b right).symm,
    (List.pairwise_cons.mp parted.apart).1 b List.mem_cons_self⟩

theorem merge (parted : Parted dim parts) (perm : (a :: b :: rest).Perm parts)
    (covered : (a.hull b).isCovered parts = true) : Parted dim (a.merge b rest) := by
  have recut := recut_merge parted.dims perm covered
  have listed := parted.perm perm
  exact ⟨recut.dims, solid_merge listed.dims listed.solid, recut.apart parted.apart⟩

theorem of_fuse? {fused : List Box} (parted : Parted dim parts) (step : fuse? parts = some fused) :
    Parted dim fused := by
  obtain ⟨a, b, rest, pick, _, covered, rfl⟩ := exists_of_fuse? step
  exact parted.merge (perm_of_mem_pairPicks pick) covered

end Parted

/-- So many fusions, one after the other, lead from the parts to the result, which allows no more. -/
inductive Fuses : List Box → Nat → List Box → Prop where
  | done {parts : List Box} (stop : fuse? parts = none) : Fuses parts 0 parts
  | step {parts fused result : List Box} {n : Nat} (once : fuse? parts = some fused)
      (rest : Fuses fused n result) : Fuses parts (n + 1) result

namespace Fuses

variable {dim n : Nat} {parts result : List Box}

theorem stop (run : Fuses parts n result) : fuse? result = none := by
  induction run with
  | done stop => exact stop
  | step _ _ ih => exact ih

theorem length_add_le (run : Fuses parts n result) : result.length + n ≤ parts.length := by
  induction run with
  | done _ => exact Nat.le_refl _
  | step once _ ih =>
    have fewer := length_lt_of_fuse? once
    omega

theorem parted (run : Fuses parts n result) (before : Parted dim parts) : Parted dim result := by
  induction run with
  | done _ => exact before
  | step once _ ih => exact ih (before.of_fuse? once)

end Fuses

theorem exists_fuses (parts : List Box) : ∃ n, Fuses parts n (fuseAll parts) := by
  induction parts using fuseAll.induct with
  | case1 parts fused step ih =>
    obtain ⟨n, rest⟩ := ih
    rw [fuseAll, step]
    exact ⟨n + 1, .step step rest⟩
  | case2 parts stop =>
    rw [fuseAll, stop]
    exact ⟨0, .done stop⟩

theorem fuseAll_of_none {parts : List Box} (stop : fuse? parts = none) : fuseAll parts = parts := by
  rw [fuseAll, stop]

theorem fuse?_fuseAll (parts : List Box) : fuse? (fuseAll parts) = none := by
  obtain ⟨n, run⟩ := exists_fuses parts
  exact run.stop

end Box

namespace Region

variable {r : Region}

theorem parted_separated (truthful : r.Truthful) : Box.Parted r.dim r.separated.parts :=
  ⟨fun b part => (r.separated.sameDim b part).trans (dim_separated r), r.separated.solid,
    separated_apart truthful⟩

theorem parted_simplified (truthful : r.Truthful) : Box.Parted r.dim r.simplified.parts :=
  ⟨r.simplified.sameDim, r.simplified.solid, simplified_apart truthful⟩

theorem parts_simplified (many : r.dim ≠ 1) (truthful : r.Truthful) :
    r.simplified.parts = Box.fuseAll r.separated.parts := by
  obtain ⟨n, run⟩ := Box.exists_fuses r.separated.parts
  have parted := run.parted (parted_separated truthful)
  rw [simplified_of_ne many, parts_ofParts true parted.dims parted.solid]

theorem fuse?_simplified (many : r.dim ≠ 1) (truthful : r.Truthful) :
    Box.fuse? r.simplified.parts = none := by
  rw [parts_simplified many truthful, Box.fuse?_fuseAll]

theorem separated_of_disjoint (promise : r.disjoint = true) : r.separated = r := if_pos promise

theorem simplified_of_fuse? (many : r.dim ≠ 1) (promise : r.disjoint = true)
    (stop : Box.fuse? r.parts = none) : r.simplified = r := by
  rw [simplified_of_ne many, separated_of_disjoint promise, Box.fuseAll_of_none stop]
  refine Region.ext rfl ?_ promise.symm
  exact parts_ofParts true r.sameDim r.solid

theorem simplified_fixed (many : r.dim ≠ 1) (truthful : r.Truthful) :
    r.simplified.simplified = r.simplified :=
  simplified_of_fuse? many rfl (fuse?_simplified many truthful)

theorem length_components (r : Region) : r.components.length = max 1 r.parts.length := by
  unfold components
  split
  · rename_i none
    rw [List.isEmpty_iff.mp none]
    rfl
  · rename_i some
    have := List.length_pos_iff.mpr (mt List.isEmpty_iff.mpr some)
    omega

/-- Simplifying boxes comes to an end after as many fusions as it saves parts, or fewer. It keeps the
    points and leaves boxes without a common point, no more of them than there are once the parts are
    cut apart, and in a form that simplifying does not change. Every single fusion keeps the points
    and leaves fewer boxes, which share no point if those before shared none. -/
theorem simplified_fused (many : 2 ≤ r.dim) (truthful : r.Truthful) :
    (∃ n, Box.Fuses r.separated.parts n r.simplified.parts ∧
      r.simplified.parts.length + n ≤ r.separated.parts.length) ∧
    (∀ p, r.simplified.Mem p ↔ r.Mem p) ∧
    (¬ r.simplified.shape.IsLinear ∧ r.simplified.disjoint = true ∧
      Box.Parted r.dim r.simplified.parts) ∧
    r.simplified.components.length ≤ r.separated.components.length ∧
    r.simplified.simplified = r.simplified ∧
    ∀ parts fused, Box.Parted r.dim parts → Box.fuse? parts = some fused →
      fused.length < parts.length ∧ Box.Parted r.dim fused ∧
        ∀ p, (∃ b ∈ fused, b.Mem p) ↔ ∃ b ∈ parts, b.Mem p := by
  have boxes : r.dim ≠ 1 := by omega
  obtain ⟨n, run⟩ := Box.exists_fuses r.separated.parts
  rw [← parts_simplified boxes truthful] at run
  have fewer := run.length_add_le
  refine ⟨⟨n, run, fewer⟩, fun p => mem_simplified, ⟨?_, rfl, parted_simplified truthful⟩, ?_,
    simplified_fixed boxes truthful, ?_⟩
  · rw [isLinear_shape_iff, dim_simplified]
    omega
  · rw [length_components, length_components]
    omega
  · intro parts fused parted step
    have recut := Box.recut_of_fuse? parted.dims step
    exact ⟨Box.length_lt_of_fuse? step, parted.of_fuse? step, recut.points⟩

end Region

namespace Sample

def corner : Region :=
  .ofParts 2 [tile 0 0 2 2, tile 0 2 2 2, tile 1 1 3 1, tile 2 0 2 2] false

end Sample

namespace Region

theorem simplified_fused_corner : Sample.corner.Truthful ∧
    Sample.corner.separated.parts.length = 4 ∧
    Sample.corner.simplified.parts = [Sample.tile 0 0 2 4, Sample.tile 2 0 2 2] ∧
    (∃ n, Box.Fuses Sample.corner.separated.parts n Sample.corner.simplified.parts ∧
      2 + n ≤ 4) ∧
    Sample.corner.simplified.simplified = Sample.corner.simplified ∧
    ∃ fused, Box.fuse? Sample.corner.separated.parts = some fused ∧ Box.Parted 2 fused ∧
      fused.length < 4 := by
  have truthful : Sample.corner.Truthful := gathered_truthful 2 _
  have cut : Sample.corner.separated.parts.length = 4 := by decide +kernel
  have left : Sample.corner.simplified.parts = [Sample.tile 0 0 2 4, Sample.tile 2 0 2 2] := by
    decide +kernel
  have more : (Box.fuse? Sample.corner.separated.parts).isSome = true := by decide +kernel
  obtain ⟨run, _, _, _, fixed, step⟩ := simplified_fused (by decide) truthful
  obtain ⟨fused, once⟩ := Option.isSome_iff_exists.mp more
  obtain ⟨fewer, parted, _⟩ := step _ fused (parted_separated truthful) once
  rw [cut] at run fewer
  rw [left] at run
  exact ⟨truthful, cut, left, left ▸ run, fixed, fused, once, parted, fewer⟩

end Region

end GridRegions
