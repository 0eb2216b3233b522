import GridRegions.Proofs.Difference

/-!
Cutting parts apart gives every point to the first part that has it. A part is carved by the
pieces that the parts before it have kept, which together have the points of these parts, however
few or many pieces are left of them. What carving leaves is not put together again.
-/
namespace GridRegions

namespace Box

/-- The pieces are the share of `c` when the boxes before it come first. -/
structure Share (before : List Box) (c : Box) (pieces : List Box) : Prop where
  points : ∀ p, (∃ b ∈ pieces, b.Mem p) ↔ c.Mem p ∧ ∀ d ∈ before, ¬ d.Mem p
  inside : ∀ b ∈ pieces, ∀ p, b.Mem p → c.Mem p
  away : ∀ b ∈ pieces, ∀ d ∈ before, b.Apart d

theorem share_of_points {before pieces : List Box} {c : Box}
    (points : ∀ p, (∃ b ∈ pieces, b.Mem p) ↔ c.Mem p ∧ ∀ d ∈ before, ¬ d.Mem p) :
    Share before c pieces where
  points := points
  inside := fun b piece p held => ((points p).mp ⟨b, piece, held⟩).1
  away := fun b piece d earlier p both => ((points p).mp ⟨b, piece, both.1⟩).2 d earlier both.2

end Box

namespace Region

theorem parts_foldl_diff {r : Region} {ss : List Region} (same : ∀ s ∈ ss, s.dim = r.dim) :
    (ss.foldl diff r).parts = Box.carveAll r.parts (ss.flatMap parts) := by
  induction ss generalizing r with
  | nil => rfl
  | cons s ss ih =>
    obtain ⟨first, rest⟩ := List.forall_mem_cons.mp same
    calc ((ss.foldl diff (r.diff s)).parts)
        = Box.carveAll (r.diff s).parts (ss.flatMap parts) := ih rest
      _ = Box.carveAll r.parts (s.parts ++ ss.flatMap parts) := by
          rw [parts_diff first.symm, Box.carveAll_append]

theorem length_separate (rs : List Region) : (separate rs).length = rs.length := by
  induction rs using List.reverseRecOn with
  | nil => rfl
  | append_singleton rs r ih => simp [separate_concat, ih]

theorem separate_split (before after : List Region) (r : Region) : ∃ later,
    separate (before ++ r :: after) =
      separate before ++ (separate before).foldl diff r :: later := by
  induction after using List.reverseRecOn with
  | nil => exact ⟨[], separate_concat before r⟩
  | append_singleton after s ih =>
    obtain ⟨later, split⟩ := ih
    have last : before ++ r :: (after ++ [s]) = (before ++ r :: after) ++ [s] := by simp
    refine ⟨later ++ [(separate (before ++ r :: after)).foldl diff s], ?_⟩
    rw [last, separate_concat, split, List.append_assoc, List.cons_append]

section

variable {before : List Box} {c : Box}

theorem dim_of_mem_separate_ofBox (same : ∀ d ∈ before, d.dim = c.dim) :
    ∀ t ∈ separate (before.map ofBox), t.dim = (ofBox c).dim :=
  dim_of_mem_separate (by simpa using same)

theorem share_of_separate (same : ∀ d ∈ before, d.dim = c.dim) :
    Box.Share before c ((separate (before.map ofBox)).foldl diff (ofBox c)).parts := by
  apply Box.share_of_points
  intro p
  have earlier : (∃ t ∈ separate (before.map ofBox), t.Mem p) ↔ ∃ d ∈ before, d.Mem p := by
    have taken : ∀ s ∈ before.map ofBox, s.dim = c.dim := by simpa using same
    simpa [mem_ofBox] using mem_separate taken (p := p)
  calc (∃ b ∈ ((separate (before.map ofBox)).foldl diff (ofBox c)).parts, b.Mem p)
      ↔ (ofBox c).Mem p ∧ ∀ t ∈ separate (before.map ofBox), ¬ t.Mem p :=
        mem_foldl_diff (dim_of_mem_separate_ofBox same)
    _ ↔ c.Mem p ∧ ¬ ∃ t ∈ separate (before.map ofBox), t.Mem p := by simp [mem_ofBox]
    _ ↔ c.Mem p ∧ ∀ d ∈ before, ¬ d.Mem p := by simp [earlier]

theorem parts_share (same : ∀ d ∈ before, d.dim = c.dim) (solid : c.isEmpty = false) :
    ((separate (before.map ofBox)).foldl diff (ofBox c)).parts =
      Box.carveAll [c] ((separate (before.map ofBox)).map parts).flatten := by
  rw [parts_foldl_diff (dim_of_mem_separate_ofBox same), parts_ofBox solid, List.flatMap_def]

end

variable {r : Region}

theorem parts_separated (raw : r.disjoint = false) :
    r.separated.parts = ((separate (r.parts.map ofBox)).map parts).flatten := by
  rw [separated, raw, if_neg Bool.false_ne_true, ← List.flatMap_def]
  apply parts_ofParts true dim_of_mem_parts_separate
  intro b member
  obtain ⟨t, _, part⟩ := List.mem_flatMap.mp member
  exact t.solid b part

theorem disjoint_separated (r : Region) : r.separated.disjoint = true := by
  unfold separated
  split
  · rename_i promise
    exact promise
  · rfl

/-- A region that does not promise to have disjoint parts is cut into as many groups of pieces as it
    has parts, in their order. Each part is carved by the pieces before its own, and keeps the points
    that no part before it has: its pieces lie inside it and apart from those parts. All pieces
    together have the points of the region, no two of them share one, and they stand as they were cut,
    with the promise made, so cutting them again changes nothing. -/
theorem separated_shares (raw : r.disjoint = false) :
    (∀ p, r.separated.Mem p ↔ r.Mem p) ∧ r.separated.parts.Pairwise Box.Apart ∧
    (∃ shares : List (List Box), shares.length = r.parts.length ∧
      r.separated.parts = shares.flatten ∧
      ∀ before c after, r.parts = before ++ c :: after → ∃ taken later,
        shares = taken ++ Box.carveAll [c] taken.flatten :: later ∧
        taken.length = before.length ∧ Box.Share before c (Box.carveAll [c] taken.flatten)) ∧
    r.separated.disjoint = true ∧ r.separated.separated = r.separated := by
  have truthful : r.Truthful := fun flag => absurd flag (by simp [raw])
  refine ⟨fun p => mem_separated, separated_apart truthful, ?_, disjoint_separated r,
    separated_of_disjoint (disjoint_separated r)⟩
  refine ⟨(separate (r.parts.map ofBox)).map parts, by simp [length_separate], parts_separated raw, ?_⟩
  intro before c after split
  have part : c ∈ r.parts := by simp [split]
  have same : ∀ d ∈ before, d.dim = c.dim := by
    intro d earlier
    have listed : d ∈ r.parts := split ▸ List.mem_append_left (c :: after) earlier
    exact (r.sameDim d listed).trans (r.sameDim c part).symm
  obtain ⟨later, cut⟩ := separate_split (before.map ofBox) (after.map ofBox) (ofBox c)
  refine ⟨(separate (before.map ofBox)).map parts, later.map parts, ?_, by simp [length_separate], ?_⟩
  · rw [← parts_share same (r.solid c part), split, List.map_append, List.map_cons, cut,
      List.map_append, List.map_cons]
  · rw [← parts_share same (r.solid c part)]
    exact share_of_separate same

end Region

namespace Sample

def bars : Region := .ofParts 2 [tile 0 0 2 1, tile 1 0 3 1, tile 1 0 2 1] false

end Sample

namespace Region

theorem separated_shares_bars : Sample.bars.disjoint = false ∧
    Sample.bars.separated.parts = [Sample.tile 0 0 2 1, Sample.tile 2 0 2 1] ∧
    Sample.bars.simplified.parts = [Sample.tile 0 0 4 1] ∧
    (∃ shares : List (List Box), shares.length = 3 ∧ Sample.bars.separated.parts = shares.flatten ∧
      ∃ taken later, shares = taken ++ Box.carveAll [Sample.tile 1 0 3 1] taken.flatten :: later ∧
        Box.Share [Sample.tile 0 0 2 1] (Sample.tile 1 0 3 1)
          (Box.carveAll [Sample.tile 1 0 3 1] taken.flatten)) ∧
    Sample.bars.separated.separated = Sample.bars.separated := by
  have raw : Sample.bars.disjoint = false := by decide +kernel
  have parts : Sample.bars.parts =
      [Sample.tile 0 0 2 1] ++ Sample.tile 1 0 3 1 :: [Sample.tile 1 0 2 1] := by decide +kernel
  have three : Sample.bars.parts.length = 3 := congrArg List.length parts
  obtain ⟨_, _, ⟨shares, groups, flat, each⟩, _, again⟩ := separated_shares raw
  obtain ⟨taken, later, cut, _, share⟩ := each _ _ _ parts
  exact ⟨raw, by decide +kernel, by decide +kernel,
    ⟨shares, groups.trans three, flat, taken, later, cut, share⟩, again⟩

end Region

end GridRegions
