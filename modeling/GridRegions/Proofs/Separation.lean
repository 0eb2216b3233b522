import GridRegions.Proofs.Apart
import Mathlib.Data.List.Induction

/-!
Cutting the parts of a region apart keeps its points, and no two parts share one afterwards.
-/
namespace GridRegions.Region

def Apart (r s : Region) : Prop := ∀ p, ¬ (r.Mem p ∧ s.Mem p)

theorem apart_iff_isEmpty_inter {r s : Region} (same : r.dim = s.dim) :
    r.Apart s ↔ (r.inter s).isEmpty = true := by
  rw [isEmpty_iff_forall_not_mem]
  simp only [Apart, mem_inter same]

/- Parts of two regions without a common point share none, so only parts of one region can. -/
theorem flatMap_parts_apart_iff {rs : List Region} (apart : rs.Pairwise Apart) :
    (rs.flatMap parts).Pairwise Box.Apart ↔ ∀ r ∈ rs, r.parts.Pairwise Box.Apart := by
  rw [List.pairwise_flatMap]
  apply and_iff_left
  apply apart.imp
  intro r s away b first c second p both
  exact away p ⟨⟨b, first, both.1⟩, c, second, both.2⟩

theorem dim_foldl_diff (r : Region) (ss : List Region) : (ss.foldl diff r).dim = r.dim := by
  induction ss generalizing r with
  | nil => rfl
  | cons s ss ih => exact ih (r.diff s)

theorem mem_foldl_diff {r : Region} {ss : List Region} (same : ∀ s ∈ ss, s.dim = r.dim)
    {p : List Int} : (ss.foldl diff r).Mem p ↔ r.Mem p ∧ ∀ s ∈ ss, ¬ s.Mem p := by
  induction ss generalizing r with
  | nil => simp
  | cons s ss ih =>
    have rest : ∀ t ∈ ss, t.dim = (r.diff s).dim := fun t later =>
      same t (List.mem_cons_of_mem s later)
    rw [List.foldl_cons, ih rest, mem_diff (same s List.mem_cons_self).symm, List.forall_mem_cons,
      and_assoc]

theorem foldl_diff_apart {r : Region} {ss : List Region} (same : ∀ s ∈ ss, s.dim = r.dim)
    (apart : r.parts.Pairwise Box.Apart) : (ss.foldl diff r).parts.Pairwise Box.Apart := by
  induction ss generalizing r with
  | nil => exact apart
  | cons s ss ih =>
    apply ih
    · exact fun t later => same t (List.mem_cons_of_mem s later)
    · exact diff_apart (same s List.mem_cons_self).symm apart

theorem separate_concat (rs : List Region) (r : Region) :
    separate (rs ++ [r]) = separate rs ++ [(separate rs).foldl diff r] := by
  simp [separate]

theorem dim_of_mem_separate {rs : List Region} {dim : Nat} (same : ∀ r ∈ rs, r.dim = dim) :
    ∀ t ∈ separate rs, t.dim = dim := by
  induction rs using List.reverseRecOn with
  | nil => intro t none; simp [separate] at none
  | append_singleton rs r ih =>
    intro t member
    rw [separate_concat] at member
    rcases List.mem_append.mp member with earlier | last
    · exact ih (fun s old => same s (List.mem_append_left [r] old)) t earlier
    · rw [List.mem_singleton.mp last, dim_foldl_diff]
      exact same r (by simp)

theorem mem_separate {rs : List Region} {dim : Nat} (same : ∀ r ∈ rs, r.dim = dim) {p : List Int} :
    (∃ t ∈ separate rs, t.Mem p) ↔ ∃ r ∈ rs, r.Mem p := by
  induction rs using List.reverseRecOn with
  | nil => simp [separate]
  | append_singleton rs r ih =>
    have before : ∀ s ∈ rs, s.dim = dim := fun s old => same s (List.mem_append_left [r] old)
    have rest : ∀ s ∈ separate rs, s.dim = r.dim := fun s old =>
      (dim_of_mem_separate before s old).trans (same r (by simp)).symm
    have earlier := ih before
    simp only [separate_concat, List.mem_append, List.mem_singleton, or_and_right, exists_or,
      exists_eq_left, mem_foldl_diff rest, earlier]
    constructor
    · intro either
      exact either.imp id And.left
    · intro either
      by_cases taken : ∃ s ∈ rs, s.Mem p
      · exact .inl taken
      · have last : r.Mem p := either.resolve_left taken
        have away : ∀ s ∈ separate rs, ¬ s.Mem p := fun s old inside =>
          taken (earlier.mp ⟨s, old, inside⟩)
        exact .inr ⟨last, away⟩

theorem separate_pairwise_apart {rs : List Region} {dim : Nat} (same : ∀ r ∈ rs, r.dim = dim) :
    (separate rs).Pairwise Apart := by
  induction rs using List.reverseRecOn with
  | nil => exact .nil
  | append_singleton rs r ih =>
    have before : ∀ s ∈ rs, s.dim = dim := fun s old => same s (List.mem_append_left [r] old)
    have rest : ∀ s ∈ separate rs, s.dim = r.dim := fun s old =>
      (dim_of_mem_separate before s old).trans (same r (by simp)).symm
    rw [separate_concat]
    apply List.pairwise_append.mpr
    refine ⟨ih before, List.pairwise_singleton _ _, ?_⟩
    intro s old t last p both
    rw [List.mem_singleton.mp last, mem_foldl_diff rest] at both
    exact both.2.2 s old both.1

theorem parts_apart_of_mem_separate {rs : List Region} {dim : Nat} (same : ∀ r ∈ rs, r.dim = dim)
    (apart : ∀ r ∈ rs, r.parts.Pairwise Box.Apart) :
    ∀ t ∈ separate rs, t.parts.Pairwise Box.Apart := by
  induction rs using List.reverseRecOn with
  | nil => intro t none; simp [separate] at none
  | append_singleton rs r ih =>
    have before : ∀ s ∈ rs, s.dim = dim := fun s old => same s (List.mem_append_left [r] old)
    intro t member
    rw [separate_concat] at member
    rcases List.mem_append.mp member with earlier | last
    · exact ih before (fun s old => apart s (List.mem_append_left [r] old)) t earlier
    · rw [List.mem_singleton.mp last]
      apply foldl_diff_apart
      · exact fun s old => (dim_of_mem_separate before s old).trans (same r (by simp)).symm
      · exact apart r (by simp)

theorem dim_of_mem_parts_separate {r : Region} :
    ∀ b ∈ (separate (r.parts.map ofBox)).flatMap parts, b.dim = r.dim := by
  intro b member
  obtain ⟨t, piece, part⟩ := List.mem_flatMap.mp member
  have same : ∀ s ∈ r.parts.map ofBox, s.dim = r.dim := by simpa using r.sameDim
  exact (t.sameDim b part).trans (dim_of_mem_separate same t piece)

@[simp] theorem dim_separated (r : Region) : r.separated.dim = r.dim := by
  unfold separated
  split <;> rfl

theorem mem_separated {r : Region} {p : List Int} : r.separated.Mem p ↔ r.Mem p := by
  unfold separated
  split
  · rfl
  · have same : ∀ s ∈ r.parts.map ofBox, s.dim = r.dim := by simpa using r.sameDim
    rw [mem_ofParts dim_of_mem_parts_separate]
    calc (∃ b ∈ (separate (r.parts.map ofBox)).flatMap parts, b.Mem p)
        ↔ ∃ t ∈ separate (r.parts.map ofBox), t.Mem p := by
          simp only [List.mem_flatMap, Mem]
          constructor
          · intro held
            obtain ⟨b, ⟨t, piece, part⟩, inside⟩ := held
            exact ⟨t, piece, b, part, inside⟩
          · intro held
            obtain ⟨t, piece, b, part, inside⟩ := held
            exact ⟨b, ⟨t, piece, part⟩, inside⟩
      _ ↔ ∃ s ∈ r.parts.map ofBox, s.Mem p := mem_separate same
      _ ↔ r.Mem p := by simp only [List.mem_map, exists_exists_and_eq_and, mem_ofBox]; rfl

theorem separated_apart {r : Region} (truthful : r.Truthful) :
    r.separated.parts.Pairwise Box.Apart := by
  unfold separated
  split
  · rename_i flag
    exact truthful flag
  · have same : ∀ s ∈ r.parts.map ofBox, s.dim = r.dim := by simpa using r.sameDim
    apply parts_ofParts_apart
    apply (flatMap_parts_apart_iff (separate_pairwise_apart same)).mpr
    apply parts_apart_of_mem_separate same
    intro s single
    obtain ⟨b, _, rfl⟩ := List.mem_map.mp single
    exact ofBox_apart b

end GridRegions.Region
