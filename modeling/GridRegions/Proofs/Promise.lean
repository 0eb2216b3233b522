import GridRegions.Proofs.Cardinality
import GridRegions.Proofs.Traversal

/-!
Gathering regions under the promise that no two of them share a point. The promise is passed on to
the parts as it is, so it holds of the result exactly when no region overlaps itself: a region may
well share no point with the others and yet have parts that meet.
-/
namespace GridRegions

namespace Region

theorem parts_gathered {r : Region} {rest : List Region} {disjoint : Bool}
    (same : ∀ s ∈ rest, s.dim = r.dim) :
    (ofParts r.dim ((r :: rest).flatMap parts) disjoint).parts = (r :: rest).flatMap parts := by
  apply parts_ofParts _ (dims_gathered same)
  intro b member
  obtain ⟨s, _, part⟩ := List.mem_flatMap.mp member
  exact s.solid b part

/-- Regions that share no point are gathered into a region of their points that promises to have no
    overlapping parts. It keeps the promise, is counted right and walked without a double, if none of
    them overlaps itself, and breaks it otherwise. -/
theorem gather_promise {r : Region} {rest : List Region} (same : ∀ s ∈ rest, s.dim = r.dim)
    (apart : (r :: rest).Pairwise Apart) : ∃ t, gather (r :: rest) true = .ok t ∧
      t.dim = r.dim ∧ t.disjoint = true ∧ (∀ p, t.Mem p ↔ ∃ s ∈ r :: rest, s.Mem p) ∧
      (t.Truthful ↔ ∀ s ∈ r :: rest, s.parts.Pairwise Box.Apart) ∧
      ((∀ s ∈ r :: rest, s.parts.Pairwise Box.Apart) →
        (t.size : ℕ∞) = min {p | ∃ s ∈ r :: rest, s.Mem p}.encard Count.cap ∧
        ((∀ s ∈ r :: rest, ∀ b ∈ s.parts, b.isBounded = true) → ∃ w, ∃ cells : List Cell,
          t.walk = .ok w ∧ (∀ n, w.nth? n = cells[n]?) ∧
          ∀ c, cells.count c = if t.contains c then 1 else 0)) := by
  have kept : (ofParts r.dim ((r :: rest).flatMap parts) true).Truthful ↔
      ∀ s ∈ r :: rest, s.parts.Pairwise Box.Apart := by
    rw [← flatMap_parts_apart_iff apart, Truthful, parts_gathered same]
    exact ⟨fun truthful => truthful rfl, fun parted _ => parted⟩
  refine ⟨ofParts r.dim ((r :: rest).flatMap parts) true, gather_of_same same true, rfl, rfl,
    fun p => mem_gathered same, kept, fun parted => ⟨?_, fun bounded => ?_⟩⟩
  · rw [size_eq_encard (kept.mpr parted)]
    simp only [mem_gathered same]
  · have finite : ∀ b ∈ (ofParts r.dim ((r :: rest).flatMap parts) true).parts,
        b.isBounded = true := by
      rw [parts_gathered same]
      intro b member
      obtain ⟨s, listed, part⟩ := List.mem_flatMap.mp member
      exact bounded s listed b part
    obtain ⟨w, lists, walk, listed, takes⟩ := Walk.exists_lists (Region.solid _) finite
    exact ⟨w, lists.flatten, walk, Walk.nth?_eq takes,
      count_flatten_of_apart (kept.mpr parted rfl) listed⟩

end Region

namespace Sample

def range (lo hi : Fin 16) : Box :=
  .line (.span (.finite ⟨lo, by omega, by omega⟩) (.finite ⟨hi, by omega, by omega⟩))

def overlapping : Region := .ofParts 1 [range 0 3, range 2 5] false

def aside : Region := .ofParts 1 [range 10 12] false

theorem overlapping_apart_aside : overlapping.Apart aside := by
  have dims : overlapping.dim = aside.dim := rfl
  exact (Region.apart_iff_isEmpty_inter dims).mpr (by decide)

end Sample

namespace Region

theorem gather_promise_kept : [Sample.overlapping.separated, Sample.aside].Pairwise Apart ∧
    ∃ t, gather [Sample.overlapping.separated, Sample.aside] true = .ok t ∧ t.disjoint = true ∧
      t.parts.Pairwise Box.Apart ∧ t.size = 7 ∧
      {p | ∃ s ∈ [Sample.overlapping.separated, Sample.aside], s.Mem p}.encard = 7 ∧
      ∃ w, ∃ cells : List Cell, t.walk = .ok w ∧ (∀ n, w.nth? n = cells[n]?) ∧
        cells.count [Sample.coord 2] = 1 := by
  have apart : [Sample.overlapping.separated, Sample.aside].Pairwise Apart :=
    List.pairwise_pair.mpr fun p both =>
      Sample.overlapping_apart_aside p ⟨mem_separated.mp both.1, both.2⟩
  have parted : ∀ s ∈ [Sample.overlapping.separated, Sample.aside],
      s.parts.Pairwise Box.Apart := by
    rw [List.forall_mem_cons, List.forall_mem_singleton]
    exact ⟨separated_apart (gathered_truthful 1 _),
      parts_ofParts_apart false (List.pairwise_singleton _ _)⟩
  have bounded : ∀ s ∈ [Sample.overlapping.separated, Sample.aside], ∀ b ∈ s.parts,
      b.isBounded = true := by decide +kernel
  have counted : (gather [Sample.overlapping.separated, Sample.aside] true).map
      (fun t => (t.size, t.contains [Sample.coord 2])) = .ok (7, true) := by decide +kernel
  obtain ⟨t, run, _, flag, _, kept, exact⟩ := gather_promise (by decide) apart
  rw [run] at counted
  obtain ⟨size, shared⟩ := Prod.mk.inj (Except.ok.inj counted)
  obtain ⟨count, walks⟩ := exact parted
  obtain ⟨w, cells, walk, steps, once⟩ := walks bounded
  rw [size] at count
  refine ⟨apart, t, run, flag, kept.mpr parted flag, size, Count.eq_of_lt_cap (by decide) count,
    w, cells, walk, steps, ?_⟩
  rw [once, shared, if_pos rfl]

/- The two regions share no point, but two parts of one of them do. -/
theorem gather_promise_broken : Sample.overlapping.WellFormed ∧ Sample.aside.WellFormed ∧
    [Sample.overlapping, Sample.aside].Pairwise Apart ∧
    ∃ t, gather [Sample.overlapping, Sample.aside] true = .ok t ∧
      t.disjoint = true ∧ ¬ t.parts.Pairwise Box.Apart ∧
      t.size = 8 ∧ {p | t.Mem p}.encard = 7 ∧
      t.walk.map (fun w => (w.take 9).1.map (·.map Coord.val)) =
        .ok [[0], [1], [2], [2], [3], [4], [10], [11]] := by
  have overlapping : Sample.overlapping.Truthful := gathered_truthful 1 _
  have aside : Sample.aside.Truthful := gathered_truthful 1 _
  refine ⟨wellFormed_iff.mpr ⟨by decide, overlapping⟩, wellFormed_iff.mpr ⟨by decide, aside⟩,
    List.pairwise_pair.mpr Sample.overlapping_apart_aside, ?_⟩
  refine ⟨ofParts 1 [Sample.range 0 3, Sample.range 2 5, Sample.range 10 12] true, by decide, rfl,
    ?_, by decide, ?_, by decide⟩
  · intro apart
    have first := List.rel_of_pairwise_cons apart List.mem_cons_self
    exact first [2] ⟨Box.mem_line_singleton.mpr (by decide), Box.mem_line_singleton.mpr (by decide)⟩
  · have raw := size_eq_encard
      (gathered_truthful 1 [Sample.range 0 3, Sample.range 2 5, Sample.range 10 12])
    have size : (ofParts 1 [Sample.range 0 3, Sample.range 2 5, Sample.range 10 12] false).size = 7 :=
      by decide +kernel
    rw [size] at raw
    exact Count.eq_of_lt_cap (by decide) raw

end Region

end GridRegions
