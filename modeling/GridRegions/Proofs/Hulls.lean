import GridRegions.Proofs.Comparison
import GridRegions.Proofs.Counting
import GridRegions.Proofs.Resizing

/-!
The hull is the least interval, or the least box of its dimension, around what it is the hull of.
So it is settled by the points alone: the hull of a region is the same however the region is cut
into parts and in whatever order these are taken up, and an empty part adds nothing to it.
-/
namespace GridRegions

/-- Of its kind, the hull holds all of the points, and it lies within whatever else holds them all. -/
structure IsHull {β α : Type} (mem : β → α → Prop) (kind : β → Prop) (points : α → Prop) (hull : β) :
    Prop where
  ofKind : kind hull
  holds : ∀ x, points x → mem hull x
  least : ∀ other, kind other → (∀ x, points x → mem other x) → ∀ x, mem hull x → mem other x

theorem IsHull.mem_iff {β α : Type} {mem : β → α → Prop} {kind : β → Prop} {points points' : α → Prop}
    {h h' : β} (first : IsHull mem kind points h) (second : IsHull mem kind points' h')
    (same : ∀ x, points x ↔ points' x) (x : α) : mem h x ↔ mem h' x := by
  constructor
  · exact first.least h' second.ofKind (fun y given => second.holds y ((same y).mp given)) x
  · exact second.least h first.ofKind (fun y given => first.holds y ((same y).mpr given)) x

namespace Interval

variable {a b j : Interval}

theorem hull_within (left : ∀ x, a.Mem x → j.Mem x) (right : ∀ x, b.Mem x → j.Mem x) :
    ∀ x, (a.hull b).Mem x → j.Mem x := by
  unfold hull
  split
  · exact right
  · rename_i solidA
    split
    · exact left
    · rename_i solidB
      intro x inside
      obtain ⟨startA, stopA⟩ := (forall_mem_iff_ends (Bool.eq_false_iff.mpr solidA)).mp left
      obtain ⟨startB, stopB⟩ := (forall_mem_iff_ends (Bool.eq_false_iff.mpr solidB)).mp right
      rw [mem_span, Endpoint.atMost_min, Endpoint.atMost_max] at inside
      obtain ⟨reached, short⟩ := inside
      constructor
      · rcases reached with fromA | fromB
        · exact fromA.of_le startA
        · exact fromB.of_le startB
      · intro past
        exact short ⟨past.of_le stopA, past.of_le stopB⟩

end Interval

namespace Axes

variable {as bs js : List Interval}

theorem within_iff (same : as.length = js.length) (solid : as.any Interval.isEmpty = false) :
    (∀ p, Mem as p → Mem js p) ↔ List.Forall₂ (fun i j => ∀ x, i.Mem x → j.Mem x) as js := by
  induction as generalizing js with
  | nil =>
    rw [List.length_eq_zero_iff.mp same.symm]
    exact iff_of_true (fun _ => id) .nil
  | cons i is ih =>
    cases js with
    | nil => simp at same
    | cons j js =>
      rw [List.any_cons, Bool.or_eq_false_iff] at solid
      rw [List.forall₂_cons, ← ih (Nat.succ.inj same) solid.2]
      constructor
      · intro within
        obtain ⟨x, here⟩ := Interval.exists_mem solid.1
        obtain ⟨xs, later⟩ := exists_mem solid.2
        exact ⟨fun y inside => (within (y :: xs) ⟨inside, later⟩).1,
          fun ys inside => (within (x :: ys) ⟨here, inside⟩).2⟩
      · intro ⟨head, tail⟩ p inside
        cases p with
        | nil => exact inside.elim
        | cons y ys => exact ⟨head y inside.1, tail ys inside.2⟩

theorem zipWith_hull_within (left : List.Forall₂ (fun i j => ∀ x, i.Mem x → j.Mem x) as js)
    (right : List.Forall₂ (fun i j => ∀ x, i.Mem x → j.Mem x) bs js) {p : List Int}
    (inside : Mem (List.zipWith Interval.hull as bs) p) : Mem js p := by
  induction left generalizing bs p with
  | nil => exact inside
  | cons here _ ih =>
    cases right with
    | cons here' later' =>
      cases p with
      | nil => exact inside.elim
      | cons x xs => exact ⟨Interval.hull_within here here' x inside.1, ih later' inside.2⟩

end Axes

namespace Box

variable {a b c : Box}

theorem hull_within (dims : a.dim = c.dim) (dims' : b.dim = c.dim) (left : ∀ p, a.Mem p → c.Mem p)
    (right : ∀ p, b.Mem p → c.Mem p) : ∀ p, (a.hull b).Mem p → c.Mem p := by
  unfold hull
  split
  · exact right
  · rename_i solidA
    split
    · exact left
    · rename_i solidB
      intro p inside
      exact Axes.zipWith_hull_within
        ((Axes.within_iff dims (Bool.eq_false_iff.mpr solidA)).mp left)
        ((Axes.within_iff dims' (Bool.eq_false_iff.mpr solidB)).mp right) (mem_ofAxes.mp inside)

theorem isHull_hull (same : a.dim = b.dim) :
    IsHull Mem (·.dim = a.dim) (fun p => a.Mem p ∨ b.Mem p) (a.hull b) where
  ofKind := dim_hull same
  holds _ := mem_hull same
  least _ dims within := hull_within dims.symm (same.symm.trans dims.symm)
    (fun p inside => within p (.inl inside)) fun p inside => within p (.inr inside)

/- Without axes there is one point, which every box has; else the empty box has none. -/
theorem isHull_empty (dim : Nat) : IsHull Mem (·.dim = dim) (fun _ => False) (empty dim) where
  ofKind := dim_empty dim
  holds _ := False.elim
  least c dims _ p inside := by
    cases dim with
    | zero =>
      have none : c = empty 0 := Box.ext (List.length_eq_zero_iff.mp dims)
      exact none ▸ inside
    | succ n => exact (not_mem_empty n.succ_pos p inside).elim

theorem isHull_foldl {dim : Nat} {around : Box} {boxes : List Box} {points : List Int → Prop}
    (before : IsHull Mem (·.dim = dim) points around) (dims : ∀ b ∈ boxes, b.dim = dim) :
    IsHull Mem (·.dim = dim) (fun p => points p ∨ ∃ b ∈ boxes, b.Mem p)
      (boxes.foldl hull around) := by
  induction boxes generalizing around points with
  | nil => simpa using before
  | cons b boxes ih =>
    have same : around.dim = b.dim := before.ofKind.trans (dims b List.mem_cons_self).symm
    have both := isHull_hull same
    have next : IsHull Mem (·.dim = dim) (fun p => points p ∨ b.Mem p) (around.hull b) := by
      refine ⟨both.ofKind.trans before.ofKind, fun p given => ?_, fun c kind within => ?_⟩
      · exact both.holds p (given.imp_left (before.holds p))
      · apply both.least c (kind.trans before.ofKind.symm)
        intro p given
        rcases given with old | new
        · exact before.least c kind (fun q known => within q (.inl known)) p old
        · exact within p (.inr new)
    have rest := ih next fun c later => dims c (List.mem_cons_of_mem b later)
    simpa [or_assoc] using rest

end Box

namespace Region

theorem isHull_hull (r : Region) : IsHull Box.Mem (·.dim = r.dim) r.Mem r.hull := by
  have around := Box.isHull_foldl (Box.isHull_empty r.dim) r.sameDim
  simp only [false_or] at around
  exact around

theorem hull_congr {r s : Region} (dims : s.dim = r.dim) (same : ∀ p, s.Mem p ↔ r.Mem p) :
    s.hull = r.hull := by
  have around := isHull_hull s
  rw [dims] at around
  exact Box.eq_of_mem_iff (around.ofKind.trans (isHull_hull r).ofKind.symm)
    (around.mem_iff (isHull_hull r) same)

theorem shape_ofBox (b : Box) : (ofBox b).shape = if b.dim < 2 then .interval else .box := by
  have few : (ofBox b).parts.length < 2 := by
    unfold ofBox ofParts
    exact Nat.lt_succ_of_le (List.length_filter_le _ _)
  rw [shape_eq, if_pos few]
  rfl

end Region

/-- The hull of two intervals is the least interval around both, and the hull of two boxes the least
    box of their dimension. The hull of a region is the least box of its dimension around all of its
    points, which is an interval on one axis. Regions with the same points have the same hull, and so
    neither fewer parts nor parts cut apart change it. -/
theorem hull_least :
    (∀ a b : Interval,
      IsHull Interval.Mem (fun _ => True) (fun x => a.Mem x ∨ b.Mem x) (a.hull b)) ∧
    (∀ a b : Box, a.dim = b.dim →
      IsHull Box.Mem (·.dim = a.dim) (fun p => a.Mem p ∨ b.Mem p) (a.hull b)) ∧
    ∀ r : Region, IsHull Box.Mem (·.dim = r.dim) r.Mem r.hull ∧
      (Region.ofBox r.hull).shape = (if r.dim < 2 then .interval else .box) ∧
      (∀ s : Region, s.dim = r.dim → (∀ p, s.Mem p ↔ r.Mem p) → s.hull = r.hull) ∧
      r.simplified.hull = r.hull ∧ r.separated.hull = r.hull := by
  refine ⟨fun a b => ⟨trivial, fun x => Interval.mem_hull, fun j _ within => ?_⟩,
    fun a b => Box.isHull_hull, fun r => ⟨Region.isHull_hull r, ?_, fun s => Region.hull_congr, ?_, ?_⟩⟩
  · exact Interval.hull_within (fun x inside => within x (.inl inside)) fun x inside =>
      within x (.inr inside)
  · rw [Region.shape_ofBox, (Region.isHull_hull r).ofKind]
  · exact Region.hull_congr (Region.dim_simplified r) fun p => Region.mem_simplified
  · exact Region.hull_congr (Region.dim_separated r) fun p => Region.mem_separated

theorem hull_least_beam :
    Sample.beam.dim = (Sample.tile 0 0 1 1).dim ∧
    (∀ c : Box, c.dim = 2 → (∀ p, Sample.beam.Mem p ∨ (Sample.tile 0 0 1 1).Mem p → c.Mem p) →
      c.Mem [1, 2]) ∧
    ¬ (Interval.empty.hull (Sample.side 5 2)).Mem 0 ∧
    (∀ p, (Region.ofParts 2 [Sample.tile 1 1 2 2, Sample.tile 0 0 2 2] false).Mem p ↔
      Sample.stairs.Mem p) ∧
    (Region.ofParts 2 [Sample.tile 1 1 2 2, Sample.tile 0 0 2 2] false).hull = Sample.stairs.hull := by
  have dims : Sample.beam.dim = (Sample.tile 0 0 1 1).dim := by decide +kernel
  have inside : (Sample.beam.hull (Sample.tile 0 0 1 1)).contains [Sample.coord 1, Sample.coord 2] =
      true := by decide +kernel
  have outside : ¬ (Sample.side 5 2).Mem 0 := by decide +kernel
  have turned : (Region.ofParts 2 [Sample.tile 1 1 2 2, Sample.tile 0 0 2 2] false).samePoints
      Sample.stairs = true := by decide +kernel
  have same := (Region.samePoints_iff.mp turned).2
  obtain ⟨intervals, boxes, regions⟩ := hull_least
  refine ⟨dims, fun c dim within => ?_, fun held => outside ?_, same, ?_⟩
  · exact (boxes _ _ dims).least c dim within _ (Box.contains_iff.mp inside)
  · apply (intervals .empty (Sample.side 5 2)).least _ trivial _ 0 held
    intro x given
    exact given.resolve_left (Interval.not_mem_empty x)
  · exact (regions Sample.stairs).2.2.1 _ rfl same

end GridRegions
