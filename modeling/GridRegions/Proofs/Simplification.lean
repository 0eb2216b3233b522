import GridRegions.Proofs.Separation
import GridRegions.Region.Simplify
import Mathlib.Data.List.Basic

/-!
Simplifying a region keeps its points, and parts without a common point stay without one.
-/
namespace GridRegions

namespace Interval

theorem mem_span_join {a b : Interval} (left : a.isEmpty = false) (right : b.isEmpty = false)
    (touch : a.stop = b.start) {x : Int} : (span a.start b.stop).Mem x ↔ a.Mem x ∨ b.Mem x := by
  have first : a.start ≤ a.stop := Endpoint.le_of_lt ((isEmpty_eq_false_iff a).mp left)
  have second : b.start ≤ b.stop := Endpoint.le_of_lt ((isEmpty_eq_false_iff b).mp right)
  rw [mem_span]
  constructor
  · intro ⟨reached, short⟩
    by_cases past : a.stop.AtMost x
    · exact .inr ⟨touch ▸ past, short⟩
    · exact .inl ⟨reached, past⟩
  · intro either
    rcases either with inA | inB
    · exact ⟨inA.1, fun past => inA.2 (touch ▸ past.of_le second)⟩
    · have past : a.stop.AtMost x := touch ▸ inB.1
      exact ⟨past.of_le first, inB.2⟩

theorem isEmpty_span_join {a b : Interval} (left : a.isEmpty = false) (right : b.isEmpty = false)
    (touch : a.stop = b.start) : (span a.start b.stop).isEmpty = false := by
  obtain ⟨x, member⟩ := exists_mem left
  apply Bool.eq_false_iff.mpr
  intro void
  exact (isEmpty_iff_forall_not_mem _).mp void x ((mem_span_join left right touch).mpr (.inl member))

theorem mem_joinFrom {a : Interval} {rest : List Interval} (solid : a.isEmpty = false)
    (solids : ∀ b ∈ rest, b.isEmpty = false) {x : Int} :
    (∃ i ∈ joinFrom a rest, i.Mem x) ↔ a.Mem x ∨ ∃ b ∈ rest, b.Mem x := by
  induction rest generalizing a with
  | nil => simp [joinFrom]
  | cons b rest ih =>
    have next : b.isEmpty = false := solids b List.mem_cons_self
    have later : ∀ c ∈ rest, c.isEmpty = false := fun c old => solids c (List.mem_cons_of_mem b old)
    unfold joinFrom
    split
    · rename_i touch
      rw [ih (isEmpty_span_join solid next touch) later, mem_span_join solid next touch, or_assoc,
        List.exists_mem_cons_iff]
    · rw [List.exists_mem_cons_iff, ih next later, List.exists_mem_cons_iff]

theorem joinFrom_apart {a : Interval} {rest : List Interval} (solid : a.isEmpty = false)
    (solids : ∀ b ∈ rest, b.isEmpty = false) (apart : (a :: rest).Pairwise Apart) :
    (joinFrom a rest).Pairwise Apart := by
  induction rest generalizing a with
  | nil => exact List.pairwise_singleton _ a
  | cons b rest ih =>
    have next : b.isEmpty = false := solids b List.mem_cons_self
    have later : ∀ c ∈ rest, c.isEmpty = false := fun c old => solids c (List.mem_cons_of_mem b old)
    obtain ⟨fromA, apart⟩ := List.pairwise_cons.mp apart
    obtain ⟨fromB, rests⟩ := List.pairwise_cons.mp apart
    unfold joinFrom
    split
    · rename_i touch
      apply ih (isEmpty_span_join solid next touch) later
      apply List.pairwise_cons.mpr
      refine ⟨?_, rests⟩
      intro c old x both
      rcases (mem_span_join solid next touch).mp both.1 with inA | inB
      · exact fromA c (List.mem_cons_of_mem b old) x ⟨inA, both.2⟩
      · exact fromB c old x ⟨inB, both.2⟩
    · apply List.pairwise_cons.mpr
      refine ⟨?_, ih next later apart⟩
      intro i joined x both
      have held := (mem_joinFrom next later).mp ⟨i, joined, both.2⟩
      obtain ⟨c, old, member⟩ := (List.exists_mem_cons_iff (·.Mem x) b rest).mpr held
      exact fromA c old x ⟨both.1, member⟩

theorem mem_joinSorted {is : List Interval} (solids : ∀ i ∈ is, i.isEmpty = false) {x : Int} :
    (∃ i ∈ joinSorted is, i.Mem x) ↔ ∃ i ∈ is, i.Mem x := by
  have sorted : ∀ i, i ∈ is.mergeSort precedes ↔ i ∈ is := fun i => List.mem_mergeSort
  simp only [joinSorted, ← sorted] at solids ⊢
  cases order : is.mergeSort precedes with
  | nil => simp [joinAll]
  | cons a rest =>
    simp only [order] at solids
    rw [joinAll, mem_joinFrom (solids a List.mem_cons_self)
      fun b old => solids b (List.mem_cons_of_mem a old), List.exists_mem_cons_iff]

theorem Apart.symm {a b : Interval} (apart : a.Apart b) : b.Apart a := fun x both => apart x both.symm

theorem joinSorted_apart {is : List Interval} (solids : ∀ i ∈ is, i.isEmpty = false)
    (apart : is.Pairwise Apart) : (joinSorted is).Pairwise Apart := by
  have perm := List.mergeSort_perm is precedes
  have sorted := (perm.pairwise_iff fun {a b} => Apart.symm).mpr apart
  simp only [← perm.mem_iff] at solids
  unfold joinSorted
  cases order : is.mergeSort precedes with
  | nil => exact .nil
  | cons a rest =>
    rw [order] at solids sorted
    exact joinFrom_apart (solids a List.mem_cons_self)
      (fun b old => solids b (List.mem_cons_of_mem a old)) sorted

end Interval

theorem perm_of_mem_picks {α : Type} {a : α} {as rest : List α} (pick : (a, rest) ∈ picks as) :
    (a :: rest).Perm as := by
  induction as generalizing a rest with
  | nil => simp [picks] at pick
  | cons b as ih =>
    rcases List.mem_cons.mp pick with first | later
    · obtain ⟨rfl, rfl⟩ := Prod.mk.inj first
      exact .refl _
    · obtain ⟨⟨c, others⟩, found, eq⟩ := List.mem_map.mp later
      obtain ⟨rfl, rfl⟩ := Prod.mk.inj eq
      exact (List.Perm.swap b c others).trans ((ih found).cons b)

theorem perm_of_mem_pairPicks {α : Type} {a b : α} {as rest : List α}
    (pick : (a, b, rest) ∈ pairPicks as) : (a :: b :: rest).Perm as := by
  obtain ⟨⟨c, others⟩, first, found⟩ := List.mem_flatMap.mp pick
  obtain ⟨⟨d, remaining⟩, second, eq⟩ := List.mem_map.mp found
  simp only [Prod.mk.injEq] at eq
  obtain ⟨rfl, rfl, rfl⟩ := eq
  exact ((perm_of_mem_picks second).cons c).trans (perm_of_mem_picks first)

namespace Box

/-- The boxes `after` hold the points of the boxes `before` and are as far apart as those. -/
structure Recut (dim : Nat) (before after : List Box) : Prop where
  dims : ∀ b ∈ after, b.dim = dim
  points : ∀ p, (∃ b ∈ after, b.Mem p) ↔ ∃ b ∈ before, b.Mem p
  apart : before.Pairwise Apart → after.Pairwise Apart

theorem Recut.trans {dim : Nat} {first second third : List Box} (left : Recut dim first second)
    (right : Recut dim second third) : Recut dim first third :=
  ⟨right.dims, fun p => (right.points p).trans (left.points p),
    fun apart => right.apart (left.apart apart)⟩

/- The rest makes room for the box around the two, so nothing is held twice; and that box is no
   larger than all parts together, so nothing is added. -/
theorem recut_merge {dim : Nat} {parts rest : List Box} {a b : Box}
    (same : ∀ c ∈ parts, c.dim = dim) (perm : (a :: b :: rest).Perm parts)
    (covered : (a.hull b).isCovered parts = true) : Recut dim parts (a.merge b rest) := by
  have dims : ∀ c ∈ a :: b :: rest, c.dim = dim := fun c member => same c (perm.mem_iff.mp member)
  have dimA : a.dim = dim := dims a (by simp)
  have dimB : b.dim = dim := dims b (by simp)
  have around : (a.hull b).dim = dim := (dim_hull (dimA.trans dimB.symm)).trans dimA
  have left : ∀ c ∈ rest, c.dim = dim := fun c member => dims c (by simp [member])
  have right : ∀ c ∈ [a.hull b], c.dim = dim := by simpa using around
  have cover := (isCovered_iff fun c member => (same c member).trans around.symm).mp covered
  constructor
  · intro c member
    rcases List.mem_append.mp member with cut | last
    · exact dim_of_mem_carveAll left right c cut
    · exact right c last
  · intro p
    have cut := mem_carveAll left right (p := p)
    simp only [List.mem_singleton, forall_eq] at cut
    have parted : (∃ c ∈ parts, c.Mem p) ↔ a.Mem p ∨ b.Mem p ∨ ∃ c ∈ rest, c.Mem p := by
      simp only [← perm.mem_iff, List.exists_mem_cons_iff]
    simp only [merge, List.mem_append, or_and_right, exists_or, List.mem_singleton, exists_eq_left,
      cut]
    constructor
    · intro either
      rcases either with kept | inside
      · exact parted.mpr (.inr (.inr kept.1))
      · exact cover p inside
    · intro held
      by_cases inside : (a.hull b).Mem p
      · exact .inr inside
      · rcases parted.mp held with inA | inB | kept
        · exact absurd (mem_hull (dimA.trans dimB.symm) (.inl inA)) inside
        · exact absurd (mem_hull (dimA.trans dimB.symm) (.inr inB)) inside
        · exact .inl ⟨kept, inside⟩
  · intro apart
    have listed := (perm.pairwise_iff fun {c d} => Apart.symm).mpr apart
    have rests := (List.pairwise_cons.mp (List.pairwise_cons.mp listed).2).2
    apply List.pairwise_append.mpr
    refine ⟨carveAll_apart left right rests, List.pairwise_singleton _ _, ?_⟩
    intro c cut d last p both
    have outside := (mem_carveAll left right).mp ⟨c, cut, both.1⟩
    exact outside.2 d last both.2

theorem exists_of_fuse? {parts fused : List Box} (step : fuse? parts = some fused) :
    ∃ a b rest, (a, b, rest) ∈ pairPicks parts ∧ a.touches b = true ∧
      (a.hull b).isCovered parts = true ∧ fused = a.merge b rest := by
  obtain ⟨⟨a, b, rest⟩, pick, found⟩ := List.exists_of_findSome?_eq_some step
  simp only [Option.ite_none_right_eq_some, Bool.and_eq_true, decide_eq_true_eq] at found
  obtain ⟨⟨⟨touch, covered⟩, _⟩, eq⟩ := found
  exact ⟨a, b, rest, pick, touch, covered, (Option.some.inj eq).symm⟩

theorem recut_of_fuse? {dim : Nat} {parts fused : List Box} (same : ∀ c ∈ parts, c.dim = dim)
    (step : fuse? parts = some fused) : Recut dim parts fused := by
  obtain ⟨a, b, rest, pick, _, covered, rfl⟩ := exists_of_fuse? step
  exact recut_merge same (perm_of_mem_pairPicks pick) covered

theorem recut_fuseAll {dim : Nat} {parts : List Box} (same : ∀ c ∈ parts, c.dim = dim) :
    Recut dim parts (fuseAll parts) := by
  induction parts using fuseAll.induct with
  | case1 parts fused step ih =>
    have once := recut_of_fuse? same step
    rw [fuseAll, step]
    exact once.trans (ih once.dims)
  | case2 parts done =>
    rw [fuseAll, done]
    exact ⟨same, fun p => Iff.rfl, id⟩

end Box

namespace Region

theorem isEmpty_of_mem_intervals {r : Region} (i : Interval) (member : i ∈ r.intervals) :
    i.isEmpty = false := by
  obtain ⟨b, part, axis⟩ := List.mem_flatMap.mp member
  have solid := r.solid b part
  rw [Box.isEmpty, List.any_eq_false] at solid
  exact Bool.not_eq_true _ ▸ solid i axis

theorem axes_of_part {r : Region} (one : r.dim = 1) {b : Box} (part : b ∈ r.parts) :
    ∃ i, b.axes = [i] :=
  List.length_eq_one_iff.mp ((r.sameDim b part).trans one)

theorem mem_intervals {r : Region} (one : r.dim = 1) {x : Int} :
    (∃ i ∈ r.intervals, i.Mem x) ↔ r.Mem [x] := by
  constructor
  · intro held
    obtain ⟨i, member, inside⟩ := held
    obtain ⟨b, part, axis⟩ := List.mem_flatMap.mp member
    obtain ⟨j, axes⟩ := axes_of_part one part
    rw [axes, List.mem_singleton] at axis
    refine ⟨b, part, ?_⟩
    rw [Box.Mem, axes, ← axis]
    exact ⟨inside, trivial⟩
  · intro held
    obtain ⟨b, part, inside⟩ := held
    obtain ⟨j, axes⟩ := axes_of_part one part
    rw [Box.Mem, axes] at inside
    exact ⟨j, List.mem_flatMap.mpr ⟨b, part, by simp [axes]⟩, inside.1⟩

theorem intervals_apart {r : Region} (one : r.dim = 1) (apart : r.parts.Pairwise Box.Apart) :
    r.intervals.Pairwise Interval.Apart := by
  apply List.pairwise_flatMap.mpr
  constructor
  · intro b part
    obtain ⟨j, axes⟩ := axes_of_part one part
    rw [axes]
    exact List.pairwise_singleton _ j
  · apply apart.imp_of_mem
    intro a b left right away i first j second x both
    obtain ⟨i', axesA⟩ := axes_of_part one left
    obtain ⟨j', axesB⟩ := axes_of_part one right
    rw [axesA, List.mem_singleton] at first
    rw [axesB, List.mem_singleton] at second
    subst first second
    apply away [x]
    rw [Box.Mem, Box.Mem, axesA, axesB]
    exact ⟨⟨both.1, trivial⟩, both.2, trivial⟩

@[simp] theorem dim_simplified (r : Region) : r.simplified.dim = r.dim := rfl

theorem simplified_of_one {r : Region} (one : r.dim = 1) : r.simplified =
    ofParts r.dim ((Interval.joinSorted r.separated.intervals).map Box.line) true := by
  unfold simplified
  rw [if_pos one]

theorem simplified_of_ne {r : Region} (many : r.dim ≠ 1) :
    r.simplified = ofParts r.dim (Box.fuseAll r.separated.parts) true := by
  unfold simplified
  rw [if_neg many]

theorem mem_simplified {r : Region} {p : List Int} : r.simplified.Mem p ↔ r.Mem p := by
  unfold simplified
  split
  · rename_i one
    have axis : r.separated.dim = 1 := (dim_separated r).trans one
    have solids := r.separated.isEmpty_of_mem_intervals
    have points := fun x => (Interval.mem_joinSorted solids (x := x)).trans
      ((mem_intervals axis).trans mem_separated)
    rw [mem_ofParts (by simp [Box.dim_line, one])]
    constructor
    · intro ⟨b, member, inside⟩
      obtain ⟨i, joined, rfl⟩ := List.mem_map.mp member
      obtain ⟨x, rfl, here⟩ := Box.mem_line.mp inside
      exact (points x).mp ⟨i, joined, here⟩
    · intro member
      obtain ⟨x, rfl⟩ := List.length_eq_one_iff.mp ((length_of_mem member).trans one)
      obtain ⟨i, joined, here⟩ := (points x).mpr member
      exact ⟨.line i, List.mem_map.mpr ⟨i, joined, rfl⟩, Box.mem_line.mpr ⟨x, rfl, here⟩⟩
  · have recut := Box.recut_fuseAll r.separated.sameDim
    rw [mem_ofParts fun b member => (recut.dims b member).trans (dim_separated r), recut.points]
    exact mem_separated

theorem simplified_apart {r : Region} (truthful : r.Truthful) :
    r.simplified.parts.Pairwise Box.Apart := by
  have cut := separated_apart truthful
  unfold simplified
  apply parts_ofParts_apart
  split
  · rename_i one
    have axis : r.separated.dim = 1 := (dim_separated r).trans one
    apply List.pairwise_map.mpr
    exact (Interval.joinSorted_apart r.separated.isEmpty_of_mem_intervals
      (intervals_apart axis cut)).imp Box.line_apart
  · exact (Box.recut_fuseAll r.separated.sameDim).apart cut

end Region

end GridRegions
