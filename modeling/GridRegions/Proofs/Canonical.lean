import Mathlib
import GridRegions.Proofs.WellFormed
import GridRegions.Proofs.NormalForm
import GridRegions.Proofs.Enumeration

/-!
Regions on one axis. Simplified, those of the same points are the same, so their union does not
depend on order or grouping, and a walk over a bounded one meets its cells in increasing order.
-/
namespace GridRegions

namespace Region

variable {r s t : Region}

theorem flatMap_axes_line (is : List Interval) : (is.map Box.line).flatMap Box.axes = is := by
  rw [List.flatMap_map, List.flatMap_congr fun i _ => Box.axes_line i, List.flatMap_singleton']

theorem parts_eq_map_line (one : r.dim = 1) : r.parts = r.intervals.map Box.line := by
  have single : ∀ b ∈ r.parts, b.axes.map Box.line = [b] := by
    intro b part
    obtain ⟨i, rfl⟩ := Box.exists_line ((r.sameDim b part).trans one)
    rw [Box.axes_line, List.map_singleton]
  rw [intervals, List.map_flatMap, List.flatMap_congr single, List.flatMap_singleton']

/-- The region lies on one axis and keeps its promise. -/
structure OnAxis (r : Region) : Prop where
  one : r.dim = 1
  truthful : r.Truthful

theorem OnAxis.simplified (line : r.OnAxis) : r.simplified.OnAxis :=
  ⟨line.one, fun _ => simplified_apart line.truthful⟩

theorem OnAxis.together (line : r.OnAxis) (s : Region) : (r.together s).OnAxis :=
  ⟨line.one, together_truthful r s⟩

theorem OnAxis.same (left : r.OnAxis) (right : s.OnAxis) : r.dim = s.dim :=
  left.one.trans right.one.symm

theorem normal_joined (line : r.OnAxis) :
    Interval.Normal (Interval.joinSorted r.separated.intervals) :=
  Interval.joinSorted_normal r.separated.isEmpty_of_mem_intervals
    (intervals_apart ((dim_separated r).trans line.one) (separated_apart line.truthful))

theorem intervals_simplified (line : r.OnAxis) :
    r.simplified.intervals = Interval.joinSorted r.separated.intervals := by
  have solid := (normal_joined line).solid
  have kept : r.simplified.parts = (Interval.joinSorted r.separated.intervals).map Box.line := by
    rw [simplified_of_one line.one]
    apply List.filter_eq_self.mpr
    intro b member
    obtain ⟨i, joined, rfl⟩ := List.mem_map.mp member
    simp [Box.dim_line, line.one, Box.isEmpty_line, solid i joined]
  rw [intervals, kept, flatMap_axes_line]

theorem normal_simplified (line : r.OnAxis) : Interval.Normal r.simplified.intervals := by
  rw [intervals_simplified line]
  exact normal_joined line

theorem eq_of_intervals (oneR : r.dim = 1) (oneS : s.dim = 1) (same : r.intervals = s.intervals)
    (promise : r.disjoint = s.disjoint) : r = s := by
  apply Region.ext (oneR.trans oneS.symm) _ promise
  rw [parts_eq_map_line oneR, parts_eq_map_line oneS, same]

theorem simplified_eq_iff (left : r.OnAxis) (right : s.OnAxis) :
    r.simplified = s.simplified ↔ ∀ p, r.Mem p ↔ s.Mem p := by
  constructor
  · intro same p
    rw [← mem_simplified, same, mem_simplified]
  · intro same
    have oneR := left.simplified.one
    have oneS := right.simplified.one
    apply eq_of_intervals oneR oneS _ rfl
    apply (normal_simplified left).eq_of_mem_iff (normal_simplified right)
    intro x
    rw [mem_intervals oneR, mem_intervals oneS, mem_simplified, mem_simplified, same]

theorem simplified_simplified (line : r.OnAxis) : r.simplified.simplified = r.simplified :=
  (simplified_eq_iff line.simplified line).mpr fun _ => mem_simplified

theorem union_eq_ok (left : r.OnAxis) (right : s.OnAxis) (both : t.OnAxis)
    (points : ∀ p, t.Mem p ↔ r.Mem p ∨ s.Mem p) : r.union s = .ok t.simplified := by
  rw [union_pair (left.same right)]
  apply congrArg Except.ok
  apply (simplified_eq_iff (left.together s) both).mpr
  intro p
  rw [mem_together (left.same right), points]

theorem union_comm (left : r.OnAxis) (right : s.OnAxis) : r.union s = s.union r := by
  rw [union_pair (right.same left)]
  apply union_eq_ok left right (right.together r)
  intro p
  rw [mem_together (right.same left), or_comm]

theorem union_self (line : r.OnAxis) : r.union r = .ok r.simplified :=
  union_eq_ok line line line fun p => by rw [or_self]

theorem union_assoc (first : r.OnAxis) (second : s.OnAxis) (third : t.OnAxis) :
    ∃ rs st u, r.union s = .ok rs ∧ s.union t = .ok st ∧ rs.union t = .ok u ∧
      r.union st = .ok u := by
  have all := first.together (s.together t)
  have points : ∀ p, (r.together (s.together t)).Mem p ↔ r.Mem p ∨ s.Mem p ∨ t.Mem p := by
    intro p
    rw [mem_together (first.same (second.together t)), mem_together (second.same third)]
  refine ⟨_, _, (r.together (s.together t)).simplified, union_pair (first.same second),
    union_pair (second.same third), ?_, ?_⟩
  · apply union_eq_ok (first.together s).simplified third all
    intro p
    rw [points, mem_simplified, mem_together (first.same second), or_assoc]
  · apply union_eq_ok first (second.together t).simplified all
    intro p
    rw [points, mem_simplified, mem_together (second.same third)]

theorem exists_cells (line : r.OnAxis) (bounded : ∀ b ∈ r.simplified.parts, b.isBounded = true) :
    ∃ w, ∃ cells : List Cell, r.simplified.walk = .ok w ∧ (∀ n, (w.take n).1 = cells.take n) ∧
      (∀ c, c ∈ cells ↔ r.contains c = true) ∧ cells.Pairwise Cell.Before := by
  obtain ⟨w, lists, run, listed, takes⟩ := Walk.exists_lists r.simplified.solid bounded
  have gaps : r.simplified.parts.Pairwise fun a b => ∀ x y, a.Mem [x] → b.Mem [y] → x < y := by
    rw [parts_eq_map_line line.simplified.one]
    apply List.pairwise_map.mpr
    apply (normal_simplified line).gaps.imp
    intro i j gap x y first second
    rw [Box.mem_line_singleton] at first second
    exact Interval.lt_of_gap gap first second
  have single : ∀ b ∈ r.simplified.parts, ∀ c : Cell, b.Mem (c.map Coord.val) → ∃ x, c = [x] := by
    intro b part c inside
    apply List.length_eq_one_iff.mp
    rw [← List.length_map Coord.val, Box.length_of_mem inside, r.simplified.sameDim b part]
    exact line.one
  refine ⟨w, lists.flatten, run, takes, fun c => ?_, ?_⟩
  · rw [contains_iff, ← mem_simplified, List.mem_flatten]
    constructor
    · rintro ⟨cells, list, here⟩
      obtain ⟨b, part, lists⟩ := exists_of_forall₂ listed list
      exact ⟨b, part, (lists.mem c).mp here⟩
    · rintro ⟨b, part, inside⟩
      obtain ⟨cells, list, lists⟩ := exists_of_forall₂ (List.Forall₂.flip listed) part
      exact ⟨cells, list, (lists.mem c).mpr inside⟩
  · apply List.pairwise_flatten.mpr
    constructor
    · intro cells list
      obtain ⟨b, _, lists⟩ := exists_of_forall₂ listed list
      exact lists.sorted
    · apply pairwise_of_forall₂ listed _ gaps
      intro a left b right first second listA listB order c inA d inB
      have heldA := (listA.mem c).mp inA
      have heldB := (listB.mem d).mp inB
      obtain ⟨x, rfl⟩ := single a left c heldA
      obtain ⟨y, rfl⟩ := single b right d heldB
      exact .rel (order _ _ heldA heldB)

/-- Simplifying a region on one axis brings it into its one normal form: intervals in increasing
    order with gaps between them, and a promise. Regions get the same form exactly when they have the
    same points. So neither order nor grouping matters to a union, a simplified region is its own
    union with itself, and a walk over one that is bounded meets each cell once, the lower before the
    higher. -/
theorem simplified_canonical (first : r.OnAxis) (second : s.OnAxis) (third : t.OnAxis) :
    ((∀ p, r.simplified.Mem p ↔ r.Mem p) ∧ r.simplified.shape.IsLinear ∧
      r.simplified.disjoint = true ∧
      ∃ is, r.simplified.parts = is.map Box.line ∧ Interval.Normal is) ∧
    (r.simplified = s.simplified ↔ ∀ p, r.Mem p ↔ s.Mem p) ∧
    (∃ rs, r.union s = .ok rs ∧ s.union r = .ok rs) ∧
    (∃ rs st u, r.union s = .ok rs ∧ s.union t = .ok st ∧ rs.union t = .ok u ∧
      r.union st = .ok u) ∧
    r.simplified.union r.simplified = .ok r.simplified ∧
    ((∀ b ∈ r.simplified.parts, b.isBounded = true) →
      ∃ w, ∃ cells : List Cell, r.simplified.walk = .ok w ∧ (∀ n, (w.take n).1 = cells.take n) ∧
        (∀ c, c ∈ cells ↔ r.contains c = true) ∧ cells.Pairwise Cell.Before) := by
  refine ⟨⟨fun p => mem_simplified, ?_, rfl, ?_⟩, simplified_eq_iff first second, ?_,
    union_assoc first second third, ?_, exists_cells first⟩
  · have one := first.simplified.one
    rw [isLinear_shape_iff]
    omega
  · exact ⟨_, parts_eq_map_line first.simplified.one, normal_simplified first⟩
  · exact ⟨_, union_pair (first.same second),
      (union_comm second first).trans (union_pair (first.same second))⟩
  · rw [union_self first.simplified, simplified_simplified first]

end Region

namespace Sample

def pieces : Region := .ofParts 1
  ([side 5 2, side 2 3, .span .negInf (.finite (coord 3)), side 3 1].map Box.line) false

def ray : Region := .ofInterval (.span .negInf (.finite (coord 7)))

def islands : Region := .ofParts 1 ([side 9 3, side 1 2, side 3 1, side 10 1].map Box.line) false

end Sample

namespace Region

theorem simplified_canonical_pieces : Sample.pieces.OnAxis ∧ Sample.ray.OnAxis ∧
    Sample.islands.OnAxis ∧ Sample.pieces.simplified = Sample.ray.simplified ∧
    Sample.islands.simplified.parts.all Box.isBounded = true ∧
    ∃ w, ∃ cells : List Cell, Sample.islands.simplified.walk = .ok w ∧
      (∀ n, (w.take n).1 = cells.take n) ∧ cells.Pairwise Cell.Before := by
  have first : Sample.pieces.OnAxis := ⟨rfl, gathered_truthful 1 _⟩
  have second : Sample.ray.OnAxis := ⟨rfl, fun _ => ofBox_apart _⟩
  have third : Sample.islands.OnAxis := ⟨rfl, gathered_truthful 1 _⟩
  have same : Sample.pieces.samePoints Sample.ray = true := by decide +kernel
  have bounded : Sample.islands.simplified.parts.all Box.isBounded = true := by cbv
  obtain ⟨_, equal, _⟩ := simplified_canonical first second third
  obtain ⟨_, _, _, _, _, walks⟩ := simplified_canonical third second first
  obtain ⟨w, cells, run, takes, _, sorted⟩ := walks (List.all_eq_true.mp bounded)
  exact ⟨first, second, third, equal.mpr (samePoints_iff.mp same).2, bounded, w, cells, run, takes,
    sorted⟩

end Region

end GridRegions
