import GridRegions.Region.Points
import GridRegions.Region.Separation

/-!
Boxes without a common point. What carving, complements and common parts leave of boxes that share
no point shares none either, so regions keep their promise through these operations.
-/
namespace GridRegions

namespace Interval

def Apart (a b : Interval) : Prop := ∀ x, ¬ (a.Mem x ∧ b.Mem x)

theorem apart_sides {i : Interval} (solid : i.isEmpty = false) :
    (span .negInf i.start).Apart (span i.stop .posInf) := by
  intro x both
  have before := (mem_span.mp both.1).2
  have after := (mem_span.mp both.2).1
  exact before (after.of_le (Endpoint.le_of_lt ((isEmpty_eq_false_iff i).mp solid)))

theorem complement_apart (i : Interval) : i.complement.Pairwise Apart := by
  unfold complement
  split
  · exact List.pairwise_singleton _ _
  · rename_i solid
    apply List.Pairwise.filter
    exact List.pairwise_pair.mpr (apart_sides (Bool.not_eq_true _ ▸ solid))

theorem outside_apart (a b : Interval) : (a.outside b).Pairwise Apart := by
  unfold outside
  split
  · exact List.pairwise_singleton _ _
  · rename_i solid
    apply List.Pairwise.filter
    apply List.pairwise_pair.mpr
    intro x both
    exact apart_sides (Bool.not_eq_true _ ▸ solid) x
      ⟨(mem_inter.mp both.1).1, (mem_inter.mp both.2).1⟩

end Interval

namespace Axes

def Apart (as bs : List Interval) : Prop := ∀ p, ¬ (Mem as p ∧ Mem bs p)

theorem apart_of_head {a b : Interval} {as bs : List Interval} (heads : a.Apart b) :
    Apart (a :: as) (b :: bs) := by
  intro p both
  cases p with
  | nil => exact both.1
  | cons x xs => exact heads x ⟨both.1.1, both.2.1⟩

theorem apart_of_tail {a b : Interval} {as bs : List Interval} (tails : Apart as bs) :
    Apart (a :: as) (b :: bs) := by
  intro p both
  cases p with
  | nil => exact both.1
  | cons x xs => exact tails xs ⟨both.1.2, both.2.2⟩

theorem leftover_apart (as bs : List Interval) : (Box.leftover as bs).Pairwise Apart := by
  induction as generalizing bs with
  | nil => exact .nil
  | cons a as ih =>
    cases bs with
    | nil => exact .nil
    | cons b bs =>
      apply List.pairwise_append.mpr
      refine ⟨?_, ?_, ?_⟩
      · apply List.pairwise_map.mpr
        exact (Interval.outside_apart a b).imp apart_of_head
      · apply List.pairwise_map.mpr
        exact (ih bs).imp apart_of_tail
      · intro left outside right inside
        obtain ⟨i, cut, rfl⟩ := List.mem_map.mp outside
        obtain ⟨rest, _, rfl⟩ := List.mem_map.mp inside
        apply apart_of_head
        intro x both
        exact (Interval.mem_outside.mp ⟨i, cut, both.1⟩).2 (Interval.mem_inter.mp both.2).2

end Axes

namespace Box

theorem Apart.mono {a b c d : Box} (apart : a.Apart b) (left : ∀ p, c.Mem p → a.Mem p)
    (right : ∀ p, d.Mem p → b.Mem p) : c.Apart d :=
  fun p both => apart p ⟨left p both.1, right p both.2⟩

theorem Apart.symm {a b : Box} (apart : a.Apart b) : b.Apart a := fun p both => apart p both.symm

theorem apart_of_isEmpty {a : Box} (void : a.isEmpty = true) (b : Box) : a.Apart b :=
  fun p both => (isEmpty_iff_forall_not_mem a).mp void p both.1

theorem apart_iff_isEmpty_inter {a b : Box} (same : a.dim = b.dim) :
    a.Apart b ↔ (a.inter b).isEmpty = true := by
  rw [isEmpty_iff_forall_not_mem]
  simp only [Apart, mem_inter same]

theorem carve_of_apart {a b : Box} (same : a.dim = b.dim) (apart : a.Apart b) : a.carve b = [a] :=
  if_pos ((apart_iff_isEmpty_inter same).mp apart)

theorem carve_of_meet {a b : Box} (same : a.dim = b.dim) (meet : ¬ a.Apart b) :
    a.carve b = (leftover a.axes b.axes).map ofAxes :=
  if_neg (mt (apart_iff_isEmpty_inter same).mpr meet)

theorem apart_flatMap {bs : List Box} {cut : Box → List Box}
    (inside : ∀ b ∈ bs, ∀ c ∈ cut b, ∀ p, c.Mem p → b.Mem p)
    (within : ∀ b ∈ bs, (cut b).Pairwise Apart) (apart : bs.Pairwise Apart) :
    (bs.flatMap cut).Pairwise Apart := by
  apply List.pairwise_flatMap.mpr
  refine ⟨within, apart.imp_of_mem ?_⟩
  intro a b left right away c first d second
  exact away.mono (inside a left c first) (inside b right d second)

theorem ofAxes_apart {as bs : List Interval} (apart : Axes.Apart as bs) :
    (ofAxes as).Apart (ofAxes bs) :=
  fun p both => apart p ⟨mem_ofAxes.mp both.1, mem_ofAxes.mp both.2⟩

theorem line_apart {i j : Interval} (apart : i.Apart j) : (line i).Apart (line j) := by
  intro p both
  obtain ⟨x, rfl, here⟩ := mem_line.mp both.1
  exact apart x ⟨here, mem_line_singleton.mp both.2⟩

theorem carve_apart (a b : Box) : (a.carve b).Pairwise Apart := by
  unfold carve
  split
  · exact List.pairwise_singleton _ _
  · apply List.pairwise_map.mpr
    exact (Axes.leftover_apart a.axes b.axes).imp ofAxes_apart

theorem complement_apart (b : Box) : b.complement.Pairwise Apart := by
  unfold complement
  split
  · apply List.pairwise_map.mpr
    exact (Interval.complement_apart _).imp line_apart
  · exact carve_apart _ b

theorem carveAll_apart {as bs : List Box} {dim : Nat} (left : ∀ a ∈ as, a.dim = dim)
    (right : ∀ b ∈ bs, b.dim = dim) (apart : as.Pairwise Apart) :
    (carveAll as bs).Pairwise Apart := by
  induction bs generalizing as with
  | nil => exact apart
  | cons b bs ih =>
    have same : ∀ a ∈ as, a.dim = b.dim := fun a member =>
      (left a member).trans (right b List.mem_cons_self).symm
    apply ih
    · intro c member
      obtain ⟨a, source, cut⟩ := List.mem_flatMap.mp member
      exact (dim_of_mem_carve (same a source) cut).trans (left a source)
    · exact fun d member => right d (List.mem_cons_of_mem b member)
    · apply apart_flatMap _ (fun a _ => carve_apart a b) apart
      intro a source c cut p inside
      exact ((mem_carve (same a source)).mp ⟨c, cut, inside⟩).1

theorem apart_map {bs : List Box} {f : Box → Box} (inside : ∀ b ∈ bs, ∀ p, (f b).Mem p → b.Mem p)
    (apart : bs.Pairwise Apart) : (bs.map f).Pairwise Apart := by
  apply List.pairwise_map.mpr
  apply apart.imp_of_mem
  intro a b left right away
  exact away.mono (inside a left) (inside b right)

theorem inside_inter {a b : Box} (same : a.dim = b.dim) (p : List Int) (member : (a.inter b).Mem p) :
    a.Mem p :=
  ((mem_inter same).mp member).1

theorem prod_apart_left {a b c d : Box} (same : a.dim = b.dim) (apart : a.Apart b) :
    (a.prod c).Apart (b.prod d) := by
  intro p both
  obtain ⟨q, r, rfl, first, _⟩ := mem_prod.mp both.1
  obtain ⟨q', r', eq, second, _⟩ := mem_prod.mp both.2
  have lengths : q.length = q'.length :=
    (length_of_mem first).trans (same.trans (length_of_mem second).symm)
  rw [← (List.append_inj eq lengths).1] at second
  exact apart q ⟨first, second⟩

theorem prod_apart_right {a c d : Box} (apart : c.Apart d) : (a.prod c).Apart (a.prod d) := by
  intro p both
  obtain ⟨q, r, rfl, first, third⟩ := mem_prod.mp both.1
  obtain ⟨q', r', eq, second, fourth⟩ := mem_prod.mp both.2
  have lengths : q.length = q'.length := (length_of_mem first).trans (length_of_mem second).symm
  rw [← (List.append_inj eq lengths).2] at fourth
  exact apart r ⟨third, fourth⟩

end Box

namespace Region

theorem parts_ofParts_apart {dim : Nat} {boxes : List Box} (disjoint : Bool)
    (apart : boxes.Pairwise Box.Apart) :
    (ofParts dim boxes disjoint).parts.Pairwise Box.Apart :=
  apart.filter _

theorem pairwise_of_length_lt_two {boxes : List Box} (few : boxes.length < 2) :
    boxes.Pairwise Box.Apart := by
  match boxes with
  | [] => exact .nil
  | [b] => exact List.pairwise_singleton _ b
  | a :: b :: rest =>
    rw [List.length_cons, List.length_cons] at few
    omega

theorem truthful_ofParts {dim : Nat} {boxes : List Box} {disjoint : Bool}
    (apart : disjoint = true → (ofParts dim boxes disjoint).parts.Pairwise Box.Apart) :
    (ofParts dim boxes disjoint).Truthful := by
  intro flag
  by_cases promised : disjoint = true
  · exact apart promised
  · have few : (ofParts dim boxes disjoint).parts.length < 2 := by
      simpa [ofParts, promised] using flag
    exact pairwise_of_length_lt_two few

theorem components_apart {r : Region} (apart : r.parts.Pairwise Box.Apart) :
    r.components.Pairwise Box.Apart := by
  unfold components
  split
  · exact List.pairwise_singleton _ _
  · exact apart

theorem ofBox_apart (b : Box) : (ofBox b).parts.Pairwise Box.Apart :=
  parts_ofParts_apart true (List.pairwise_singleton _ b)

theorem dim_of_mem_complement {r s : Region} (same : r.dim = s.dim) {a c : Box} (part : a ∈ r.parts)
    (side : c ∈ s.complement.parts) : c.dim = a.dim := by
  rw [s.complement.sameDim c side, dim_complement, r.sameDim a part, same]

theorem inter_apart {r s : Region} (same : r.dim = s.dim) (left : r.parts.Pairwise Box.Apart)
    (right : s.parts.Pairwise Box.Apart) : (r.inter s).parts.Pairwise Box.Apart := by
  apply parts_ofParts_apart
  apply Box.apart_flatMap
  · intro a first c made p inside
    obtain ⟨b, second, rfl⟩ := List.mem_map.mp made
    exact ((Box.mem_inter (dim_eq_of_parts same first second)).mp inside).1
  · intro a first
    apply Box.apart_map _ right
    intro b second p inside
    exact ((Box.mem_inter (dim_eq_of_parts same first second)).mp inside).2
  · exact left

theorem remove_apart {r : Region} {b : Box} (same : b.dim = r.dim)
    (apart : r.parts.Pairwise Box.Apart) : (r.remove b).parts.Pairwise Box.Apart := by
  have dims : ∀ a ∈ r.parts, a.dim = b.dim := fun a part => (r.sameDim a part).trans same.symm
  apply parts_ofParts_apart
  apply Box.apart_flatMap
  · intro a part c made p inside
    split at made
    · exact ((Box.mem_map_inter_complement (dims a part)).mp ⟨c, made, inside⟩).1
    · exact ((Box.mem_carve (dims a part)).mp ⟨c, made, inside⟩).1
  · intro a part
    split
    · apply Box.apart_map _ (Box.complement_apart b)
      intro c side
      exact Box.inside_inter ((Box.dim_of_mem_complement side).trans (dims a part).symm)
    · exact Box.carve_apart a b
  · exact apart

theorem removeAll_apart {r : Region} {bs : List Box} (same : ∀ b ∈ bs, b.dim = r.dim)
    (apart : r.parts.Pairwise Box.Apart) : (r.removeAll bs).parts.Pairwise Box.Apart := by
  induction bs generalizing r with
  | nil => exact apart
  | cons b bs ih =>
    apply ih
    · exact fun c later => same c (List.mem_cons_of_mem b later)
    · exact remove_apart (same b List.mem_cons_self) apart

theorem complement_apart (r : Region) : r.complement.parts.Pairwise Box.Apart := by
  unfold complement
  split
  · exact parts_ofParts_apart true (Box.complement_apart _)
  · apply removeAll_apart
    · simpa using r.sameDim
    · exact ofBox_apart _

theorem diff_apart {r s : Region} (same : r.dim = s.dim) (apart : r.parts.Pairwise Box.Apart) :
    (r.diff s).parts.Pairwise Box.Apart := by
  have single : ∀ a ∈ r.parts, ∀ b ∈ s.parts, b.dim = (ofBox a).dim := fun a left b right =>
    (s.sameDim b right).trans (same.symm.trans (r.sameDim a left).symm)
  apply parts_ofParts_apart
  apply Box.apart_flatMap
  · intro a part c made p inside
    split at made
    · obtain ⟨d, side, rfl⟩ := List.mem_map.mp made
      exact ((Box.mem_inter (dim_of_mem_complement same part side)).mp inside).2
    · have left : ((ofBox a).removeAll s.parts).Mem p := ⟨c, made, inside⟩
      exact mem_ofBox.mp ((mem_removeAll (single a part)).mp left).1
  · intro a part
    split
    · apply Box.apart_map _ (complement_apart s)
      intro d side
      exact Box.inside_inter (dim_of_mem_complement same part side)
    · exact removeAll_apart (single a part) (ofBox_apart a)
  · exact apart

theorem prod_apart {r s : Region} (left : r.parts.Pairwise Box.Apart)
    (right : s.parts.Pairwise Box.Apart) : (r.prod s).parts.Pairwise Box.Apart := by
  apply parts_ofParts_apart
  apply List.pairwise_flatMap.mpr
  constructor
  · intro a _
    apply List.pairwise_map.mpr
    exact right.imp Box.prod_apart_right
  · apply left.imp_of_mem
    intro a b first second away c made d made'
    obtain ⟨e, _, rfl⟩ := List.mem_map.mp made
    obtain ⟨f, _, rfl⟩ := List.mem_map.mp made'
    exact Box.prod_apart_left ((r.sameDim a first).trans (r.sameDim b second).symm) away

end Region

end GridRegions
