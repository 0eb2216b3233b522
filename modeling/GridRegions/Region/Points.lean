import GridRegions.Region.Algebra
import GridRegions.Box.Points

/-!
What the algebra of regions does to points.
-/
namespace GridRegions.Region

theorem mem_ofParts {dim : Nat} {boxes : List Box} {disjoint : Bool}
    (same : ∀ b ∈ boxes, b.dim = dim) {p : List Int} :
    (ofParts dim boxes disjoint).Mem p ↔ ∃ b ∈ boxes, b.Mem p := by
  constructor
  · rintro ⟨b, kept, inside⟩
    exact ⟨b, (List.mem_filter.mp kept).1, inside⟩
  · rintro ⟨b, member, inside⟩
    have solid := Box.isEmpty_of_mem inside
    refine ⟨b, List.mem_filter.mpr ⟨member, ?_⟩, inside⟩
    simp [same b member, solid]

theorem parts_ofParts_eq_filter {dim : Nat} {boxes : List Box} (disjoint : Bool)
    (dims : ∀ b ∈ boxes, b.dim = dim) :
    (ofParts dim boxes disjoint).parts = boxes.filter (!·.isEmpty) := by
  apply List.filter_congr
  intro b member
  simp [dims b member]

theorem parts_ofParts {dim : Nat} {boxes : List Box} (disjoint : Bool)
    (dims : ∀ b ∈ boxes, b.dim = dim) (solid : ∀ b ∈ boxes, b.isEmpty = false) :
    (ofParts dim boxes disjoint).parts = boxes := by
  rw [parts_ofParts_eq_filter disjoint dims]
  apply List.filter_eq_self.mpr
  intro b member
  rw [solid b member]
  rfl

theorem assemble?_eq {dim : Nat} {boxes : List Box} (dims : ∀ b ∈ boxes, b.dim = dim)
    (disjoint : Bool) : assemble? dim boxes disjoint = some (ofParts dim boxes disjoint) := by
  apply if_pos
  simpa using dims

theorem length_of_mem {r : Region} {p : List Int} (member : r.Mem p) : p.length = r.dim := by
  obtain ⟨b, part, inside⟩ := member
  exact (Box.length_of_mem inside).trans (r.sameDim b part)

theorem mem_ofBox {b : Box} {p : List Int} : (ofBox b).Mem p ↔ b.Mem p := by
  rw [ofBox, mem_ofParts (by simp)]
  simp

theorem mem_ofParts_flatMap {r : Region} {cut : Box → List Box} {disjoint : Bool}
    {kept : List Int → Prop} (dims : ∀ c ∈ r.parts.flatMap cut, c.dim = r.dim)
    (points : ∀ a ∈ r.parts, ∀ p, (∃ c ∈ cut a, c.Mem p) ↔ a.Mem p ∧ kept p) {p : List Int} :
    (ofParts r.dim (r.parts.flatMap cut) disjoint).Mem p ↔ r.Mem p ∧ kept p := by
  rw [mem_ofParts dims]
  constructor
  · intro ⟨c, member, inside⟩
    obtain ⟨a, part, made⟩ := List.mem_flatMap.mp member
    have both := (points a part p).mp ⟨c, made, inside⟩
    exact ⟨⟨a, part, both.1⟩, both.2⟩
  · intro ⟨⟨a, part, inside⟩, keep⟩
    obtain ⟨c, made, member⟩ := (points a part p).mpr ⟨inside, keep⟩
    exact ⟨c, List.mem_flatMap.mpr ⟨a, part, made⟩, member⟩

@[simp] theorem dim_ofParts (dim : Nat) (boxes : List Box) (disjoint : Bool) :
    (ofParts dim boxes disjoint).dim = dim := rfl

theorem disjoint_ofParts {dim : Nat} {boxes : List Box} {disjoint : Bool}
    (settled : (ofParts dim boxes disjoint).parts.length < 2 → disjoint = true) :
    (ofParts dim boxes disjoint).disjoint = disjoint := by
  change (disjoint || decide ((ofParts dim boxes disjoint).parts.length < 2)) = disjoint
  by_cases few : (ofParts dim boxes disjoint).parts.length < 2
  · rw [settled few, Bool.true_or]
  · rw [decide_eq_false few, Bool.or_false]

@[simp] theorem dim_ofBox (b : Box) : (ofBox b).dim = b.dim := rfl

@[simp] theorem dim_inter (r s : Region) : (r.inter s).dim = r.dim := rfl

@[simp] theorem dim_remove (r : Region) (b : Box) : (r.remove b).dim = r.dim := rfl

@[simp] theorem dim_removeAll (r : Region) (bs : List Box) : (r.removeAll bs).dim = r.dim := by
  induction bs generalizing r with
  | nil => rfl
  | cons b bs ih => exact ih (r.remove b)

@[simp] theorem dim_complement (r : Region) : r.complement.dim = r.dim := by
  unfold complement
  split
  · rfl
  · rw [dim_removeAll, dim_ofBox, Box.dim_whole]

@[simp] theorem dim_diff (r s : Region) : (r.diff s).dim = r.dim := rfl

theorem dim_eq_of_parts {r s : Region} (same : r.dim = s.dim) {a b : Box} (left : a ∈ r.parts)
    (right : b ∈ s.parts) : a.dim = b.dim :=
  (r.sameDim a left).trans (same.trans (s.sameDim b right).symm)

theorem dims_inter {r s : Region} (same : r.dim = s.dim) :
    ∀ c ∈ r.parts.flatMap fun a => s.parts.map fun b => a.inter b, c.dim = r.dim := by
  intro c member
  obtain ⟨a, left, made⟩ := List.mem_flatMap.mp member
  obtain ⟨b, right, rfl⟩ := List.mem_map.mp made
  exact (Box.dim_inter (dim_eq_of_parts same left right)).trans (r.sameDim a left)

theorem mem_inter {r s : Region} (same : r.dim = s.dim) {p : List Int} :
    (r.inter s).Mem p ↔ r.Mem p ∧ s.Mem p := by
  apply mem_ofParts_flatMap (dims_inter same)
  intro a left p
  constructor
  · intro ⟨c, made, inside⟩
    obtain ⟨b, right, rfl⟩ := List.mem_map.mp made
    have both := (Box.mem_inter (dim_eq_of_parts same left right)).mp inside
    exact ⟨both.1, b, right, both.2⟩
  · intro ⟨inA, b, right, inB⟩
    exact ⟨a.inter b, List.mem_map.mpr ⟨b, right, rfl⟩,
      (Box.mem_inter (dim_eq_of_parts same left right)).mpr ⟨inA, inB⟩⟩

theorem dims_remove {r : Region} {b : Box} (same : b.dim = r.dim) :
    ∀ c ∈ r.parts.flatMap fun a =>
      if r.dim = 1 then b.complement.map (·.inter a) else a.carve b, c.dim = r.dim := by
  intro c member
  obtain ⟨a, part, made⟩ := List.mem_flatMap.mp member
  have dim : a.dim = b.dim := (r.sameDim a part).trans same.symm
  split at made
  · obtain ⟨d, side, rfl⟩ := List.mem_map.mp made
    have dimD := Box.dim_of_mem_complement side
    exact (Box.dim_inter (dimD.trans dim.symm)).trans (dimD.trans same)
  · exact (Box.dim_of_mem_carve dim made).trans (r.sameDim a part)

theorem mem_remove {r : Region} {b : Box} (same : b.dim = r.dim) {p : List Int} :
    (r.remove b).Mem p ↔ r.Mem p ∧ ¬ b.Mem p := by
  apply mem_ofParts_flatMap (dims_remove same)
  intro a part p
  have dim : a.dim = b.dim := (r.sameDim a part).trans same.symm
  split
  · exact Box.mem_map_inter_complement dim
  · exact Box.mem_carve dim

theorem mem_removeAll {r : Region} {bs : List Box} (same : ∀ b ∈ bs, b.dim = r.dim)
    {p : List Int} : (r.removeAll bs).Mem p ↔ r.Mem p ∧ ∀ b ∈ bs, ¬ b.Mem p := by
  induction bs generalizing r with
  | nil => simp [removeAll]
  | cons b bs ih =>
    have rest : ∀ c ∈ bs, c.dim = (r.remove b).dim := fun c later =>
      same c (List.mem_cons_of_mem b later)
    change ((r.remove b).removeAll bs).Mem p ↔ _
    rw [ih rest, mem_remove (same b List.mem_cons_self), List.forall_mem_cons, and_assoc]

theorem mem_complement {r : Region} {p : List Int} :
    r.complement.Mem p ↔ p.length = r.dim ∧ ¬ r.Mem p := by
  unfold complement
  split
  · rename_i b single
    have dim : b.dim = r.dim := r.sameDim b (by simp [single])
    have only : r.Mem p ↔ b.Mem p := by simp [Mem, single]
    rw [mem_ofParts fun c side => (Box.dim_of_mem_complement side).trans dim, Box.mem_complement,
      dim, only]
  · have same : ∀ b ∈ r.parts, b.dim = (ofBox (.whole r.dim)).dim := by
      simpa [Box.dim_whole] using r.sameDim
    rw [mem_removeAll same, mem_ofBox, Box.mem_whole]
    simp [Mem]

theorem dims_diff {r s : Region} (same : r.dim = s.dim) :
    ∀ c ∈ r.parts.flatMap fun a => if r.dim = 1 then s.complement.parts.map (·.inter a)
      else ((ofBox a).removeAll s.parts).parts, c.dim = r.dim := by
  intro c member
  obtain ⟨a, part, made⟩ := List.mem_flatMap.mp member
  have dimA := r.sameDim a part
  split at made
  · obtain ⟨d, side, rfl⟩ := List.mem_map.mp made
    have dimD : d.dim = r.dim :=
      (s.complement.sameDim d side).trans ((dim_complement s).trans same.symm)
    exact (Box.dim_inter (dimD.trans dimA.symm)).trans dimD
  · rw [((ofBox a).removeAll s.parts).sameDim c made, dim_removeAll, dim_ofBox, dimA]

theorem mem_diff {r s : Region} (same : r.dim = s.dim) {p : List Int} :
    (r.diff s).Mem p ↔ r.Mem p ∧ ¬ s.Mem p := by
  apply mem_ofParts_flatMap (dims_diff same)
  intro a part p
  have dim := r.sameDim a part
  split
  · have common : ∀ d ∈ s.complement.parts, (d.inter a).Mem p ↔ d.Mem p ∧ a.Mem p := by
      intro d side
      apply Box.mem_inter
      rw [s.complement.sameDim d side, dim_complement, dim, same]
    constructor
    · intro ⟨c, made, inside⟩
      obtain ⟨d, side, rfl⟩ := List.mem_map.mp made
      have both := (common d side).mp inside
      exact ⟨both.2, (mem_complement.mp ⟨d, side, both.1⟩).2⟩
    · intro ⟨inside, away⟩
      have length : p.length = s.dim := (Box.length_of_mem inside).trans (dim.trans same)
      obtain ⟨d, side, member⟩ := mem_complement.mpr ⟨length, away⟩
      exact ⟨d.inter a, List.mem_map.mpr ⟨d, side, rfl⟩, (common d side).mpr ⟨member, inside⟩⟩
  · have sameParts : ∀ b ∈ s.parts, b.dim = (ofBox a).dim := fun b right =>
      (s.sameDim b right).trans (same.symm.trans dim.symm)
    change ((ofBox a).removeAll s.parts).Mem p ↔ _
    rw [mem_removeAll sameParts, mem_ofBox]
    simp [Mem]

theorem dims_prod (r s : Region) :
    ∀ c ∈ r.parts.flatMap fun a => s.parts.map fun b => a.prod b, c.dim = r.dim + s.dim := by
  intro c member
  obtain ⟨a, left, made⟩ := List.mem_flatMap.mp member
  obtain ⟨b, right, rfl⟩ := List.mem_map.mp made
  rw [Box.dim_prod, r.sameDim a left, s.sameDim b right]

theorem contains_iff {r : Region} {c : Cell} : r.contains c = true ↔ r.Mem (c.map Coord.val) := by
  simp only [contains, List.any_eq_true, Box.contains_iff, Mem]

theorem isEmpty_iff_forall_not_mem (r : Region) : r.isEmpty = true ↔ ∀ p, ¬ r.Mem p := by
  constructor
  · rintro none p ⟨b, part, _⟩
    rw [List.isEmpty_iff.mp none] at part
    exact absurd part (List.not_mem_nil)
  · intro none
    cases parts : r.parts with
    | nil => simp [isEmpty, parts]
    | cons b rest =>
      have part : b ∈ r.parts := by simp [parts]
      have void : b.isEmpty = true := (Box.isEmpty_iff_forall_not_mem b).mpr fun p inside =>
        none p ⟨b, part, inside⟩
      exact absurd void (by simp [r.solid b part])

theorem dim_of_mem_components {r : Region} {b : Box} (member : b ∈ r.components) :
    b.dim = r.dim := by
  unfold components at member
  split at member
  · rw [List.mem_singleton.mp member, Box.dim_empty]
  · exact r.sameDim b member

theorem mem_components {r : Region} (positive : 0 < r.dim) {p : List Int} :
    (∃ b ∈ r.components, b.Mem p) ↔ r.Mem p := by
  unfold components
  split
  · rename_i none
    have never := (isEmpty_iff_forall_not_mem r).mp none p
    simp [Box.not_mem_empty positive, never]
  · exact Iff.rfl

theorem isWithin_iff {r s : Region} (same : r.dim = s.dim) :
    r.isWithin s = true ↔ ∀ p, r.Mem p → s.Mem p := by
  have dim : s.complement.dim = r.dim := (dim_complement s).trans same.symm
  rw [isWithin, isEmpty_iff_forall_not_mem]
  refine forall_congr' fun p => ?_
  rw [mem_inter dim, mem_complement]
  constructor
  · intro never inside
    have length : p.length = s.dim := (length_of_mem inside).trans same
    exact Classical.byContradiction fun away => never ⟨⟨length, away⟩, inside⟩
  · intro within outside
    exact outside.1.2 (within outside.2)

theorem isWithin_ofBox {r : Region} {a : Box} (same : a.dim = r.dim) :
    (ofBox a).isWithin r = a.isCovered r.parts := by
  have dims : ∀ b ∈ r.parts, b.dim = a.dim := fun b part => (r.sameDim b part).trans same.symm
  rw [Bool.eq_iff_iff, isWithin_iff same, Box.isCovered_iff dims]
  simp only [mem_ofBox]
  rfl

end GridRegions.Region
