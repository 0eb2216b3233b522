import GridRegions.Proofs.Carving
import GridRegions.Proofs.Counting

/-!
Products of regions. The parts are the products of the parts on either side, those of the first
region varying slowest, so nested products have the same parts in the same order however they are
bracketed.
-/
namespace GridRegions

namespace Box

@[simp] theorem isEmpty_prod (a b : Box) : (a.prod b).isEmpty = (a.isEmpty || b.isEmpty) := by
  rw [prod, isEmpty_ofAxes, List.any_append]
  rfl

theorem prod_prod (a b c : Box) : (a.prod b).prod c = a.prod (b.prod c) := by
  apply eq_of_mem_iff
  · simp only [dim_prod, Nat.add_assoc]
  · intro p
    constructor
    · intro member
      obtain ⟨_, third, rfl, both, inC⟩ := mem_prod.mp member
      obtain ⟨first, second, rfl, inA, inB⟩ := mem_prod.mp both
      exact mem_prod.mpr ⟨first, second ++ third, List.append_assoc first second third, inA,
        mem_prod.mpr ⟨second, third, rfl, inB, inC⟩⟩
    · intro member
      obtain ⟨first, _, rfl, inA, both⟩ := mem_prod.mp member
      obtain ⟨second, third, rfl, inB, inC⟩ := mem_prod.mp both
      exact mem_prod.mpr ⟨first ++ second, third, (List.append_assoc first second third).symm,
        mem_prod.mpr ⟨first, second, rfl, inA, inB⟩, inC⟩

end Box

namespace Region

variable {r s : Region}

@[simp] theorem dim_prod (r s : Region) : (r.prod s).dim = r.dim + s.dim := rfl

theorem parts_prod (r s : Region) :
    (r.prod s).parts = r.parts.flatMap fun a => s.parts.map a.prod := by
  apply parts_ofParts _ (dims_prod r s)
  intro c member
  obtain ⟨a, left, made⟩ := List.mem_flatMap.mp member
  obtain ⟨b, right, rfl⟩ := List.mem_map.mp made
  rw [Box.isEmpty_prod, r.solid a left, s.solid b right]
  rfl

theorem isEmpty_prod (r s : Region) : (r.prod s).isEmpty = (r.isEmpty || s.isEmpty) := by
  rw [Bool.eq_iff_iff, Bool.or_eq_true]
  simp only [isEmpty, parts_prod, List.isEmpty_iff, List.flatMap_eq_nil_iff, List.map_eq_nil_iff]
  constructor
  · intro none
    cases parts : r.parts with
    | nil => exact .inl rfl
    | cons a as => exact .inr (none a (by simp [parts]))
  · intro either a part
    cases either with
    | inl none => simp [none] at part
    | inr none => exact none

theorem disjoint_of_isEmpty (void : r.isEmpty = true) : r.disjoint = true := by
  apply r.settled
  rw [List.isEmpty_iff.mp void]
  exact Nat.zero_lt_two

/- One part in all comes from one part on either side, and one part is no broken promise. -/
theorem disjoint_prod (left : r.isEmpty = false) (right : s.isEmpty = false) :
    (r.prod s).disjoint = (r.disjoint && s.disjoint) := by
  have firsts : 0 < r.parts.length := List.length_pos_iff.mpr (List.isEmpty_eq_false_iff.mp left)
  have seconds : 0 < s.parts.length := List.length_pos_iff.mpr (List.isEmpty_eq_false_iff.mp right)
  have count : (r.prod s).parts.length = r.parts.length * s.parts.length := by
    simp [parts_prod, List.length_flatMap]
  apply disjoint_ofParts
  intro few
  have single : r.parts.length * s.parts.length < 2 := count ▸ few
  have one := Nat.le_mul_of_pos_right r.parts.length seconds
  have other := Nat.le_mul_of_pos_left s.parts.length firsts
  rw [r.settled (by omega), s.settled (by omega)]
  rfl

theorem parts_prod_prod (r s t : Region) :
    ((r.prod s).prod t).parts = (r.prod (s.prod t)).parts := by
  calc ((r.prod s).prod t).parts
      = r.parts.flatMap fun a => s.parts.flatMap fun b => t.parts.map (a.prod b).prod := by
        simp only [parts_prod, List.flatMap_assoc, List.flatMap_map]
    _ = r.parts.flatMap fun a => s.parts.flatMap fun b => t.parts.map fun c => a.prod (b.prod c) := by
        simp only [← Box.prod_prod]
    _ = (r.prod (s.prod t)).parts := by
        simp only [parts_prod, List.map_flatMap, List.map_map]
        rfl

theorem disjoint_prod_prod (r s t : Region) :
    ((r.prod s).prod t).disjoint = (r.prod (s.prod t)).disjoint := by
  cases void : r.isEmpty || s.isEmpty || t.isEmpty with
  | true =>
    have left : ((r.prod s).prod t).isEmpty = true := by rw [isEmpty_prod, isEmpty_prod, void]
    have right : (r.prod (s.prod t)).isEmpty = true := by
      rw [isEmpty_prod, isEmpty_prod, ← Bool.or_assoc, void]
    rw [disjoint_of_isEmpty left, disjoint_of_isEmpty right]
  | false =>
    obtain ⟨both, third⟩ := Bool.or_eq_false_iff.mp void
    obtain ⟨first, second⟩ := Bool.or_eq_false_iff.mp both
    have inner : (r.prod s).isEmpty = false := (isEmpty_prod r s).trans both
    have outer : (s.prod t).isEmpty = false := by rw [isEmpty_prod, second, third]; rfl
    rw [disjoint_prod inner third, disjoint_prod first second, disjoint_prod first outer,
      disjoint_prod second third, Bool.and_assoc]

theorem mem_prod {p : List Int} :
    (r.prod s).Mem p ↔ ∃ q q', p = q ++ q' ∧ r.Mem q ∧ s.Mem q' := by
  unfold Mem
  rw [parts_prod]
  constructor
  · intro ⟨c, member, inside⟩
    obtain ⟨a, left, made⟩ := List.mem_flatMap.mp member
    obtain ⟨b, right, rfl⟩ := List.mem_map.mp made
    obtain ⟨q, q', eq, inA, inB⟩ := Box.mem_prod.mp inside
    exact ⟨q, q', eq, ⟨a, left, inA⟩, b, right, inB⟩
  · intro ⟨q, q', eq, ⟨a, left, inA⟩, b, right, inB⟩
    exact ⟨a.prod b, List.mem_flatMap.mpr ⟨a, left, List.mem_map.mpr ⟨b, right, rfl⟩⟩,
      Box.mem_prod.mpr ⟨q, q', eq, inA, inB⟩⟩

theorem mem_prod_prod {t : Region} {p : List Int} : ((r.prod s).prod t).Mem p ↔
    ∃ a b c, p = a ++ b ++ c ∧ r.Mem a ∧ s.Mem b ∧ t.Mem c := by
  rw [mem_prod]
  constructor
  · intro ⟨_, c, eq, both, third⟩
    obtain ⟨a, b, rfl, first, second⟩ := mem_prod.mp both
    exact ⟨a, b, c, eq, first, second, third⟩
  · intro ⟨a, b, c, eq, first, second, third⟩
    exact ⟨a ++ b, c, eq, mem_prod.mpr ⟨a, b, rfl, first, second⟩, third⟩

/-- Products may be bracketed either way: the parts are the same ones in the same order, and so is the
    promise. An empty factor leaves the empty region of all axes. Either product has the points of
    the three regions put together. -/
theorem prod_assoc (r s t : Region) : (r.prod s).prod t = r.prod (s.prod t) ∧
    ∀ p, ((r.prod s).prod t).Mem p ↔ ∃ a b c, p = a ++ b ++ c ∧ r.Mem a ∧ s.Mem b ∧ t.Mem c :=
  ⟨Region.ext (Nat.add_assoc r.dim s.dim t.dim) (parts_prod_prod r s t) (disjoint_prod_prod r s t),
    fun _ => mem_prod_prod⟩

/- All points of `r` have one length, so a point of the product comes from one pair only. -/
theorem encard_prod (r s : Region) :
    {p | (r.prod s).Mem p}.encard = {p | r.Mem p}.encard * {p | s.Mem p}.encard := by
  have pairs : {p | (r.prod s).Mem p} =
      (fun q : List Int × List Int => q.1 ++ q.2) '' ({p | r.Mem p} ×ˢ {p | s.Mem p}) := by
    apply Set.ext
    intro p
    constructor
    · intro member
      obtain ⟨q, q', eq, left, right⟩ := mem_prod.mp member
      exact ⟨(q, q'), ⟨left, right⟩, eq.symm⟩
    · intro ⟨pair, both, eq⟩
      exact mem_prod.mpr ⟨pair.1, pair.2, eq.symm, both.1, both.2⟩
  have single : Set.InjOn (fun q : List Int × List Int => q.1 ++ q.2)
      ({p | r.Mem p} ×ˢ {p | s.Mem p}) := by
    intro pair both pair' both' eq
    have lengths : pair.1.length = pair'.1.length :=
      (length_of_mem both.1).trans (length_of_mem both'.1).symm
    obtain ⟨firsts, seconds⟩ := List.append_inj eq lengths
    exact Prod.ext firsts seconds
  rw [pairs, single.encard_image, Set.encard_prod]

/-- The product of two regions, whatever their shapes, has each point of the first one followed by each
    of the second one and no others. If it promises parts without a common point it keeps that, and it
    promises so whenever both regions do. It has as many points as the two numbers multiplied, none
    if a region is empty, and counts them up to the cap. -/
theorem prod_exact (left : r.Truthful) (right : s.Truthful) :
    (r.prod s).dim = r.dim + s.dim ∧
    (∀ p, (r.prod s).Mem p ↔ ∃ q q', p = q ++ q' ∧ r.Mem q ∧ s.Mem q') ∧
    ((r.prod s).disjoint = true → (r.prod s).components.Pairwise Box.Apart) ∧
    (r.disjoint = true → s.disjoint = true → (r.prod s).disjoint = true) ∧
    ((r.prod s).size : ℕ∞) = min ({p | r.Mem p}.encard * {p | s.Mem p}.encard) Count.cap := by
  have truthful := prod_truthful left right
  refine ⟨dim_prod r s, fun p => mem_prod, fun flag => components_apart (truthful flag), ?_, ?_⟩
  · intro first second
    simp [prod, ofParts, first, second]
  · rw [size_eq_encard truthful, encard_prod]

end Region

namespace Sample

def rungs : Region := .ofParts 1 [.line (side 0 2), .line (side 5 1)] true

end Sample

namespace Region

theorem prod_exact_stairs : Sample.stairs.Truthful ∧ Sample.rungs.Truthful ∧
    {p | Sample.stairs.Mem p}.encard = 7 ∧ {p | Sample.rungs.Mem p}.encard = 3 ∧
    (Sample.stairs.prod Sample.rungs).parts.length = 4 ∧
    (Sample.stairs.prod Sample.rungs).disjoint = false ∧
    (Sample.stairs.prod Sample.rungs).size = 21 := by
  have first : Sample.stairs.Truthful := gathered_truthful 2 _
  have second : Sample.rungs.Truthful := by
    apply truthful_ofParts
    intro _
    apply parts_ofParts_apart
    apply List.pairwise_pair.mpr
    apply Box.line_apart
    intro x both
    exact both.1.2 (both.2.1.of_le (by decide))
  have seven : Sample.stairs.size = 7 := by decide +kernel
  have three : Sample.rungs.size = 3 := by decide +kernel
  have left := size_eq_encard first
  have right := size_eq_encard second
  rw [seven] at left
  rw [three] at right
  have left := Count.eq_of_lt_cap (by decide) left
  have right := Count.eq_of_lt_cap (by decide) right
  obtain ⟨_, _, _, _, count⟩ := prod_exact first second
  rw [left, right] at count
  have small : ((7 : Nat) * (3 : Nat) : ℕ∞) ≤ Count.cap := by
    exact_mod_cast (by decide : 7 * 3 ≤ Count.cap)
  rw [min_eq_left small] at count
  exact ⟨first, second, left, right, by decide +kernel, by decide +kernel, by exact_mod_cast count⟩

end Region

end GridRegions
