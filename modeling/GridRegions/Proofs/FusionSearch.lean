import GridRegions.Proofs.Adjacency
import GridRegions.Proofs.Fusion

/-!
The search for parts to fuse is complete. It looks at each pair from both sides, and what a pair
leaves does not depend on the side; so where it finds nothing, no two parts side by side can be
replaced by the box around them for fewer parts, unless both reach a limit of the coordinates.
-/
namespace GridRegions

theorem mem_picks {α : Type} (before after : List α) (a : α) :
    (a, before ++ after) ∈ picks (before ++ a :: after) := by
  induction before with
  | nil => exact List.mem_cons_self
  | cons b before ih => exact List.mem_cons_of_mem _ (List.mem_map.mpr ⟨_, ih, rfl⟩)

theorem mem_pairPicks {α : Type} {a b : α} {as others rest : List α} (first : (a, others) ∈ picks as)
    (second : (b, rest) ∈ picks others) : (a, b, rest) ∈ pairPicks as :=
  List.mem_flatMap.mpr ⟨_, first, List.mem_map.mpr ⟨_, second, rfl⟩⟩

theorem mem_pairPicks_both {α : Type} (before between after : List α) (a b : α) :
    (a, b, before ++ (between ++ after)) ∈ pairPicks (before ++ a :: (between ++ b :: after)) ∧
    (b, a, before ++ (between ++ after)) ∈ pairPicks (before ++ a :: (between ++ b :: after)) := by
  constructor
  · apply mem_pairPicks (mem_picks before (between ++ b :: after) a)
    have second := mem_picks (before ++ between) after b
    rwa [List.append_assoc, List.append_assoc] at second
  · have first := mem_picks (before ++ a :: between) after b
    rw [List.append_assoc, List.append_assoc] at first
    exact mem_pairPicks first (mem_picks before (between ++ after) a)

theorem exists_pairPicks {α : Type} {a b : α} {as : List α} (first : a ∈ as) (second : b ∈ as)
    (differ : a ≠ b) : ∃ rest, (a, b, rest) ∈ pairPicks as ∧ (b, a, rest) ∈ pairPicks as := by
  obtain ⟨before, after, rfl⟩ := List.append_of_mem first
  rcases List.mem_append.mp second with earlier | later
  · obtain ⟨before, between, rfl⟩ := List.append_of_mem earlier
    have both := mem_pairPicks_both before between after b a
    rw [List.append_assoc, List.cons_append]
    exact ⟨_, both.symm⟩
  · have later : b ∈ after := (List.mem_cons.mp later).resolve_left differ.symm
    obtain ⟨between, after, rfl⟩ := List.append_of_mem later
    exact ⟨_, mem_pairPicks_both before between after a b⟩

theorem Interval.hull_comm (a b : Interval) : a.hull b = b.hull a := by
  unfold hull
  cases left : a.isEmpty with
  | true =>
    cases right : b.isEmpty with
    | true => simp [(isEmpty_eq_true_iff a).mp left, (isEmpty_eq_true_iff b).mp right]
    | false => simp
  | false =>
    cases right : b.isEmpty with
    | true => simp
    | false =>
      apply eq_of_mem_iff
      intro x
      simp only [Bool.false_eq_true, ↓reduceIte, mem_span, Endpoint.atMost_min, Endpoint.atMost_max]
      rw [or_comm, and_comm (a := a.stop.AtMost x)]

namespace Box

variable {dim : Nat} {parts rest others : List Box} {a b : Box}

theorem hull_comm (left : a.isEmpty = false) (right : b.isEmpty = false) : a.hull b = b.hull a := by
  rw [hull, hull, left, right, List.zipWith_comm_of_comm Interval.hull_comm]
  rfl

theorem merge_comm (left : a.isEmpty = false) (right : b.isEmpty = false) (rest : List Box) :
    a.merge b rest = b.merge a rest := by
  rw [merge, merge, hull_comm left right]

theorem length_merge (a b : Box) (rest : List Box) :
    (a.merge b rest).length = (rest.flatMap (·.carve (a.hull b))).length + 1 := by
  rw [merge, carveAll_singleton, List.length_append, List.length_singleton]

theorem length_merge_perm (perm : rest.Perm others) (a b : Box) :
    (a.merge b rest).length = (a.merge b others).length := by
  rw [length_merge, length_merge, (perm.flatMap_right _).length_eq]

theorem length_le_merge (stop : fuse? parts = none) (pick : (a, b, rest) ∈ pairPicks parts)
    (touch : a.touches b = true) (covered : (a.hull b).isCovered parts = true) :
    parts.length ≤ (a.merge b rest).length := by
  have passed := List.findSome?_eq_none_iff.mp stop _ pick
  simpa [touch, covered] using passed

theorem Apart.ne (apart : a.Apart b) (solid : a.isEmpty = false) : a ≠ b := by
  obtain ⟨p, inside⟩ := Axes.exists_mem solid
  rintro rfl
  exact apart p ⟨inside, inside⟩

/- Where one of two parts side by side is away from the limits, the search meets the pair from its
   side. -/
theorem length_le_or_atLimit (parted : Parted dim parts) (stop : fuse? parts = none)
    (perm : (a :: b :: rest).Perm parts) (adjacent : a.Adjacent b)
    (inside : ∀ p, (a.hull b).Mem p → ∃ c ∈ parts, c.Mem p) :
    parts.length ≤ (a.merge b rest).length ∨ a.AtLimit ∧ b.AtLimit := by
  obtain ⟨left, right, same, apart⟩ := (parted.perm perm).pair
  have partA : a ∈ parts := perm.mem_iff.mp List.mem_cons_self
  have partB : b ∈ parts := perm.mem_iff.mp (List.mem_cons_of_mem a List.mem_cons_self)
  obtain ⟨others, first, second⟩ := exists_pairPicks partA partB (apart.ne left)
  have rests : rest.Perm others :=
    (perm.trans (perm_of_mem_pairPicks first).symm).cons_inv.cons_inv
  have covered : (a.hull b).isCovered parts = true := by
    refine (isCovered_iff fun c part => ?_).mpr inside
    rw [dim_hull same, parted.dims a partA, parted.dims c part]
  rw [length_merge_perm rests]
  by_cases limitA : a.AtLimit
  · by_cases limitB : b.AtLimit
    · exact .inr ⟨limitA, limitB⟩
    · refine .inl ?_
      rw [merge_comm left right]
      rw [hull_comm left right] at covered
      apply length_le_merge stop second _ covered
      exact (touches_iff same.symm right).mpr ⟨adjacent.symm, limitB⟩
  · refine .inl (length_le_merge stop first ?_ covered)
    exact (touches_iff same left).mpr ⟨adjacent, limitA⟩

/- The other parts have nothing in common with the two, nor then with the box around them. -/
theorem length_merge_of_filled (parted : Parted dim (a :: b :: rest))
    (filled : ∀ p, (a.hull b).Mem p → a.Mem p ∨ b.Mem p) :
    (a.merge b rest).length = rest.length + 1 := by
  obtain ⟨_, _, same, _⟩ := parted.pair
  obtain ⟨fromA, apart⟩ := List.pairwise_cons.mp parted.apart
  obtain ⟨fromB, _⟩ := List.pairwise_cons.mp apart
  have whole : ∀ c ∈ rest, c.carve (a.hull b) = [c] := by
    intro c member
    have later : c ∈ b :: rest := List.mem_cons_of_mem b member
    apply carve_of_apart
    · rw [dim_hull same, parted.dims a List.mem_cons_self]
      exact parted.dims c (List.mem_cons_of_mem a later)
    · intro p both
      rcases filled p both.2 with inA | inB
      · exact fromA c later p ⟨inA, both.1⟩
      · exact fromB c member p ⟨inB, both.1⟩
  rw [length_merge, List.flatMap_congr whole, List.flatMap_singleton']

theorem atLimit_of_filled (parted : Parted dim parts) (stop : fuse? parts = none)
    (perm : (a :: b :: rest).Perm parts)
    (filled : ∀ p, (a.hull b).Mem p → a.Mem p ∨ b.Mem p) : a.AtLimit ∧ b.AtLimit := by
  have listed := parted.perm perm
  obtain ⟨left, right, same, _⟩ := listed.pair
  have adjacent := adjacent_of_filled same left right filled
  have inside : ∀ p, (a.hull b).Mem p → ∃ c ∈ parts, c.Mem p := by
    intro p held
    rcases filled p held with inA | inB
    · exact ⟨a, perm.mem_iff.mp List.mem_cons_self, inA⟩
    · exact ⟨b, perm.mem_iff.mp (List.mem_cons_of_mem a List.mem_cons_self), inB⟩
  apply (length_le_or_atLimit parted stop perm adjacent inside).resolve_left
  have lengths := perm.length_eq
  rw [length_merge_of_filled listed filled, ← lengths, List.length_cons, List.length_cons]
  omega

end Box

namespace Region

/-- Take two parts of a simplified region that lie side by side, and whose surrounding box lies inside
    it. To put that box in their place and cut it out of all others does not lower the number of
    parts, or else both of them reach a limit of the coordinates. In particular two parts that fill
    the box around them both reach one. -/
theorem simplified_settled {r : Region} (many : 2 ≤ r.dim) (truthful : r.Truthful)
    {a b : Box} {rest : List Box} (perm : (a :: b :: rest).Perm r.simplified.parts) :
    (a.Adjacent b → (∀ p, (a.hull b).Mem p → r.simplified.Mem p) →
      r.simplified.parts.length ≤ (rest.flatMap (·.carve (a.hull b)) ++ [a.hull b]).length ∨
        a.AtLimit ∧ b.AtLimit) ∧
    ((∀ p, (a.hull b).Mem p ↔ a.Mem p ∨ b.Mem p) → a.AtLimit ∧ b.AtLimit) := by
  have parted := parted_simplified truthful
  have stop := fuse?_simplified (by omega) truthful
  exact ⟨Box.length_le_or_atLimit parted stop perm,
    fun filled => Box.atLimit_of_filled parted stop perm fun p => (filled p).mp⟩

end Region

namespace Sample

def hub : Box := tile 2 2 2 2

def vane : Box := tile 4 3 2 2

def mill : Region := .ofParts 2 [hub, vane, tile 1 4 3 3, tile 4 0 3 3] false

def west : Box := .ofAxes [.span (.finite .lowest) .zero, side 0 1]

def east : Box := .ofAxes [.span .zero (.finite .highest), side 0 1]

/- Both boxes reach a limit, so they stay apart although they fill the box around them. -/
def belt : Region := .ofParts 2 [west, east] false

end Sample

namespace Region

theorem simplified_settled_mill : Sample.mill.Truthful ∧ Sample.belt.Truthful ∧
    Sample.mill.simplified.parts =
      [Sample.hub, Sample.vane, Sample.tile 1 4 3 3, Sample.tile 4 0 3 3] ∧
    Sample.hub.Adjacent Sample.vane ∧
    (∀ p, (Sample.hub.hull Sample.vane).Mem p → Sample.mill.simplified.Mem p) ∧
    4 ≤ ([Sample.tile 1 4 3 3, Sample.tile 4 0 3 3].flatMap
      (·.carve (Sample.hub.hull Sample.vane)) ++ [Sample.hub.hull Sample.vane]).length ∧
    Sample.belt.simplified.parts = [Sample.west, Sample.east] ∧
    (∀ p, (Sample.west.hull Sample.east).Mem p ↔ Sample.west.Mem p ∨ Sample.east.Mem p) ∧
    Sample.west.AtLimit ∧ Sample.east.AtLimit := by
  have first : Sample.mill.Truthful := gathered_truthful 2 _
  have second : Sample.belt.Truthful := gathered_truthful 2 _
  have partsM : Sample.mill.simplified.parts =
      [Sample.hub, Sample.vane, Sample.tile 1 4 3 3, Sample.tile 4 0 3 3] := by decide +kernel
  have partsB : Sample.belt.simplified.parts = [Sample.west, Sample.east] := by decide +kernel
  have adjacent : Sample.hub.Adjacent Sample.vane := by
    refine ⟨[3, 3], [4, 3], ?_, ?_, .cons ?_ (.cons ?_ .nil)⟩
    · exact ⟨by decide, by decide, trivial⟩
    · exact ⟨by decide, by decide, trivial⟩
    · decide
    · decide
  have within : (ofBox (Sample.hub.hull Sample.vane)).isWithin Sample.mill.simplified = true := by
    decide +kernel
  have inside : ∀ p, (Sample.hub.hull Sample.vane).Mem p → Sample.mill.simplified.Mem p := by
    intro p held
    exact (isWithin_iff (by rfl)).mp within p (mem_ofBox.mpr held)
  have same : (ofBox (Sample.west.hull Sample.east)).samePoints Sample.belt = true := by
    decide +kernel
  have filled : ∀ p, (Sample.west.hull Sample.east).Mem p ↔
      Sample.west.Mem p ∨ Sample.east.Mem p := by
    intro p
    rw [← mem_ofBox, (samePoints_iff.mp same).2, ← mem_simplified, Mem, partsB]
    simp
  have free : ¬ Sample.hub.AtLimit := by decide +kernel
  have fewer := (simplified_settled (by decide) first (.of_eq partsM.symm)).1 adjacent inside
  have limits := (simplified_settled (by decide) second (.of_eq partsB.symm)).2 filled
  rw [partsM] at fewer
  exact ⟨first, second, partsM, adjacent, inside, fewer.resolve_right fun both => free both.1,
    partsB, filled, limits⟩

end Region

end GridRegions
