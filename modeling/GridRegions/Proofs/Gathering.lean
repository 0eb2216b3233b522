import GridRegions.Proofs.Difference
import GridRegions.Proofs.Promise

/-!
Gathering regions does not depend on how they are nested. A region that is gathered has the parts
of all regions in order, and no empty one, so to gather it again with others adds just these
parts, also where there is one part left or none.
-/
namespace GridRegions

namespace Region

variable {r : Region} {rs : List Region} {dim : Nat}

theorem eq_empty_of_parts (positive : 0 < r.dim) (none : r.parts = []) : r = .empty r.dim := by
  rw [empty, if_neg (Nat.ne_of_gt positive)]
  apply Region.ext
  · exact (Box.dim_empty r.dim).symm
  · rw [none, parts_ofBox_of_isEmpty (Box.isEmpty_empty positive)]
  · exact r.settled (none ▸ Nat.two_pos)

theorem eq_empty_of_forall_not_mem (positive : 0 < r.dim) (never : ∀ p, ¬ r.Mem p) :
    r = .empty r.dim :=
  eq_empty_of_parts positive (List.isEmpty_iff.mp ((isEmpty_iff_forall_not_mem r).mpr never))

theorem eq_ofBox_of_parts {b : Box} (single : r.parts = [b]) : r = ofBox b := by
  have part : b ∈ r.parts := single ▸ List.mem_singleton_self b
  apply Region.ext
  · exact (r.sameDim b part).symm
  · rw [single, parts_ofBox (r.solid b part)]
  · exact r.settled (single ▸ Nat.one_lt_two)

theorem filter_components (positive : 0 < r.dim) :
    r.components.filter (!·.isEmpty) = r.parts := by
  unfold components
  split
  · rename_i none
    have void := Box.isEmpty_empty positive
    rw [List.isEmpty_iff.mp none, List.filter_cons_of_neg (by simp [void]), List.filter_nil]
  · apply List.filter_eq_self.mpr
    intro b part
    simp [r.solid b part]

theorem filter_flatMap_components (positive : ∀ r ∈ rs, 0 < r.dim) :
    (rs.flatMap components).filter (!·.isEmpty) = rs.flatMap parts := by
  rw [List.filter_flatMap]
  apply List.flatMap_congr
  intro r listed
  exact filter_components (positive r listed)

/-- The parts of all regions in order, without a promise. -/
def gathered (dim : Nat) (rs : List Region) : Region := ofParts dim (rs.flatMap parts) false

theorem parts_gathered_of_dims (dims : ∀ r ∈ rs, r.dim = dim) :
    (gathered dim rs).parts = rs.flatMap parts := by
  cases rs with
  | nil => rfl
  | cons r rest =>
    obtain ⟨rfl, later⟩ := List.forall_mem_cons.mp dims
    exact parts_gathered later

theorem gather_of_dims (some : rs ≠ []) (dims : ∀ r ∈ rs, r.dim = dim) :
    gather rs false = .ok (gathered dim rs) := by
  cases rs with
  | nil => exact absurd rfl some
  | cons r rest =>
    obtain ⟨rfl, later⟩ := List.forall_mem_cons.mp dims
    exact gather_of_same later false

theorem gather_of_differ {rest : List Region} (differ : ∃ s ∈ rest, s.dim ≠ r.dim) :
    ∃ before s later, rest = before ++ s :: later ∧ (∀ t ∈ before, t.dim = r.dim) ∧
      s.dim ≠ r.dim ∧ gather (r :: rest) false = .error (.dimensionMismatch r.dim s.dim) := by
  have found : (rest.find? fun s => s.dim != r.dim).isSome = true := by
    simpa [List.find?_isSome] using differ
  obtain ⟨s, first⟩ := Option.isSome_iff_exists.mp found
  obtain ⟨other, before, later, split, same⟩ := List.find?_eq_some_iff_append.mp first
  refine ⟨before, s, later, split, by simpa using same, by simpa using other, ?_⟩
  rw [gather_eq, first]

/- Groups of regions may be gathered first, each on its own. Every group leaves all of its parts, so
   these come in the same order as from the regions themselves. -/
theorem gathered_flatten {groups : List (List Region)} (dims : ∀ g ∈ groups, ∀ r ∈ g, r.dim = dim) :
    gathered dim (groups.map (gathered dim)) = gathered dim groups.flatten := by
  have parts : (groups.map (gathered dim)).flatMap parts = groups.flatten.flatMap parts := by
    rw [List.flatMap_map, List.flatten_eq_flatMap, List.flatMap_assoc]
    apply List.flatMap_congr
    intro g listed
    exact parts_gathered_of_dims (dims g listed)
  rw [gathered, parts]
  rfl

/-- The region has the components of all regions that are not empty, in order. Without any it is the
    empty region, with one it is that box, and with more it is a union that promises nothing. -/
structure Gathers (dim : Nat) (rs : List Region) (t : Region) : Prop where
  ofDim : t.dim = dim
  kept : t.parts = (rs.flatMap components).filter (!·.isEmpty)
  none : t.parts = [] → t = .empty dim
  one : ∀ b, t.parts = [b] → t = ofBox b
  many : 2 ≤ t.parts.length →
    t.disjoint = false ∧ t.shape = if dim < 2 then .intervalUnion else .boxUnion

theorem gathers_gathered (positive : 0 < dim) (dims : ∀ r ∈ rs, r.dim = dim) :
    Gathers dim rs (gathered dim rs) := by
  constructor
  · rfl
  · rw [parts_gathered_of_dims dims, filter_flatMap_components]
    intro r listed
    exact dims r listed ▸ positive
  · exact eq_empty_of_parts positive
  · exact fun b => eq_ofBox_of_parts
  · intro many
    have more : ¬ (gathered dim rs).parts.length < 2 := Nat.not_lt.mpr many
    constructor
    · exact disjoint_ofParts fun few => absurd few more
    · rw [shape_eq, if_neg more]
      rfl

/-- Gathering flattens: two regions that are gathered each from their own regions give the same
    region as all of these at once, which has their components without the empty ones. If the
    dimensions are not all the same, the first one that differs is reported. -/
theorem gather_nested :
    (∀ dim xs ys, 0 < dim → xs ≠ [] → ys ≠ [] → (∀ r ∈ xs ++ ys, r.dim = dim) →
      ∃ left right t, gather xs false = .ok left ∧ gather ys false = .ok right ∧
        gather [left, right] false = .ok t ∧ gather (xs ++ ys) false = .ok t ∧
        Gathers dim (xs ++ ys) t) ∧
    ∀ r rest, (∃ s ∈ rest, s.dim ≠ r.dim) →
      ∃ before s later, rest = before ++ s :: later ∧ (∀ t ∈ before, t.dim = r.dim) ∧
        s.dim ≠ r.dim ∧ gather (r :: rest) false = .error (.dimensionMismatch r.dim s.dim) := by
  refine ⟨fun dim xs ys positive someX someY dims => ?_, fun r rest => gather_of_differ⟩
  have each : ∀ g ∈ [xs, ys], ∀ r ∈ g, r.dim = dim := by simpa [or_imp, forall_and] using dims
  obtain ⟨dimsX, dimsY⟩ := List.forall_mem_append.mp dims
  refine ⟨gathered dim xs, gathered dim ys, gathered dim (xs ++ ys), gather_of_dims someX dimsX,
    gather_of_dims someY dimsY, ?_, ?_, gathers_gathered positive dims⟩
  · have inner : gather [gathered dim xs, gathered dim ys] false =
        .ok (gathered dim [gathered dim xs, gathered dim ys]) :=
      gather_of_dims (List.cons_ne_nil _ _) (by simp [gathered])
    have flat : gathered dim [gathered dim xs, gathered dim ys] = gathered dim (xs ++ ys) := by
      simpa using gathered_flatten each
    rw [inner, flat]
  · exact gather_of_dims (List.append_ne_nil_of_left_ne_nil someX ys) dims

theorem gather_nested_islands :
    gather [.empty 1, .empty 1] false = .ok (.empty 1) ∧
    (∃ left t, gather [.empty 1, Sample.islands] false = .ok left ∧
      gather [left, .empty 1] false = .ok t ∧
      gather [.empty 1, Sample.islands, .empty 1, .empty 1] false = .ok t ∧
      t.parts = Sample.islands.parts ∧ t.disjoint = false ∧ t.shape = .intervalUnion) ∧
    ∃ s ∈ [Sample.islands, ofBox Sample.pillar], s.dim ≠ 1 ∧
      gather [Sample.ray, Sample.islands, ofBox Sample.pillar] false =
        .error (.dimensionMismatch 1 s.dim) := by
  have voids : gather [.empty 1, .empty 1] false = .ok (.empty 1) := by decide +kernel
  have kept : ([.empty 1, Sample.islands, .empty 1, .empty 1].flatMap components).filter
      (!·.isEmpty) = Sample.islands.parts := by decide +kernel
  have four : Sample.islands.parts.length = 4 := by decide +kernel
  obtain ⟨nested, differ⟩ := gather_nested
  refine ⟨voids, ?_, ?_⟩
  · obtain ⟨left, right, t, runX, runY, inner, outer, gathers⟩ :=
      nested 1 [.empty 1, Sample.islands] [.empty 1, .empty 1] (by decide) (by simp) (by simp)
        (by decide)
    rw [voids] at runY
    cases runY
    have parts := gathers.kept.trans kept
    obtain ⟨free, shape⟩ := gathers.many (by rw [parts, four]; decide)
    exact ⟨left, t, runX, inner, outer, parts, free, shape⟩
  · obtain ⟨before, s, later, split, _, other, run⟩ :=
      differ Sample.ray [Sample.islands, ofBox Sample.pillar]
        ⟨ofBox Sample.pillar, by simp, by decide +kernel⟩
    exact ⟨s, split ▸ by simp, other, run⟩

end Region

end GridRegions
