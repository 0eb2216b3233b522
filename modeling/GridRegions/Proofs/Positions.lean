import GridRegions.Proofs.Adjacency
import GridRegions.Proofs.Traversal

/-!
Cells by their place. The digits of a number, one for each axis and the last one fastest, are the
position of the cell that a walk over the box comes to after so many others, and a position that
counts back from the end of an axis names the same cell as the one that counts on.
-/
namespace GridRegions

/-- The digits of a number, the last one fastest: each counts how often all later axes have run
    through. -/
def digits : List Nat → Nat → List Int
  | [], _ => []
  | _ :: sizes, k => ((k / sizes.prod : Nat) : Int) :: digits sizes (k % sizes.prod)

theorem length_digits (sizes : List Nat) (k : Nat) : (digits sizes k).length = sizes.length := by
  induction sizes generalizing k with
  | nil => rfl
  | cons n sizes ih => exact congrArg (· + 1) (ih _)

theorem digits_zero (sizes : List Nat) : digits sizes 0 = List.replicate sizes.length 0 := by
  induction sizes with
  | nil => rfl
  | cons n sizes ih =>
    rw [digits, Nat.zero_div, Nat.zero_mod, ih]
    rfl

/- Before the first axis moves on, all others stand at their end. -/
theorem digits_last {sizes : List Nat} (positive : ∀ n ∈ sizes, 0 < n) :
    digits sizes (sizes.prod - 1) = sizes.map fun n : Nat => (n : Int) - 1 := by
  induction sizes with
  | nil => rfl
  | cons n sizes ih =>
    obtain ⟨first, rest⟩ := List.forall_mem_cons.mp positive
    have some : 0 < sizes.prod := List.prod_pos rest
    have split : (n :: sizes).prod - 1 = sizes.prod - 1 + (n - 1) * sizes.prod := by
      rw [List.prod_cons, Nat.sub_mul, Nat.one_mul]
      have : sizes.prod ≤ n * sizes.prod := Nat.le_mul_of_pos_left _ first
      omega
    rw [digits, split, Nat.add_mul_div_right _ _ some, Nat.add_mul_mod_self_right,
      Nat.div_eq_of_lt (by omega), Nat.mod_eq_of_lt (by omega), ih rest, List.map_cons]
    congr 1
    omega

/- Every element is followed by all of `tails`, so each takes up the places of one run through them. -/
theorem getElem?_flatMap {α : Type} (heads : List α) {tails : List (List α)}
    (some : 0 < tails.length) (k : Nat) : (heads.flatMap fun x => tails.map (x :: ·))[k]? =
      heads[k / tails.length]?.bind fun x => tails[k % tails.length]?.map (x :: ·) := by
  induction heads generalizing k with
  | nil => rfl
  | cons x heads ih =>
    rw [List.flatMap_cons]
    by_cases here : k < tails.length
    · rw [List.getElem?_append_left (by simpa using here), Nat.div_eq_of_lt here,
        Nat.mod_eq_of_lt here, List.getElem?_map]
      rfl
    · obtain ⟨j, rfl⟩ := Nat.exists_eq_add_of_le (Nat.le_of_not_lt here)
      rw [List.getElem?_append_right (by simp), List.length_map, Nat.add_sub_cancel_left, ih,
        Nat.add_div_left _ some, Nat.add_mod_left, List.getElem?_cons_succ]

/-- The coordinate that comes `k` steps after `lo`, still before `hi`. -/
def Coord.up (lo hi : Coord) (k : Fin (hi.val - lo.val).toNat) : Coord :=
  ⟨lo.val + k.val, by have := lo.lower; omega, by have := hi.upper; omega⟩

namespace Interval

variable {i : Interval} {lo hi : Coord}

theorem size_of_ends (start : i.start = .finite lo) (stop : i.stop = .finite hi) :
    i.size = (hi.val - lo.val).toNat := by
  rw [size, start, stop, Endpoint.gap_finite]

theorem coordAt_eq_ok_iff (start : i.start = .finite lo) (stop : i.stop = .finite hi) {index : Int}
    {c : Coord} : i.coordAt index = .ok c ↔ -(i.size : Int) ≤ index ∧ index < i.size ∧
      c.val = (if 0 ≤ index then lo.val else hi.val) + index := by
  have base : ∃ b : Coord, (if 0 ≤ index then i.start else i.stop) = .finite b ∧
      b.val = if 0 ≤ index then lo.val else hi.val := by
    split
    · exact ⟨lo, start, rfl⟩
    · exact ⟨hi, stop, rfl⟩
  obtain ⟨b, side, val⟩ := base
  have inside : c.val = b.val + index →
      (i.Mem c.val ↔ -(i.size : Int) ≤ index ∧ index < i.size) := by
    intro sum
    rw [mem_of_ends start stop, size_of_ends start stop, sum, val]
    split <;> omega
  rw [← val]
  constructor
  · intro run
    obtain ⟨_, ends, sum, held⟩ := coordAt_eq_ok.mp run
    rw [side] at ends
    cases ends
    obtain ⟨low, high⟩ := (inside sum.symm).mp held
    exact ⟨low, high, sum.symm⟩
  · intro ⟨low, high, sum⟩
    exact coordAt_eq_ok.mpr ⟨b, side, sum.symm, (inside sum).mpr ⟨low, high⟩⟩

theorem exists_coordAt_iff (bounded : i.isBounded = true) {index : Int} :
    (∃ c, i.coordAt index = .ok c) ↔ -(i.size : Int) ≤ index ∧ index < i.size := by
  obtain ⟨lo, hi, start, stop⟩ := ends_of_isBounded bounded
  have low := lo.lower
  have high := hi.upper
  simp only [coordAt_eq_ok_iff start stop, exists_and_left]
  constructor
  · intro ⟨reached, short, _⟩
    exact ⟨reached, short⟩
  · intro ⟨reached, short⟩
    rw [size_of_ends start stop] at reached short ⊢
    refine ⟨reached, short, ⟨(if 0 ≤ index then lo.val else hi.val) + index, ?_, ?_⟩, rfl⟩
    · split <;> omega
    · split <;> omega

theorem coordAt_sub_size (bounded : i.isBounded = true) {index : Int} (low : 0 ≤ index)
    (high : index < i.size) : i.coordAt (index - i.size) = i.coordAt index := by
  obtain ⟨lo, hi, start, stop⟩ := ends_of_isBounded bounded
  obtain ⟨c, run⟩ := (exists_coordAt_iff bounded).mpr ⟨by omega, high⟩
  have sum := ((coordAt_eq_ok_iff start stop).mp run).2.2
  rw [run, coordAt_eq_ok_iff start stop]
  rw [size_of_ends start stop] at high ⊢
  rw [if_pos low] at sum
  refine ⟨by omega, by omega, ?_⟩
  rw [if_neg (by omega)]
  omega

theorem exists_coords (bounded : i.isBounded = true) : ∃ cs : List Coord, cs.length = i.size ∧
    (∀ x : Coord, x ∈ cs ↔ i.Mem x.val) ∧ (cs.Pairwise fun x y => x.val < y.val) ∧
      ∀ k < i.size, ∃ x, cs[k]? = some x ∧ i.coordAt k = .ok x := by
  obtain ⟨lo, hi, start, stop⟩ := ends_of_isBounded bounded
  rw [size_of_ends start stop]
  refine ⟨List.ofFn (Coord.up lo hi), List.length_ofFn, fun x => ?_, ?_, fun k short => ?_⟩
  · rw [List.mem_ofFn, mem_of_ends start stop]
    constructor
    · rintro ⟨k, rfl⟩
      have := k.isLt
      simp only [Coord.up]
      omega
    · intro inside
      refine ⟨⟨(x.val - lo.val).toNat, by omega⟩, Coord.ext ?_⟩
      simp only [Coord.up]
      omega
  · apply List.pairwise_ofFn.mpr
    intro j k before
    have : j.val < k.val := before
    simp only [Coord.up]
    omega
  · refine ⟨Coord.up lo hi ⟨k, short⟩, by simp [short], (coordAt_eq_ok_iff start stop).mpr ?_⟩
    rw [size_of_ends start stop]
    refine ⟨by omega, by omega, ?_⟩
    rw [if_pos (by omega)]
    rfl

end Interval

theorem alongAxes_set {α β γ : Type} {f : α → β → Except Fault γ} {as : List α} {bs : List β}
    {k : Nat} {a : α} {b : β} (axis : as[k]? = some a)
    (same : ∀ old, bs[k]? = some old → f a b = f a old) :
    alongAxes f as (bs.set k b) = alongAxes f as bs := by
  induction as generalizing bs k with
  | nil => simp at axis
  | cons c as ih =>
    cases bs with
    | nil => rfl
    | cons old bs =>
      cases k with
      | zero =>
        cases axis
        rw [List.set_cons_zero, alongAxes, alongAxes, same old rfl]
      | succ k => rw [List.set_cons_succ, alongAxes, alongAxes, ih axis same]

namespace Walk

theorem Lists.unique {is : List Interval} {cells others : List Cell} (first : Lists is cells)
    (second : Lists is others) : cells = others := by
  have perm : cells.Perm others := (List.perm_ext_iff_of_nodup first.nodup second.nodup).mpr
    fun c => (first.mem c).trans (second.mem c).symm
  apply perm.eq_of_pairwise _ first.sorted second.sorted
  intro c d _ _ before after
  exact absurd after before.asymm

end Walk

namespace Axes

variable {is : List Interval}

theorem size_pos (solid : is.any Interval.isEmpty = false)
    (bounded : is.all Interval.isBounded = true) : ∀ n ∈ is.map Interval.size, 0 < n := by
  intro n member
  obtain ⟨i, axis, rfl⟩ := List.mem_map.mp member
  obtain ⟨lo, hi, start, stop⟩ :=
    Interval.ends_of_isBounded (List.all_eq_true.mp bounded i axis)
  have ordered := (Interval.isEmpty_eq_false_iff i).mp (solid_axis solid axis)
  rw [start, stop, Endpoint.lt_iff_rank] at ordered
  simp only [Endpoint.rank] at ordered
  rw [Interval.size_of_ends start stop]
  omega

theorem exists_places (solid : is.any Interval.isEmpty = false)
    (bounded : is.all Interval.isBounded = true) : ∃ cells : List Cell, Walk.Lists is cells ∧
      cells.length = (is.map Interval.size).prod ∧
      ∀ k < (is.map Interval.size).prod, ∃ c, cells[k]? = some c ∧
        alongAxes Interval.coordAt is (digits (is.map Interval.size) k) = .ok c := by
  induction is with
  | nil =>
    refine ⟨[[]], Walk.lists_nil, rfl, fun k short => ?_⟩
    rw [Nat.lt_one_iff.mp short]
    exact ⟨[], rfl, rfl⟩
  | cons i is ih =>
    rw [List.any_cons, Bool.or_eq_false_iff] at solid
    rw [List.all_cons, Bool.and_eq_true] at bounded
    obtain ⟨heads, many, members, increasing, places⟩ := Interval.exists_coords bounded.1
    obtain ⟨tails, lists, length, later⟩ := ih solid.2 bounded.2
    have some : 0 < tails.length := length ▸ List.prod_pos (size_pos solid.2 bounded.2)
    refine ⟨_, Walk.lists_flatMap members increasing lists, ?_, fun k short => ?_⟩
    · simp [List.length_flatMap, many, length]
    · rw [List.map_cons, List.prod_cons, ← length] at short
      obtain ⟨x, first, here⟩ := places _ (Nat.div_lt_of_lt_mul (Nat.mul_comm _ _ ▸ short))
      obtain ⟨c, rest, there⟩ := later _ (length ▸ Nat.mod_lt k some)
      refine ⟨x :: c, ?_, ?_⟩
      · rw [getElem?_flatMap heads some, first, length]
        simp [rest]
      · rw [List.map_cons, digits, ← length]
        exact alongAxes_cons_eq_ok.mpr ⟨x, c, here, length ▸ there, rfl⟩

theorem exists_coordAt_iff (bounded : is.all Interval.isBounded = true) {index : List Int}
    (same : is.length = index.length) : (∃ c, alongAxes Interval.coordAt is index = .ok c) ↔
      List.Forall₂ (fun (n : Nat) k => -(n : Int) ≤ k ∧ k < n) (is.map Interval.size) index := by
  rw [List.forall₂_map_left_iff]
  apply exists_alongAxes_iff _ same
  intro i axis k
  exact Interval.exists_coordAt_iff (List.all_eq_true.mp bounded i axis)

theorem coordAt_last (solid : is.any Interval.isEmpty = false)
    (bounded : is.all Interval.isBounded = true) :
    alongAxes Interval.coordAt is ((is.map Interval.size).map fun n : Nat => (n : Int) - 1) =
      alongAxes Interval.coordAt is (List.replicate is.length (-1)) := by
  induction is with
  | nil => rfl
  | cons i is ih =>
    have first := size_pos solid bounded i.size (by simp)
    rw [List.any_cons, Bool.or_eq_false_iff] at solid
    rw [List.all_cons, Bool.and_eq_true] at bounded
    have last : i.coordAt (i.size - 1) = i.coordAt (-1) := by
      rw [← Interval.coordAt_sub_size bounded.1 (by omega) (by omega)]
      congr 1
      omega
    rw [List.map_cons, List.map_cons, List.length_cons, List.replicate_succ, alongAxes, alongAxes,
      last, ih solid.2 bounded.2]

end Axes

namespace Box

variable {b : Box}

theorem cellAt_eq_ok_iff {index : List Int} {c : Cell} : b.cellAt index = .ok c ↔
    b.dim = index.length ∧ alongAxes Interval.coordAt b.axes index = .ok c := by
  rw [cellAt, bind_eq_ok]
  simp only [checkDim_eq_ok, exists_const]

theorem exists_cellAt_iff (bounded : b.isBounded = true) {index : List Int} :
    (∃ c, b.cellAt index = .ok c) ↔
      List.Forall₂ (fun (n : Nat) k => -(n : Int) ≤ k ∧ k < n) b.shape index := by
  simp only [cellAt_eq_ok_iff, exists_and_left]
  constructor
  · intro ⟨same, run⟩
    exact (Axes.exists_coordAt_iff bounded same).mp run
  · intro places
    have same : b.dim = index.length := by
      rw [← places.length_eq, shape, List.length_map]
      rfl
    exact ⟨same, (Axes.exists_coordAt_iff bounded same).mpr places⟩

theorem cellAt_set (bounded : b.isBounded = true) {index : List Int} {a n : Nat} {k : Int}
    (axis : b.shape[a]? = some n) (place : index[a]? = some k) (low : 0 ≤ k) (high : k < n) :
    b.cellAt (index.set a (k - n)) = b.cellAt index := by
  rw [shape, List.getElem?_map] at axis
  obtain ⟨i, here, rfl⟩ := Option.map_eq_some_iff.mp axis
  have same : ∀ old, index[a]? = some old → i.coordAt (k - i.size) = i.coordAt old := by
    intro old found
    rw [place] at found
    cases found
    have ends := List.all_eq_true.mp bounded i (List.mem_of_getElem? here)
    exact Interval.coordAt_sub_size ends low high
  rw [cellAt, cellAt, List.length_set, alongAxes_set here same]

/-- A walk over a bounded box comes after `k` other cells to the one whose position has the digits of
    `k`, and to none when all have been passed; the first and the last are those that the box gives
    itself. A position names a cell exactly if there is one entry for each axis, no farther from
    either end than the axis is long. Counting back from the end names the same cell as counting on
    from the start. -/
theorem cellAt_walk (solid : b.isEmpty = false) (bounded : b.isBounded = true) :
    (∃ w, Walk.ofBoxes [b] = .ok w ∧
      (∀ k < b.shape.prod, ∃ c, w.nth? k = some c ∧ b.cellAt (digits b.shape k) = .ok c) ∧
      (∀ k, b.shape.prod ≤ k → w.nth? k = none) ∧
      (∃ c, w.nth? 0 = some c ∧ b.first = .ok c) ∧
      ∃ c, w.nth? (b.shape.prod - 1) = some c ∧ b.last = .ok c) ∧
    (∀ index, (∃ c, b.cellAt index = .ok c) ↔
      List.Forall₂ (fun (n : Nat) k => -(n : Int) ≤ k ∧ k < n) b.shape index) ∧
    ∀ index (a n : Nat) (k : Int), b.shape[a]? = some n → index[a]? = some k → 0 ≤ k → k < n →
      b.cellAt (index.set a (k - n)) = b.cellAt index := by
  refine ⟨?_, fun index => exists_cellAt_iff bounded, fun index a n k => cellAt_set bounded⟩
  have full : ∀ c ∈ [b], c.isEmpty = false := by simpa using solid
  have ends : ∀ c ∈ [b], c.isBounded = true := by simpa using bounded
  obtain ⟨w, lists, run, listed, takes⟩ := Walk.exists_lists full ends
  obtain ⟨cells, ordered, length, places⟩ := Axes.exists_places solid bounded
  have steps : ∀ k, w.nth? k = cells[k]? := by
    intro k
    cases listed with
    | cons first rest =>
      cases rest
      rw [Walk.nth?_eq takes, ordered.unique first, List.flatten_singleton]
  have named : ∀ k < b.shape.prod, ∃ c, w.nth? k = some c ∧
      b.cellAt (digits b.shape k) = .ok c := by
    intro k short
    obtain ⟨c, here, found⟩ := places k short
    refine ⟨c, (steps k).trans here, cellAt_eq_ok_iff.mpr ⟨?_, found⟩⟩
    rw [length_digits, shape, List.length_map]
    rfl
  have positive : ∀ n ∈ b.shape, 0 < n := Axes.size_pos solid bounded
  have cellful : 0 < b.shape.prod := List.prod_pos positive
  have sides : b.shape.length = b.dim := List.length_map _
  refine ⟨w, run, named, fun k passed => ?_, ?_, ?_⟩
  · rw [steps, List.getElem?_eq_none (length ▸ passed)]
  · obtain ⟨c, here, found⟩ := named 0 cellful
    rw [digits_zero, sides] at found
    exact ⟨c, here, found⟩
  · obtain ⟨c, here, found⟩ := named (b.shape.prod - 1) (by omega)
    rw [digits_last positive] at found
    refine ⟨c, here, cellAt_eq_ok_iff.mpr ⟨by simp, ?_⟩⟩
    rw [← (cellAt_eq_ok_iff.mp found).2]
    exact (Axes.coordAt_last solid bounded).symm

end Box

namespace Sample

def band : Box := .ofAxes [.span (.finite .lowest) (.finite .highest), side 5 2]

end Sample

namespace Box

/- The first axis is too long for its last position to be a coordinate. -/
theorem cellAt_walk_band : Sample.band.isEmpty = false ∧ Sample.band.isBounded = true ∧
    Sample.band.shape = [18446744073709551615, 2] ∧
    ∃ w c, Walk.ofBoxes [Sample.band] = .ok w ∧ w.nth? 7 = some c ∧
      Sample.band.cellAt [3, 1] = .ok c ∧ Sample.band.cellAt [3, -1] = .ok c ∧
      w.nth? 36893488147419103230 = none ∧
      ∃ last, w.nth? 36893488147419103229 = some last ∧ Sample.band.last = .ok last := by
  have solid : Sample.band.isEmpty = false := by decide +kernel
  have bounded : Sample.band.isBounded = true := by decide +kernel
  have shape : Sample.band.shape = [18446744073709551615, 2] := by decide +kernel
  obtain ⟨⟨w, run, named, passed, _, last⟩, _, back⟩ := cellAt_walk solid bounded
  have turned := back [3, 1] 1 2 1 (by rw [shape]; rfl) rfl (by decide) (by decide)
  rw [shape] at named passed last
  obtain ⟨c, here, found⟩ := named 7 (by decide)
  have place : Sample.band.cellAt [3, 1] = .ok c := found
  exact ⟨solid, bounded, shape, w, c, run, here, place, turned.trans place, passed _ (by decide),
    last⟩

end Box

end GridRegions
