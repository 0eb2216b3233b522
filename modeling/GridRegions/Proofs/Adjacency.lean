import GridRegions.Proofs.Overflow
import GridRegions.Proofs.Resizing
import GridRegions.Region.Simplify

/-!
Boxes side by side. A box touches another when a cell of it lies one step or less on each axis
from a cell of the other, unless it reaches a limit of the coordinates, where it cannot be grown.
Boxes that fill the box around them lie side by side: on the way from one to the other there is a
first step that leaves the one, and it leads into the other.
-/
namespace GridRegions

/-- On no axis are the points more than `n` apart. -/
def Within (n : Int) : List Int → List Int → Prop :=
  List.Forall₂ fun x y => x ≤ y + n ∧ y ≤ x + n

/-- The number next to `x` on the way to `y`, or `x` once it is reached. -/
def toward (x y : Int) : Int := if x < y then x + 1 else if y < x then x - 1 else x

theorem toward_between (x y : Int) : min x y ≤ toward x y ∧ toward x y ≤ max x y := by
  unfold toward
  split
  · omega
  · split <;> omega

/-- The point one step from `p`, on each axis, on the way to `q`. -/
def towards : List Int → List Int → List Int := List.zipWith toward

namespace Within

variable {m n : Int} {p q : List Int}

theorem symm (near : Within n p q) : Within n q p := by
  apply List.Forall₂.flip
  apply near.imp
  intro x y both
  exact both.symm

theorem mono (le : m ≤ n) (near : Within m p q) : Within n p q := by
  apply near.imp
  intro x y both
  omega

theorem exists_within (lengths : p.length = q.length) : ∃ n : Nat, Within n p q := by
  induction p generalizing q with
  | nil =>
    rw [List.length_eq_zero_iff.mp lengths.symm]
    exact ⟨0, .nil⟩
  | cons x xs ih =>
    cases q with
    | nil => simp at lengths
    | cons y ys =>
      obtain ⟨n, rest⟩ := ih (Nat.succ.inj lengths)
      refine ⟨n + (x - y).natAbs, .cons ?_ (rest.mono ?_)⟩ <;> omega

theorem toward_left (lengths : p.length = q.length) : Within 1 p (towards p q) := by
  induction p generalizing q with
  | nil => exact .nil
  | cons x xs ih =>
    cases q with
    | nil => simp at lengths
    | cons y ys =>
      refine .cons ?_ (ih (Nat.succ.inj lengths))
      unfold toward
      split
      · omega
      · split <;> omega

theorem toward_right {n : Nat} (near : Within (n + 1) p q) : Within n (towards p q) q := by
  induction near with
  | nil => exact .nil
  | cons first _ ih =>
    refine .cons ?_ ih
    unfold toward
    split
    · omega
    · split <;> omega

end Within

namespace Endpoint

variable {e : Endpoint}

theorem room_back_iff : e.Room (-1) ↔ e ≠ .finite .lowest := by
  cases e with
  | negInf => exact iff_of_true trivial nofun
  | posInf => exact iff_of_true trivial nofun
  | finite c =>
    have := c.lower
    have := c.upper
    simp only [Room, Coord.Fits, ne_eq, Endpoint.finite.injEq, Coord.ext_iff, Coord.lowest]
    omega

theorem room_on_iff : e.Room 1 ↔ e ≠ .finite .highest := by
  cases e with
  | negInf => exact iff_of_true trivial nofun
  | posInf => exact iff_of_true trivial nofun
  | finite c =>
    have := c.lower
    have := c.upper
    simp only [Room, Coord.Fits, ne_eq, Endpoint.finite.injEq, Coord.ext_iff, Coord.highest]
    omega

end Endpoint

namespace Interval

/-- The interval begins with the lowest coordinate or stops at the highest. -/
def AtLimit (i : Interval) : Prop := i.start = .finite .lowest ∨ i.stop = .finite .highest

instance (i : Interval) : Decidable i.AtLimit := inferInstanceAs (Decidable (_ ∨ _))

variable {i : Interval} {m : Margin}

theorem roomToGrow_iff (before : m.before.val = 1) (after : m.after.val = 1) :
    i.RoomToGrow m ↔ ¬ i.AtLimit := by
  have negatable : m.before ≠ .lowest := by
    intro eq
    rw [eq] at before
    cases before
  rw [RoomToGrow, and_iff_right negatable, before, after, Endpoint.room_back_iff,
    Endpoint.room_on_iff, AtLimit, not_or]

theorem mem_of_between {x y z : Int} (first : i.Mem x) (second : i.Mem y) (above : min x y ≤ z)
    (below : z ≤ max x y) : i.Mem z := by
  rcases Int.le_total x y with le | le
  · rw [Int.min_eq_left le] at above
    rw [Int.max_eq_right le] at below
    exact ⟨first.1.mono above, fun past => second.2 (past.mono below)⟩
  · rw [Int.min_eq_right le] at above
    rw [Int.max_eq_left le] at below
    exact ⟨second.1.mono above, fun past => first.2 (past.mono below)⟩

end Interval

namespace Axes

theorem near_replicate {m : Margin} {n : Int} {p q : List Int} (before : m.before.val = n)
    (after : m.after.val = n) : Near (List.replicate p.length m) p q ↔ Within n p q := by
  induction p generalizing q with
  | nil =>
    constructor
    · intro near
      cases near
      exact .nil
    · intro near
      cases near
      exact .nil
  | cons x xs ih =>
    rw [List.length_cons, List.replicate_succ]
    constructor
    · intro near
      cases near with
      | cons close closes =>
        obtain ⟨low, high⟩ := close
        exact .cons ⟨by omega, by omega⟩ (ih.mp closes)
    · intro near
      cases near with
      | cons close closes =>
        obtain ⟨low, high⟩ := close
        exact .cons ⟨by omega, by omega⟩ (ih.mpr closes)

theorem mem_towards {is : List Interval} {p q : List Int} (first : Mem is p) (second : Mem is q) :
    Mem is (towards p q) := by
  induction is generalizing p q with
  | nil =>
    cases p with
    | nil => exact trivial
    | cons x xs => exact first.elim
  | cons i is ih =>
    cases p with
    | nil => exact first.elim
    | cons x xs =>
      cases q with
      | nil => exact second.elim
      | cons y ys =>
        refine ⟨?_, ih first.2 second.2⟩
        obtain ⟨above, below⟩ := toward_between x y
        exact Interval.mem_of_between first.1 second.1 above below

end Axes

namespace Box

/-- A cell of one box and a cell of the other are one step or less apart on each axis. -/
def Adjacent (a b : Box) : Prop := ∃ p q, a.Mem p ∧ b.Mem q ∧ Within 1 p q

/-- On some axis the box begins with the lowest coordinate or stops at the highest. -/
def AtLimit (b : Box) : Prop := ∃ i ∈ b.axes, i.AtLimit

instance (b : Box) : Decidable b.AtLimit := inferInstanceAs (Decidable (∃ i ∈ b.axes, i.AtLimit))

variable {a b : Box}

theorem Adjacent.symm (adjacent : a.Adjacent b) : b.Adjacent a := by
  obtain ⟨p, q, inA, inB, near⟩ := adjacent
  exact ⟨q, p, inB, inA, near.symm⟩

theorem exists_grow_one_iff {m : Margin} (solid : b.isEmpty = false) (before : m.before.val = 1)
    (after : m.after.val = 1) :
    (∃ grown, b.grow (List.replicate b.dim m) = .ok grown) ↔ ¬ b.AtLimit := by
  rw [exists_grow_iff solid List.length_replicate.symm, dim, forall₂_replicate_iff, AtLimit,
    not_exists]
  simp only [Interval.roomToGrow_iff before after, not_and]

theorem touches_iff (same : a.dim = b.dim) (solid : a.isEmpty = false) :
    a.touches b = true ↔ a.Adjacent b ∧ ¬ a.AtLimit := by
  have grows := exists_grow_one_iff (m := .symmetric ⟨1, by decide, by decide⟩) solid rfl rfl
  unfold touches
  split
  · rename_i grown run
    have free : ¬ a.AtLimit := grows.mp ⟨grown, run⟩
    have dims : grown.dim = b.dim := (dim_move run).trans same
    have outward : ∀ m ∈ List.replicate a.dim (Margin.symmetric ⟨1, by decide, by decide⟩),
        m.Outward := by
      intro m member
      rw [List.eq_of_mem_replicate member]
      exact ⟨by decide, by decide⟩
    rw [and_iff_left free, Bool.not_eq_true', ← Bool.not_eq_true, isEmpty_iff_forall_not_mem,
      not_forall]
    simp only [not_not, mem_inter dims, mem_grow_iff_near outward run]
    constructor
    · rintro ⟨q, ⟨p, inA, near⟩, inB⟩
      rw [← length_of_mem inA] at near
      exact ⟨p, q, inA, inB, (Axes.near_replicate rfl rfl).mp near⟩
    · rintro ⟨p, q, inA, inB, near⟩
      refine ⟨q, ⟨p, inA, ?_⟩, inB⟩
      rw [← length_of_mem inA]
      exact (Axes.near_replicate rfl rfl).mpr near
  · rename_i fault failed
    apply iff_of_false (by decide)
    rintro ⟨_, free⟩
    obtain ⟨grown, run⟩ := grows.mpr free
    rw [failed] at run
    cases run

/- One steps from a point of `a` towards a point of `b`. Every step stays in the box around both, so
   it ends in `a`, from where the way is shorter, or in `b`. -/
theorem adjacent_of_filled (same : a.dim = b.dim) (left : a.isEmpty = false)
    (right : b.isEmpty = false) (filled : ∀ p, (a.hull b).Mem p → a.Mem p ∨ b.Mem p) :
    a.Adjacent b := by
  obtain ⟨p, inA⟩ := Axes.exists_mem left
  obtain ⟨q, inB⟩ := Axes.exists_mem right
  have lengths : ∀ p, a.Mem p → p.length = q.length := fun p inside =>
    (length_of_mem inside).trans (same.trans (length_of_mem inB).symm)
  obtain ⟨n, near⟩ := Within.exists_within (lengths p inA)
  induction n generalizing p with
  | zero => exact ⟨p, q, inA, inB, near.mono (by decide)⟩
  | succ n ih =>
    have inside : (a.hull b).Mem (towards p q) :=
      Axes.mem_towards (mem_hull same (.inl inA)) (mem_hull same (.inr inB))
    rcases filled _ inside with stays | leaves
    · exact ih _ stays near.toward_right
    · exact ⟨p, _, inA, leaves, Within.toward_left (lengths p inA)⟩

end Box

end GridRegions
