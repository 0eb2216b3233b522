import GridRegions.Proofs.Motion

/-!
Growing and shrinking by margins that count no cells inwards. A grown box holds the points that
are near one of its points before, and a shrunk box those that have only points of it near them.
So shrinking takes back what growing added, and a grown box lies within another box exactly when
it lay, before it was grown, within the other box shrunk.
-/
namespace GridRegions

namespace Margin

/-- The margin counts no cells inwards. -/
def Outward (m : Margin) : Prop := 0 ≤ m.before.val ∧ 0 ≤ m.after.val

/-- The number `x` is at most as far before `y` as the margin allows, and at most as far after it. -/
def Near (m : Margin) (y x : Int) : Prop := -m.before.val ≤ x - y ∧ x - y ≤ m.after.val

theorem near_self {m : Margin} (outward : m.Outward) (x : Int) : m.Near x x := by
  have := outward.1
  have := outward.2
  exact ⟨by omega, by omega⟩

theorem negate_eq_ok {m n : Margin} :
    m.negate = .ok n ↔ n.before.val = -m.before.val ∧ n.after.val = -m.after.val := by
  unfold negate
  constructor
  · intro run
    split at run
    · rename_i before after first last
      cases run
      exact ⟨(Coord.ofInt?_eq_some_iff.mp first).symm, (Coord.ofInt?_eq_some_iff.mp last).symm⟩
    · cases run
  · intro ⟨before, after⟩
    have first : m.before.neg? = some n.before := Coord.ofInt?_eq_some_iff.mpr before.symm
    have last : m.after.neg? = some n.after := Coord.ofInt?_eq_some_iff.mpr after.symm
    rw [first, last]

theorem exists_negate {m : Margin} (outward : m.Outward) : ∃ n, m.negate = .ok n := by
  have := outward.1
  have := outward.2
  have := m.before.upper
  have := m.after.upper
  exact ⟨⟨⟨-m.before.val, by omega, by omega⟩, ⟨-m.after.val, by omega, by omega⟩⟩,
    negate_eq_ok.mpr ⟨rfl, rfl⟩⟩

end Margin

theorem near_within_iff {α : Type} {near : α → α → Prop} {a b grown shrunk : α → Prop}
    (grows : ∀ x, grown x ↔ ∃ y, a y ∧ near y x)
    (shrinks : ∀ y, a y → (shrunk y ↔ ∀ x, near y x → b x)) :
    (∀ x, grown x → b x) ↔ ∀ y, a y → shrunk y := by
  constructor
  · intro within y inside
    apply (shrinks y inside).mpr
    intro x near
    exact within x ((grows x).mpr ⟨y, inside, near⟩)
  · intro within x reached
    obtain ⟨y, inside, near⟩ := (grows x).mp reached
    exact (shrinks y inside).mp (within y inside) x near

namespace Interval

variable {i grown shrunk : Interval} {m : Margin}

theorem around_of_near {x y : Int} (inside : i.Mem y) (low : y ≤ x + m.before.val)
    (high : x - m.after.val ≤ y) : i.Around m x :=
  ⟨inside.1.mono low, fun past => inside.2 (past.mono high)⟩

theorem exists_near {x : Int} (solid : i.isEmpty = false) (outward : m.Outward)
    (near : i.Around m x) : ∃ y, i.Mem y ∧ y ≤ x + m.before.val ∧ x - m.after.val ≤ y := by
  obtain ⟨reached, short⟩ := near
  obtain ⟨z, inside⟩ := exists_mem solid
  have wide : x - m.after.val ≤ x + m.before.val := by
    have := outward.1
    have := outward.2
    omega
  by_cases below : z < x - m.after.val
  · exact ⟨x - m.after.val, ⟨inside.1.mono (Int.le_of_lt below), short⟩, wide, Int.le_refl _⟩
  · by_cases above : x + m.before.val < z
    · exact ⟨x + m.before.val, ⟨reached, fun past => inside.2 (past.mono (Int.le_of_lt above))⟩,
        Int.le_refl _, wide⟩
    · exact ⟨z, inside, Int.not_lt.mp above, Int.not_lt.mp below⟩

theorem around_iff (solid : i.isEmpty = false) (outward : m.Outward) {x : Int} :
    i.Around m x ↔ ∃ y, i.Mem y ∧ m.Near y x := by
  constructor
  · intro near
    obtain ⟨y, inside, low, high⟩ := exists_near solid outward near
    exact ⟨y, inside, by omega, by omega⟩
  · intro ⟨y, inside, low, high⟩
    exact around_of_near inside (by omega) (by omega)

theorem mem_grow_iff_near (outward : m.Outward) (run : i.grow m = .ok grown) {x : Int} :
    grown.Mem x ↔ ∃ y, i.Mem y ∧ m.Near y x := by
  rw [mem_grow run, around_iff (isEmpty_of_grow run) outward]

theorem isEmpty_grow (outward : m.Outward) (run : i.grow m = .ok grown) :
    grown.isEmpty = false := by
  obtain ⟨x, inside⟩ := exists_mem (isEmpty_of_grow run)
  have held := (mem_grow_iff_near outward run).mpr ⟨x, inside, m.near_self outward x⟩
  exact isEmpty_of_mem held

theorem shrink_eq_ok : i.shrink m = .ok shrunk ↔
    ∃ n, m.negate = .ok n ∧ i.growFor .shrunk n = .ok shrunk := bind_eq_ok

/- Both numbers at the far ends of the margin lie in `i`, and then so do all between them. -/
theorem mem_shrink (outward : m.Outward) (run : i.shrink m = .ok shrunk) {y : Int} :
    shrunk.Mem y ↔ ∀ x, m.Near y x → i.Mem x := by
  have := outward.1
  have := outward.2
  obtain ⟨n, negated, run⟩ := shrink_eq_ok.mp run
  obtain ⟨before, after⟩ := Margin.negate_eq_ok.mp negated
  rw [mem_growFor run, Around, before, after]
  constructor
  · intro ⟨reached, short⟩ x ⟨low, high⟩
    exact ⟨reached.mono (by omega), fun past => short (past.mono (by omega))⟩
  · intro all
    have first := all (y + -m.before.val) ⟨by omega, by omega⟩
    have last := all (y - -m.after.val) ⟨by omega, by omega⟩
    exact ⟨first.1, last.2⟩

theorem shrink_grow (outward : m.Outward) (run : i.grow m = .ok grown) : grown.shrink m = .ok i := by
  have solid := isEmpty_grow outward run
  obtain ⟨_, back, start, stop, negated, first, last, rfl⟩ := growFor_eq_ok.mp run
  obtain ⟨n, turned⟩ := Margin.exists_negate outward
  obtain ⟨before, after⟩ := Margin.negate_eq_ok.mp turned
  obtain ⟨starts, stops⟩ := ends_span solid
  have minus : -m.before.val = back.val := Coord.ofInt?_eq_some_iff.mp negated
  have forth : n.before.neg? = some m.before := Coord.ofInt?_eq_some_iff.mpr (by omega)
  have startBack := Endpoint.shift_back first
  have stopBack := Endpoint.shift_back last
  rw [← minus, Int.neg_neg, ← starts] at startBack
  rw [← after, ← stops] at stopBack
  exact shrink_eq_ok.mpr ⟨n, turned, growFor_eq_ok.mpr ⟨solid, m.before, i.start, i.stop, forth,
    startBack, stopBack, (span_start_stop i).symm⟩⟩

end Interval

namespace Axes

/-- On every axis `x` is within the margin of `y`. -/
inductive Near : List Margin → List Int → List Int → Prop where
  | nil : Near [] [] []
  | cons {m : Margin} {ms : List Margin} {y x : Int} {ys xs : List Int} (first : m.Near y x)
      (rest : Near ms ys xs) : Near (m :: ms) (y :: ys) (x :: xs)

variable {is grown shrunk : List Interval} {ms : List Margin} {p q : List Int}

theorem near_self (outward : ∀ m ∈ ms, m.Outward) (length : p.length = ms.length) :
    Near ms p p := by
  induction ms generalizing p with
  | nil =>
    rw [List.length_eq_zero_iff.mp length]
    exact .nil
  | cons m ms ih =>
    cases p with
    | nil => simp at length
    | cons x xs =>
      obtain ⟨first, rest⟩ := List.forall_mem_cons.mp outward
      exact .cons (m.near_self first x) (ih rest (Nat.succ.inj length))

theorem around_iff (solid : is.any Interval.isEmpty = false) (outward : ∀ m ∈ ms, m.Outward)
    (same : is.length = ms.length) : Around is ms p ↔ ∃ q, Mem is q ∧ Near ms q p := by
  induction is generalizing ms p with
  | nil =>
    rw [List.length_eq_zero_iff.mp same.symm]
    cases p with
    | nil => exact iff_of_true trivial ⟨[], trivial, .nil⟩
    | cons x xs =>
      apply iff_of_false id
      rintro ⟨q, _, near⟩
      cases near
  | cons i is ih =>
    cases ms with
    | nil => simp at same
    | cons m ms =>
      obtain ⟨first, rest⟩ := List.forall_mem_cons.mp outward
      rw [List.any_cons, Bool.or_eq_false_iff] at solid
      cases p with
      | nil =>
        apply iff_of_false id
        rintro ⟨q, _, near⟩
        cases near
      | cons x xs =>
        rw [Around, Interval.around_iff solid.1 first, ih solid.2 rest (Nat.succ.inj same)]
        constructor
        · rintro ⟨⟨y, here, close⟩, ys, later, closes⟩
          exact ⟨y :: ys, ⟨here, later⟩, .cons close closes⟩
        · rintro ⟨q, inside, near⟩
          cases near with
          | cons close closes => exact ⟨⟨_, inside.1, close⟩, _, inside.2, closes⟩

theorem isEmpty_grow (outward : ∀ m ∈ ms, m.Outward)
    (run : alongAxes Interval.grow is ms = .ok grown) : grown.any Interval.isEmpty = false := by
  induction is generalizing ms grown with
  | nil =>
    cases run
    rfl
  | cons i is ih =>
    cases ms with
    | nil =>
      cases run
      rfl
    | cons m ms =>
      obtain ⟨first, rest⟩ := List.forall_mem_cons.mp outward
      obtain ⟨j, js, here, later, rfl⟩ := alongAxes_cons_eq_ok.mp run
      rw [List.any_cons, Interval.isEmpty_grow first here, ih rest later]
      rfl

/- A point near `q` on the first axis only is found by staying where `q` is on the others. -/
theorem mem_shrink (outward : ∀ m ∈ ms, m.Outward) (same : is.length = ms.length)
    (length : q.length = is.length) (run : alongAxes Interval.shrink is ms = .ok shrunk) :
    Mem shrunk q ↔ ∀ p, Near ms q p → Mem is p := by
  induction is generalizing ms shrunk q with
  | nil =>
    rw [List.length_eq_zero_iff.mp same.symm] at run ⊢
    rw [List.length_eq_zero_iff.mp length]
    cases run
    constructor
    · intro _ p near
      cases near
      trivial
    · exact fun _ => trivial
  | cons i is ih =>
    cases ms with
    | nil => simp at same
    | cons m ms =>
      cases q with
      | nil => simp at length
      | cons y ys =>
        obtain ⟨first, rest⟩ := List.forall_mem_cons.mp outward
        obtain ⟨j, js, here, later, rfl⟩ := alongAxes_cons_eq_ok.mp run
        have lengths : ys.length = is.length := Nat.succ.inj length
        have still := near_self rest (lengths.trans (Nat.succ.inj same))
        rw [Mem, Interval.mem_shrink first here, ih rest (Nat.succ.inj same) lengths later]
        constructor
        · rintro ⟨head, tail⟩ p near
          cases near with
          | cons close closes => exact ⟨head _ close, tail _ closes⟩
        · intro all
          constructor
          · exact fun x close => (all (x :: ys) (.cons close still)).1
          · exact fun xs closes => (all (y :: xs) (.cons (m.near_self first y) closes)).2

theorem shrink_grow (outward : ∀ m ∈ ms, m.Outward) (same : is.length = ms.length)
    (run : alongAxes Interval.grow is ms = .ok grown) :
    alongAxes Interval.shrink grown ms = .ok is := by
  induction is generalizing ms grown with
  | nil =>
    rw [List.length_eq_zero_iff.mp same.symm] at run ⊢
    cases run
    rfl
  | cons i is ih =>
    cases ms with
    | nil => simp at same
    | cons m ms =>
      obtain ⟨first, rest⟩ := List.forall_mem_cons.mp outward
      obtain ⟨j, js, here, later, rfl⟩ := alongAxes_cons_eq_ok.mp run
      exact alongAxes_cons_eq_ok.mpr ⟨i, is, Interval.shrink_grow first here,
        ih rest (Nat.succ.inj same) later, rfl⟩

end Axes

namespace Box

variable {a b grown shrunk : Box} {ms : List Margin}

theorem mem_grow_iff_near (outward : ∀ m ∈ ms, m.Outward) (run : a.grow ms = .ok grown)
    {p : List Int} : grown.Mem p ↔ ∃ q, a.Mem q ∧ Axes.Near ms q p := by
  obtain ⟨solid, same, _⟩ := move_eq_ok run
  rw [mem_grow run]
  exact Axes.around_iff solid outward same

theorem mem_shrink (outward : ∀ m ∈ ms, m.Outward) (run : b.shrink ms = .ok shrunk) {q : List Int}
    (length : q.length = b.dim) : shrunk.Mem q ↔ ∀ p, Axes.Near ms q p → b.Mem p := by
  obtain ⟨_, same, axes, along, rfl⟩ := move_eq_ok run
  rw [mem_ofAxes, Axes.mem_shrink outward same length along]
  rfl

theorem shrink_grow (outward : ∀ m ∈ ms, m.Outward) (run : a.grow ms = .ok grown) :
    grown.shrink ms = .ok a := by
  obtain ⟨solid, same, axes, along, rfl⟩ := move_eq_ok run
  have full := Axes.isEmpty_grow outward along
  have back := Axes.shrink_grow outward same along
  have dims : (ofAxes axes).dim = ms.length := by
    rw [dim_ofAxes, length_of_alongAxes same along]
    exact same
  rw [← ofAxes_of_nonempty full] at back
  rw [shrink, move_of_along ((isEmpty_ofAxes axes).trans full) dims back]
  exact congrArg Except.ok (Box.ext (ofAxes_of_nonempty solid))

end Box

/-- Growing and shrinking by one amount `m`, where `near m y x` means that `x` is within it of `y`. -/
structure Adjoint {β μ α : Type} (mem : β → α → Prop) (near : μ → α → α → Prop)
    (grow shrink : β → μ → Except Fault β) (m : μ) : Prop where
  points {a grown : β} (run : grow a m = .ok grown) (x : α) :
    mem grown x ↔ ∃ y, mem a y ∧ near m y x
  back {a grown : β} (run : grow a m = .ok grown) : shrink grown m = .ok a
  within {a grown b shrunk : β} (run : grow a m = .ok grown) (run' : shrink b m = .ok shrunk) :
    (∀ x, mem grown x → mem b x) ↔ ∀ y, mem a y → mem shrunk y

/-- For margins that count no cells inwards, a grown interval or box holds the points within the
    margins of its points before, shrinking gives these back, and it lies within another one exactly
    when they lie within the other one shrunk, be that empty or not. -/
theorem grow_shrink_adjoint :
    (∀ m : Margin, m.Outward →
      Adjoint Interval.Mem Margin.Near Interval.grow Interval.shrink m) ∧
    ∀ ms : List Margin, (∀ m ∈ ms, m.Outward) →
      Adjoint Box.Mem Axes.Near Box.grow Box.shrink ms := by
  constructor
  · intro m outward
    constructor
    · exact fun run x => Interval.mem_grow_iff_near outward run
    · exact fun run => Interval.shrink_grow outward run
    · intro a grown b shrunk run run'
      apply near_within_iff fun x => Interval.mem_grow_iff_near outward run
      exact fun y _ => Interval.mem_shrink outward run'
  · intro ms outward
    constructor
    · exact fun run p => Box.mem_grow_iff_near outward run
    · exact fun run => Box.shrink_grow outward run
    · intro a grown b shrunk run run'
      have dims : a.dim = b.dim := (Box.move_eq_ok run).2.1.trans (Box.move_eq_ok run').2.1.symm
      apply near_within_iff fun p => Box.mem_grow_iff_near outward run
      intro q inside
      exact Box.mem_shrink outward run' ((Box.length_of_mem inside).trans dims)

namespace Sample

def beam : Box := .ofAxes [.span (.finite (coord 2)) .posInf, side 1 2]

def slot : Box := tile 0 0 2 9

def collar : List Margin := [⟨coord 1, coord 2⟩, ⟨coord 0, coord 3⟩]

end Sample

theorem grow_shrink_adjoint_slot : (∀ m ∈ Sample.collar, m.Outward) ∧
    ∃ grown shrunk, Sample.beam.grow Sample.collar = .ok grown ∧
      Sample.slot.shrink Sample.collar = .ok shrunk ∧
      (∃ q, Sample.beam.Mem q ∧ Axes.Near Sample.collar q [1, 5]) ∧
      grown.shrink Sample.collar = .ok Sample.beam ∧ shrunk.isEmpty = true ∧
      ¬ ∀ p, grown.Mem p → Sample.slot.Mem p := by
  have outward : ∀ m ∈ Sample.collar, m.Outward := by
    simp [Sample.collar, Margin.Outward]
    decide
  have adjoint := grow_shrink_adjoint.2 Sample.collar outward
  have reached : (Sample.beam.grow Sample.collar).map (·.contains [Sample.coord 1, Sample.coord 5]) =
      .ok true := by decide +kernel
  have narrow : (Sample.slot.shrink Sample.collar).map Box.isEmpty = .ok true := by decide +kernel
  obtain ⟨grown, run, held⟩ := map_eq_ok.mp reached
  obtain ⟨shrunk, run', void⟩ := map_eq_ok.mp narrow
  have near := (adjoint.points run _).mp (Box.contains_iff.mp held)
  refine ⟨outward, grown, shrunk, run, run', near, adjoint.back run, void, fun within => ?_⟩
  obtain ⟨q, inside, _⟩ := near
  have kept := (adjoint.within run run').mp within q inside
  exact (Box.isEmpty_iff_forall_not_mem shrunk).mp void q kept

end GridRegions
