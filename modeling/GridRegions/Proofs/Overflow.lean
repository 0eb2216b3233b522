import GridRegions.Proofs.Comparison

/-!
When a move leaves the coordinates. A box that is not empty, with one amount per axis, has no
other fault in being moved than an overflow, and has none if there is room at both ends of every
axis.
-/
namespace GridRegions

/-- The computation has no fault other than an overflow. -/
def OnlyOverflows {α : Type} (x : Except Fault α) : Prop :=
  ∀ fault, x = .error fault → fault = .overflow

namespace OnlyOverflows

theorem ok {α : Type} (a : α) : OnlyOverflows (.ok a) := by
  intro fault run
  cases run

theorem bind {α β : Type} {x : Except Fault α} {f : α → Except Fault β} (first : OnlyOverflows x)
    (rest : ∀ a, x = .ok a → OnlyOverflows (f a)) : OnlyOverflows (x >>= f) := by
  cases x with
  | error cause =>
    intro fault run
    cases run
    exact first cause rfl
  | ok a => exact rest a rfl

theorem orOverflow {α : Type} (x : Option α) : OnlyOverflows (Fault.orOverflow x) := by
  intro fault run
  cases x with
  | none =>
    cases run
    rfl
  | some a => cases run

theorem mapM {α β : Type} {f : α → Except Fault β} {as : List α}
    (each : ∀ a ∈ as, OnlyOverflows (f a)) : OnlyOverflows (as.mapM f) := by
  intro fault run
  obtain ⟨a, member, failed⟩ := exists_of_mapM_eq_error run
  exact each a member fault failed

theorem alongAxes {α β γ : Type} {f : α → β → Except Fault γ} {as : List α} (bs : List β)
    (each : ∀ a ∈ as, ∀ b, OnlyOverflows (f a b)) : OnlyOverflows (alongAxes f as bs) := by
  induction as generalizing bs with
  | nil => exact ok []
  | cons a as ih =>
    cases bs with
    | nil => exact ok []
    | cons b bs =>
      apply bind (each a List.mem_cons_self b)
      intro c _
      apply bind (ih bs fun d later => each d (List.mem_cons_of_mem a later))
      exact fun cs _ => ok (c :: cs)

end OnlyOverflows

namespace Coord

def lowest : Coord := ⟨-9223372036854775808, by decide, by decide⟩

def highest : Coord := ⟨9223372036854775807, by decide, by decide⟩

/-- The number is a coordinate. -/
def Fits (x : Int) : Prop := -9223372036854775808 ≤ x ∧ x < 9223372036854775808

instance (x : Int) : Decidable (Fits x) := inferInstanceAs (Decidable (_ ∧ _))

theorem exists_val_iff {x : Int} : (∃ c : Coord, x = c.val) ↔ Fits x := by
  constructor
  · intro ⟨c, eq⟩
    exact eq ▸ ⟨c.lower, c.upper⟩
  · intro ⟨lower, upper⟩
    exact ⟨⟨x, lower, upper⟩, rfl⟩

theorem exists_neg?_iff {c : Coord} : (∃ d, c.neg? = some d) ↔ c ≠ .lowest := by
  simp only [neg?, ofInt?_eq_some_iff, exists_val_iff, ne_eq, Coord.ext_iff, lowest, Fits]
  have := c.lower
  have := c.upper
  omega

end Coord

namespace Endpoint

/-- The end is still an end after it is moved by `delta`. -/
def Room (e : Endpoint) (delta : Int) : Prop :=
  match e with
  | .finite c => Coord.Fits (c.val + delta)
  | _ => True

instance : (e : Endpoint) → (delta : Int) → Decidable (e.Room delta)
  | .negInf, _ => inferInstanceAs (Decidable True)
  | .finite _, _ => inferInstanceAs (Decidable (Coord.Fits _))
  | .posInf, _ => inferInstanceAs (Decidable True)

variable {e : Endpoint} {delta : Int}

theorem exists_shift_iff : (∃ moved, e.shift delta = .ok moved) ↔ e.Room delta := by
  cases e with
  | negInf => exact iff_of_true ⟨.negInf, rfl⟩ trivial
  | posInf => exact iff_of_true ⟨.posInf, rfl⟩ trivial
  | finite c =>
    simp only [shift_finite_eq_ok, Room, ← Coord.exists_val_iff]
    constructor
    · intro ⟨_, d, sum, _⟩
      exact ⟨d, sum⟩
    · intro ⟨d, sum⟩
      exact ⟨_, d, sum, rfl⟩

theorem shift_onlyOverflows (e : Endpoint) (delta : Int) : OnlyOverflows (e.shift delta) := by
  cases e with
  | negInf => exact .ok _
  | posInf => exact .ok _
  | finite c =>
    intro fault run
    rw [shift] at run
    cases fits : c.shift? delta with
    | none =>
      rw [fits] at run
      cases run
      rfl
    | some d =>
      rw [fits] at run
      cases run

theorem Room.between {a b : Endpoint} (low : a.isFinite = true) (high : b.isFinite = true)
    (above : a ≤ e) (below : e ≤ b) (first : a.Room delta) (last : b.Room delta) :
    e.Room delta := by
  obtain ⟨x, rfl⟩ := eq_finite_of_isFinite (isFinite_of_between low high above below)
  obtain ⟨l, rfl⟩ := eq_finite_of_isFinite low
  obtain ⟨u, rfl⟩ := eq_finite_of_isFinite high
  rw [le_iff_rank] at above below
  simp only [rank] at above below
  simp only [Room, Coord.Fits] at first last ⊢
  omega

end Endpoint

namespace Interval

/-- Both ends have room for `delta`. -/
def RoomToShift (i : Interval) (delta : Int) : Prop := i.start.Room delta ∧ i.stop.Room delta

/-- The width before can be negated, and the ends have room for the margin. -/
def RoomToGrow (i : Interval) (m : Margin) : Prop :=
  m.before ≠ .lowest ∧ i.start.Room (-m.before.val) ∧ i.stop.Room m.after.val

instance (i : Interval) (delta : Int) : Decidable (i.RoomToShift delta) :=
  inferInstanceAs (Decidable (_ ∧ _))

instance (i : Interval) (m : Margin) : Decidable (i.RoomToGrow m) :=
  inferInstanceAs (Decidable (_ ∧ _))

variable {i j : Interval} {m : Margin} {delta : Int}

theorem exists_shift_iff (solid : i.isEmpty = false) :
    (∃ moved, i.shift delta = .ok moved) ↔ i.RoomToShift delta := by
  rw [RoomToShift, ← Endpoint.exists_shift_iff, ← Endpoint.exists_shift_iff]
  constructor
  · intro ⟨moved, run⟩
    obtain ⟨_, start, stop, first, last, _⟩ := shift_eq_ok run
    exact ⟨⟨start, first⟩, stop, last⟩
  · intro ⟨⟨start, first⟩, stop, last⟩
    refine ⟨span start stop, ?_⟩
    rw [shift, if_neg (Bool.eq_false_iff.mp solid), first, last]
    rfl

theorem exists_grow_iff (solid : i.isEmpty = false) :
    (∃ grown, i.grow m = .ok grown) ↔ i.RoomToGrow m := by
  rw [RoomToGrow, ← Coord.exists_neg?_iff, ← Endpoint.exists_shift_iff, ← Endpoint.exists_shift_iff]
  constructor
  · intro ⟨grown, run⟩
    obtain ⟨_, back, start, stop, negated, first, last, _⟩ := growFor_eq_ok.mp run
    have minus : -m.before.val = back.val := Coord.ofInt?_eq_some_iff.mp negated
    exact ⟨⟨back, negated⟩, ⟨start, minus ▸ first⟩, stop, last⟩
  · intro ⟨⟨back, negated⟩, ⟨start, first⟩, stop, last⟩
    have minus : -m.before.val = back.val := Coord.ofInt?_eq_some_iff.mp negated
    exact ⟨span start stop,
      growFor_eq_ok.mpr ⟨solid, back, start, stop, negated, minus ▸ first, last, rfl⟩⟩

theorem shift_onlyOverflows (solid : i.isEmpty = false) (delta : Int) :
    OnlyOverflows (i.shift delta) := by
  rw [shift, if_neg (Bool.eq_false_iff.mp solid)]
  apply OnlyOverflows.bind (i.start.shift_onlyOverflows delta)
  intro start _
  apply OnlyOverflows.bind (i.stop.shift_onlyOverflows delta)
  exact fun stop _ => .ok (span start stop)

theorem grow_onlyOverflows (solid : i.isEmpty = false) (m : Margin) : OnlyOverflows (i.grow m) := by
  rw [grow, growFor, if_neg (Bool.eq_false_iff.mp solid)]
  apply OnlyOverflows.bind (.orOverflow m.before.neg?)
  intro back _
  apply OnlyOverflows.bind (i.start.shift_onlyOverflows back.val)
  intro start _
  apply OnlyOverflows.bind (i.stop.shift_onlyOverflows m.after.val)
  exact fun stop _ => .ok (span start stop)

theorem RoomToShift.within (solid : j.isEmpty = false) (bounded : i.isBounded = true)
    (inside : j.inter i = j) (room : i.RoomToShift delta) : j.RoomToShift delta := by
  obtain ⟨low, high⟩ := Bool.and_eq_true_iff.mp bounded
  obtain ⟨starts, stops⟩ := (forall_mem_iff_ends solid).mp fun _ => mem_of_inter_eq inside
  have ordered := Endpoint.le_of_lt ((isEmpty_eq_false_iff j).mp solid)
  constructor
  · exact .between low high starts (Int.le_trans ordered stops) room.1 room.2
  · exact .between low high (Int.le_trans starts ordered) stops room.1 room.2

end Interval

theorem Axes.room_within {is js : List Interval} {deltas : List Int}
    (same : js.length = is.length) (solid : js.any Interval.isEmpty = false)
    (bounded : is.all Interval.isBounded = true) (inside : List.zipWith Interval.inter js is = js)
    (room : List.Forall₂ Interval.RoomToShift is deltas) :
    List.Forall₂ Interval.RoomToShift js deltas := by
  induction room generalizing js with
  | nil =>
    rw [List.length_eq_zero_iff.mp same]
    exact .nil
  | cons first _ ih =>
    cases js with
    | nil => simp at same
    | cons j js =>
      rw [List.any_cons, Bool.or_eq_false_iff] at solid
      rw [List.all_cons, Bool.and_eq_true] at bounded
      obtain ⟨heads, tails⟩ := List.cons.inj inside
      exact .cons (first.within solid.1 bounded.1 heads)
        (ih (Nat.succ.inj same) solid.2 bounded.2 tails)

namespace Box

variable {α : Type} {use : Use} {f : Interval → α → Except Fault Interval} {b c : Box}

theorem exists_move_iff {room : Interval → α → Prop} {amounts : List α}
    (each : ∀ i : Interval, i.isEmpty = false → ∀ a, (∃ j, f i a = .ok j) ↔ room i a)
    (solid : b.isEmpty = false) (same : b.dim = amounts.length) :
    (∃ moved, b.move use f amounts = .ok moved) ↔ List.Forall₂ room b.axes amounts := by
  rw [← exists_alongAxes_iff (fun i axis => each i (Axes.solid_axis solid axis)) same]
  constructor
  · intro ⟨moved, run⟩
    obtain ⟨_, _, axes, along, _⟩ := move_eq_ok run
    exact ⟨axes, along⟩
  · intro ⟨axes, along⟩
    exact ⟨ofAxes axes, move_of_along solid same along⟩

theorem exists_shift_iff {deltas : List Int} (solid : b.isEmpty = false)
    (same : b.dim = deltas.length) : (∃ moved, b.shift deltas = .ok moved) ↔
      List.Forall₂ Interval.RoomToShift b.axes deltas :=
  exists_move_iff (fun _ solid _ => Interval.exists_shift_iff solid) solid same

theorem exists_grow_iff {ms : List Margin} (solid : b.isEmpty = false)
    (same : b.dim = ms.length) :
    (∃ grown, b.grow ms = .ok grown) ↔ List.Forall₂ Interval.RoomToGrow b.axes ms :=
  exists_move_iff (fun _ solid _ => Interval.exists_grow_iff solid) solid same

theorem move_onlyOverflows {amounts : List α}
    (each : ∀ i : Interval, i.isEmpty = false → ∀ a, OnlyOverflows (f i a))
    (solid : b.isEmpty = false) (same : b.dim = amounts.length) :
    OnlyOverflows (b.move use f amounts) := by
  rw [move, if_neg (Bool.eq_false_iff.mp solid), (checkDim_eq_ok (u := ())).mpr same]
  change OnlyOverflows (alongAxes f b.axes amounts >>= fun axes => .ok (ofAxes axes))
  apply OnlyOverflows.bind
  · exact .alongAxes amounts fun i axis => each i (Axes.solid_axis solid axis)
  · exact fun axes _ => .ok (ofAxes axes)

theorem shift_onlyOverflows {deltas : List Int} (solid : b.isEmpty = false)
    (same : b.dim = deltas.length) : OnlyOverflows (b.shift deltas) :=
  move_onlyOverflows (fun _ solid => Interval.shift_onlyOverflows solid) solid same

theorem grow_onlyOverflows {ms : List Margin} (solid : b.isEmpty = false)
    (same : b.dim = ms.length) : OnlyOverflows (b.grow ms) :=
  move_onlyOverflows (fun _ solid => Interval.grow_onlyOverflows solid) solid same

/-- Where a bounded box can be shifted to, so can every box within it that is not empty. -/
theorem exists_shift_within {deltas : List Int} {moved : Box} (dims : b.dim = c.dim)
    (solid : b.isEmpty = false) (bounded : c.isBounded = true) (within : ∀ p, b.Mem p → c.Mem p)
    (run : c.shift deltas = .ok moved) : ∃ moved', b.shift deltas = .ok moved' := by
  obtain ⟨solid', same, _⟩ := move_eq_ok run
  have inside := zipWith_inter_of_inter_eq solid ((inter_eq_left_iff dims).mpr within)
  apply (exists_shift_iff solid (dims.trans same)).mpr
  exact Axes.room_within dims solid bounded inside ((exists_shift_iff solid' same).mp ⟨moved, run⟩)

end Box

end GridRegions
