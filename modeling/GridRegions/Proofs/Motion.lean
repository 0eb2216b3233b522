import GridRegions.Proofs.Success
import GridRegions.Box.Points

/-!
Moving a box moves its points: a shift adds the deltas to every point, and a grown box holds the
points within its margins.
-/
namespace GridRegions

namespace Endpoint

theorem shift_finite_eq_ok {c : Coord} {e : Endpoint} {delta : Int} :
    (finite c).shift delta = .ok e ↔ ∃ d : Coord, c.val + delta = d.val ∧ e = .finite d := by
  rw [shift, map_eq_ok]
  constructor
  · intro ⟨d, fits, eq⟩
    exact ⟨d, Coord.ofInt?_eq_some_iff.mp (orOverflow_eq_ok.mp fits), eq.symm⟩
  · intro ⟨d, sum, eq⟩
    exact ⟨d, orOverflow_eq_ok.mpr (Coord.ofInt?_eq_some_iff.mpr sum), eq.symm⟩

theorem atMost_shift {e moved : Endpoint} {delta : Int} (run : e.shift delta = .ok moved) {x : Int} :
    moved.AtMost x ↔ e.AtMost (x - delta) := by
  cases e with
  | negInf =>
    cases run
    rfl
  | finite c =>
    obtain ⟨d, sum, rfl⟩ := shift_finite_eq_ok.mp run
    simp only [AtMost]
    omega
  | posInf =>
    cases run
    rfl

theorem isFinite_shift {e moved : Endpoint} {delta : Int} (run : e.shift delta = .ok moved) :
    moved.isFinite = e.isFinite := by
  cases e with
  | negInf =>
    cases run
    rfl
  | finite c =>
    obtain ⟨d, _, rfl⟩ := shift_finite_eq_ok.mp run
    rfl
  | posInf =>
    cases run
    rfl

theorem shift_shift {e a b : Endpoint} {m n : Int} (first : e.shift m = .ok a)
    (second : e.shift n = .ok b) : a.shift (n - m) = .ok b := by
  cases e with
  | negInf =>
    cases first
    exact second
  | finite c =>
    obtain ⟨x, sumX, rfl⟩ := shift_finite_eq_ok.mp first
    obtain ⟨y, sumY, rfl⟩ := shift_finite_eq_ok.mp second
    have way : x.val + (n - m) = y.val := by omega
    exact shift_finite_eq_ok.mpr ⟨y, way, rfl⟩
  | posInf =>
    cases first
    exact second

theorem shift_zero (e : Endpoint) : e.shift 0 = .ok e := by
  cases e with
  | negInf => rfl
  | finite c => exact shift_finite_eq_ok.mpr ⟨c, Int.add_zero c.val, rfl⟩
  | posInf => rfl

theorem shift_back {e moved : Endpoint} {delta : Int} (run : e.shift delta = .ok moved) :
    moved.shift (-delta) = .ok e := by
  have back := shift_shift run (shift_zero e)
  rwa [Int.zero_sub] at back

end Endpoint

namespace Interval

theorem shift_eq_ok {i moved : Interval} {delta : Int} (run : i.shift delta = .ok moved) :
    i.isEmpty = false ∧ ∃ start stop, i.start.shift delta = .ok start ∧
      i.stop.shift delta = .ok stop ∧ moved = span start stop := by
  unfold shift at run
  split at run
  · cases run
  · rename_i solid
    obtain ⟨start, first, run⟩ := bind_eq_ok.mp run
    obtain ⟨stop, last, run⟩ := bind_eq_ok.mp run
    cases run
    exact ⟨Bool.not_eq_true _ ▸ solid, start, stop, first, last, rfl⟩

theorem mem_shift {i moved : Interval} {delta : Int} (run : i.shift delta = .ok moved) {x : Int} :
    moved.Mem x ↔ i.Mem (x - delta) := by
  obtain ⟨_, start, stop, first, last, rfl⟩ := shift_eq_ok run
  rw [mem_span, Endpoint.atMost_shift first, Endpoint.atMost_shift last]
  rfl

theorem isEmpty_shift {i moved : Interval} {delta : Int} (run : i.shift delta = .ok moved) :
    moved.isEmpty = false := by
  obtain ⟨x, member⟩ := exists_mem (shift_eq_ok run).1
  apply Bool.eq_false_iff.mpr
  intro void
  apply (isEmpty_iff_forall_not_mem moved).mp void (x + delta)
  rw [mem_shift run, Int.add_sub_cancel]
  exact member

theorem ends_shift {i moved : Interval} {delta : Int} (run : i.shift delta = .ok moved) :
    i.start.shift delta = .ok moved.start ∧ i.stop.shift delta = .ok moved.stop := by
  have solid := isEmpty_shift run
  obtain ⟨_, start, stop, first, last, rfl⟩ := shift_eq_ok run
  obtain ⟨starts, stops⟩ := ends_span solid
  rw [starts, stops]
  exact ⟨first, last⟩

theorem shift_eq_ok_of_ends {i moved : Interval} {delta : Int} (solid : i.isEmpty = false)
    (solid' : moved.isEmpty = false) (first : i.start.shift delta = .ok moved.start)
    (last : i.stop.shift delta = .ok moved.stop) : i.shift delta = .ok moved := by
  have ordered := (isEmpty_eq_false_iff moved).mp solid'
  unfold shift
  rw [if_neg (Bool.eq_false_iff.mp solid), first, last]
  exact congrArg Except.ok (span_of_lt ordered)

theorem shift_shift {i a b : Interval} {m n : Int} (first : i.shift m = .ok a)
    (second : i.shift n = .ok b) : a.shift (n - m) = .ok b := by
  obtain ⟨startA, stopA⟩ := ends_shift first
  obtain ⟨startB, stopB⟩ := ends_shift second
  exact shift_eq_ok_of_ends (isEmpty_shift first) (isEmpty_shift second)
    (Endpoint.shift_shift startA startB) (Endpoint.shift_shift stopA stopB)

theorem shift_back {i moved : Interval} {delta : Int} (run : i.shift delta = .ok moved) :
    moved.shift (-delta) = .ok i := by
  obtain ⟨start, stop⟩ := ends_shift run
  exact shift_eq_ok_of_ends (isEmpty_shift run) (shift_eq_ok run).1 (Endpoint.shift_back start)
    (Endpoint.shift_back stop)

/-- The number is at most `m.before` below the interval and at most `m.after` above it. -/
def Around (i : Interval) (m : Margin) (x : Int) : Prop :=
  i.start.AtMost (x + m.before.val) ∧ ¬ i.stop.AtMost (x - m.after.val)

theorem growFor_eq_ok {use : Use} {i grown : Interval} {m : Margin} :
    i.growFor use m = .ok grown ↔ i.isEmpty = false ∧
      ∃ back start stop, m.before.neg? = some back ∧ i.start.shift back.val = .ok start ∧
        i.stop.shift m.after.val = .ok stop ∧ grown = span start stop := by
  unfold growFor
  constructor
  · intro run
    split at run
    · cases run
    · rename_i solid
      obtain ⟨back, negated, run⟩ := bind_eq_ok.mp run
      obtain ⟨start, first, run⟩ := bind_eq_ok.mp run
      obtain ⟨stop, last, run⟩ := bind_eq_ok.mp run
      cases run
      exact ⟨Bool.not_eq_true _ ▸ solid, back, start, stop, orOverflow_eq_ok.mp negated, first, last,
        rfl⟩
  · intro ⟨solid, back, start, stop, negated, first, last, eq⟩
    rw [if_neg (Bool.eq_false_iff.mp solid), eq]
    apply bind_eq_ok.mpr
    refine ⟨back, orOverflow_eq_ok.mpr negated, ?_⟩
    exact bind_eq_ok.mpr ⟨start, first, bind_eq_ok.mpr ⟨stop, last, rfl⟩⟩

theorem isEmpty_of_grow {i grown : Interval} {m : Margin} (run : i.grow m = .ok grown) :
    i.isEmpty = false :=
  (growFor_eq_ok.mp run).1

theorem mem_growFor {use : Use} {i grown : Interval} {m : Margin}
    (run : i.growFor use m = .ok grown) {x : Int} : grown.Mem x ↔ i.Around m x := by
  obtain ⟨_, back, start, stop, negated, first, last, rfl⟩ := growFor_eq_ok.mp run
  have minus : -m.before.val = back.val := Coord.ofInt?_eq_some_iff.mp negated
  rw [mem_span, Endpoint.atMost_shift first, Endpoint.atMost_shift last, ← minus, Int.sub_neg]
  rfl

theorem mem_grow {i grown : Interval} {m : Margin} (run : i.grow m = .ok grown) {x : Int} :
    grown.Mem x ↔ i.Around m x :=
  mem_growFor run

end Interval

namespace Axes

/-- The point lies within the margins of the axes. -/
def Around : List Interval → List Margin → List Int → Prop
  | [], [], [] => True
  | i :: is, m :: ms, x :: xs => i.Around m x ∧ Around is ms xs
  | _, _, _ => False

theorem mem_grow {is grown : List Interval} {ms : List Margin} (same : is.length = ms.length)
    (run : alongAxes Interval.grow is ms = .ok grown) {p : List Int} :
    Mem grown p ↔ Around is ms p := by
  induction is generalizing ms grown p with
  | nil =>
    cases ms with
    | nil =>
      cases run
      cases p <;> rfl
    | cons m ms => simp at same
  | cons i is ih =>
    cases ms with
    | nil => simp at same
    | cons m ms =>
      obtain ⟨j, rest, first, later, rfl⟩ := alongAxes_cons_eq_ok.mp run
      cases p with
      | nil => rfl
      | cons x xs => rw [Mem, Around, Interval.mem_grow first, ih (Nat.succ.inj same) later]

theorem mem_shift {is moved : List Interval} {deltas : List Int} (same : is.length = deltas.length)
    (run : alongAxes Interval.shift is deltas = .ok moved) {p : List Int} :
    Mem moved p ↔ ∃ q, Mem is q ∧ p = List.zipWith (· + ·) q deltas := by
  induction is generalizing deltas moved p with
  | nil =>
    cases deltas with
    | nil =>
      cases run
      cases p with
      | nil => exact ⟨fun _ => ⟨[], trivial, rfl⟩, fun _ => trivial⟩
      | cons x xs => simp [Mem]
    | cons d deltas => simp at same
  | cons i is ih =>
    cases deltas with
    | nil => simp at same
    | cons d deltas =>
      obtain ⟨j, rest, first, later, rfl⟩ := alongAxes_cons_eq_ok.mp run
      have tails := fun xs => ih (Nat.succ.inj same) later (p := xs)
      constructor
      · intro member
        cases p with
        | nil => exact member.elim
        | cons x xs =>
          obtain ⟨q, inside, rfl⟩ := (tails xs).mp member.2
          refine ⟨(x - d) :: q, ⟨(Interval.mem_shift first).mp member.1, inside⟩, ?_⟩
          rw [List.zipWith_cons_cons, Int.sub_add_cancel]
      · intro moved
        obtain ⟨q, inside, eq⟩ := moved
        cases q with
        | nil => exact inside.elim
        | cons y ys =>
          rw [eq, List.zipWith_cons_cons]
          refine ⟨(Interval.mem_shift first).mpr ?_, (tails _).mpr ⟨ys, inside.2, rfl⟩⟩
          rw [Int.add_sub_cancel]
          exact inside.1

theorem isEmpty_shift {is moved : List Interval} {deltas : List Int}
    (run : alongAxes Interval.shift is deltas = .ok moved) :
    moved.any Interval.isEmpty = false := by
  induction is generalizing deltas moved with
  | nil =>
    cases run
    rfl
  | cons i is ih =>
    cases deltas with
    | nil =>
      cases run
      rfl
    | cons d deltas =>
      obtain ⟨j, rest, first, later, rfl⟩ := alongAxes_cons_eq_ok.mp run
      rw [List.any_cons, Interval.isEmpty_shift first, ih later]
      rfl

theorem shift_shift {is as bs : List Interval} {ms ns : List Int}
    (first : alongAxes Interval.shift is ms = .ok as)
    (second : alongAxes Interval.shift is ns = .ok bs) (same : is.length = ms.length)
    (same' : is.length = ns.length) :
    alongAxes Interval.shift as (List.zipWith (· - ·) ns ms) = .ok bs := by
  induction is generalizing as bs ms ns with
  | nil =>
    cases first
    exact second
  | cons i is ih =>
    cases ms with
    | nil => simp at same
    | cons m ms =>
      cases ns with
      | nil => simp at same'
      | cons n ns =>
        obtain ⟨a, restA, firstA, laterA, rfl⟩ := alongAxes_cons_eq_ok.mp first
        obtain ⟨b, restB, firstB, laterB, rfl⟩ := alongAxes_cons_eq_ok.mp second
        rw [List.zipWith_cons_cons]
        exact alongAxes_cons_eq_ok.mpr ⟨b, restB, Interval.shift_shift firstA firstB,
          ih laterA laterB (Nat.succ.inj same) (Nat.succ.inj same'), rfl⟩

theorem shift_back {is moved : List Interval} {deltas : List Int} (same : is.length = deltas.length)
    (run : alongAxes Interval.shift is deltas = .ok moved) :
    alongAxes Interval.shift moved (deltas.map fun delta => -delta) = .ok is := by
  induction is generalizing deltas moved with
  | nil =>
    cases run
    rfl
  | cons i is ih =>
    cases deltas with
    | nil => simp at same
    | cons delta deltas =>
      obtain ⟨j, rest, first, later, rfl⟩ := alongAxes_cons_eq_ok.mp run
      exact alongAxes_cons_eq_ok.mpr ⟨i, is, Interval.shift_back first, ih (Nat.succ.inj same) later,
        rfl⟩

end Axes

namespace Box

theorem move_eq_ok {α : Type} {use : Use} {f : Interval → α → Except Fault Interval} {b moved : Box}
    {amounts : List α} (run : b.move use f amounts = .ok moved) :
    b.isEmpty = false ∧ b.dim = amounts.length ∧
      ∃ axes, alongAxes f b.axes amounts = .ok axes ∧ moved = ofAxes axes := by
  unfold move at run
  split at run
  · cases run
  · rename_i solid
    obtain ⟨_, same, run⟩ := bind_eq_ok.mp run
    obtain ⟨axes, along, run⟩ := bind_eq_ok.mp run
    cases run
    exact ⟨Bool.not_eq_true _ ▸ solid, checkDim_eq_ok.mp same, axes, along, rfl⟩

theorem move_of_along {α : Type} {use : Use} {f : Interval → α → Except Fault Interval} {b : Box}
    {amounts : List α} {axes : List Interval} (solid : b.isEmpty = false)
    (same : b.dim = amounts.length) (along : alongAxes f b.axes amounts = .ok axes) :
    b.move use f amounts = .ok (ofAxes axes) := by
  unfold move
  rw [if_neg (Bool.eq_false_iff.mp solid), same, (checkDim_eq_ok (u := ())).mpr rfl, along]
  rfl

theorem dim_move {α : Type} {use : Use} {f : Interval → α → Except Fault Interval} {b moved : Box}
    {amounts : List α} (run : b.move use f amounts = .ok moved) : moved.dim = b.dim := by
  obtain ⟨_, same, axes, along, rfl⟩ := move_eq_ok run
  rw [dim_ofAxes, length_of_alongAxes same along]
  rfl

theorem mem_grow {b grown : Box} {ms : List Margin} (run : b.grow ms = .ok grown) {p : List Int} :
    grown.Mem p ↔ Axes.Around b.axes ms p := by
  obtain ⟨_, same, axes, along, rfl⟩ := move_eq_ok run
  rw [mem_ofAxes, Axes.mem_grow same along]

theorem mem_shift {b moved : Box} {deltas : List Int} (run : b.shift deltas = .ok moved)
    {p : List Int} : moved.Mem p ↔ ∃ q, b.Mem q ∧ p = List.zipWith (· + ·) q deltas := by
  obtain ⟨_, same, axes, along, rfl⟩ := move_eq_ok run
  rw [mem_ofAxes, Axes.mem_shift same along]
  rfl

theorem isEmpty_shift {b moved : Box} {deltas : List Int} (run : b.shift deltas = .ok moved) :
    moved.isEmpty = false := by
  obtain ⟨_, _, axes, along, rfl⟩ := move_eq_ok run
  rw [isEmpty_ofAxes, Axes.isEmpty_shift along]

theorem axes_shift {b moved : Box} {deltas : List Int} (run : b.shift deltas = .ok moved) :
    alongAxes Interval.shift b.axes deltas = .ok moved.axes := by
  obtain ⟨_, _, axes, along, rfl⟩ := move_eq_ok run
  rw [ofAxes_of_nonempty (Axes.isEmpty_shift along)]
  exact along

theorem shift_eq_ok_of_axes {b moved : Box} {deltas : List Int} (solid : b.isEmpty = false)
    (same : b.dim = deltas.length)
    (along : alongAxes Interval.shift b.axes deltas = .ok moved.axes) : b.shift deltas = .ok moved := by
  rw [shift, move_of_along solid same along]
  exact congrArg Except.ok (Box.ext (ofAxes_of_nonempty (Axes.isEmpty_shift along)))

theorem shift_shift {b c d : Box} {ms ns : List Int} (first : b.shift ms = .ok c)
    (second : b.shift ns = .ok d) : c.shift (List.zipWith (· - ·) ns ms) = .ok d := by
  have sameM := (move_eq_ok first).2.1
  have sameN := (move_eq_ok second).2.1
  have lengths : c.dim = (List.zipWith (· - ·) ns ms).length := by
    rw [dim_move first, List.length_zipWith, ← sameM, ← sameN, Nat.min_self]
  apply shift_eq_ok_of_axes (isEmpty_shift first) lengths
  exact Axes.shift_shift (axes_shift first) (axes_shift second) sameM sameN

theorem shift_back {b moved : Box} {deltas : List Int} (run : b.shift deltas = .ok moved) :
    moved.shift (deltas.map fun delta => -delta) = .ok b := by
  have same := (move_eq_ok run).2.1
  apply shift_eq_ok_of_axes (isEmpty_shift run)
  · rw [dim_move run, List.length_map]
    exact same
  · exact Axes.shift_back same (axes_shift run)

theorem zipWith_add_inj {p q deltas : List Int} (left : p.length = deltas.length)
    (right : q.length = deltas.length)
    (same : List.zipWith (· + ·) p deltas = List.zipWith (· + ·) q deltas) : p = q := by
  induction p generalizing q deltas with
  | nil =>
    rw [List.length_nil] at left
    exact (List.length_eq_zero_iff.mp (right.trans left.symm)).symm
  | cons x xs ih =>
    cases deltas with
    | nil => simp at left
    | cons d deltas =>
      cases q with
      | nil => simp at right
      | cons y ys =>
        obtain ⟨heads, tails⟩ := List.cons.inj same
        have sums : x + d = y + d := heads
        have first : x = y := by omega
        rw [first, ih (Nat.succ.inj left) (Nat.succ.inj right) tails]

theorem shift_apart {a b movedA movedB : Box} {deltas : List Int} (runA : a.shift deltas = .ok movedA)
    (runB : b.shift deltas = .ok movedB) (apart : a.Apart b) : movedA.Apart movedB := by
  intro p both
  obtain ⟨q, inA, rfl⟩ := (mem_shift runA).mp both.1
  obtain ⟨r, inB, eq⟩ := (mem_shift runB).mp both.2
  have lengthA := (length_of_mem inA).trans (move_eq_ok runA).2.1
  have lengthB := (length_of_mem inB).trans (move_eq_ok runB).2.1
  rw [← zipWith_add_inj lengthA lengthB eq] at inB
  exact apart q ⟨inA, inB⟩

end Box

/- Ranges and tiles of small numbers, for instances of what holds of boxes and regions. -/
namespace Sample

def coord (x : Nat) : Coord := (Coord.ofInt? x).getD .zero

def side (lo len : Nat) : Interval := .span (.finite (coord lo)) (.finite (coord (lo + len)))

def tile (x y dx dy : Nat) : Box := .ofAxes [side x dx, side y dy]

end Sample

end GridRegions
