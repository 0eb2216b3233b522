import GridRegions.Box.Carve
import GridRegions.Box.Selection
import GridRegions.Proofs.Comparison

/-!
Boxes that hold the same points, moved by one way along every axis. Common parts, peeled pieces
and grown boxes of boxes that are moved are moved likewise, one by one and in the same order,
wherever the boxes stand. A box that is not empty and one that is moved from it are a shift apart.
-/
namespace GridRegions

namespace Endpoint

variable {a b : Endpoint} {delta : Int}

theorem shift_of_atMost_iff (moved : ∀ x, a.AtMost x ↔ b.AtMost (x + delta)) :
    a.shift delta = .ok b := by
  cases a with
  | negInf =>
    cases b with
    | negInf => rfl
    | finite d =>
      have reached : d.val ≤ d.val - 1 - delta + delta := (moved _).mp trivial
      omega
    | posInf => exact ((moved 0).mp trivial).elim
  | finite c =>
    cases b with
    | negInf =>
      have reached : c.val ≤ c.val - 1 := (moved _).mpr trivial
      omega
    | finite d =>
      have low : d.val ≤ c.val + delta := (moved c.val).mp (Int.le_refl _)
      have high : c.val ≤ d.val - delta := (moved _).mpr (by simp only [AtMost]; omega)
      exact shift_finite_eq_ok.mpr ⟨d, by omega, rfl⟩
    | posInf => exact ((moved c.val).mp (Int.le_refl _)).elim
  | posInf =>
    cases b with
    | negInf => exact ((moved 0).mpr trivial).elim
    | finite d => exact ((moved (d.val - delta)).mpr (by simp only [AtMost]; omega)).elim
    | posInf => rfl

end Endpoint

namespace Interval

/-- `j` holds the numbers of `i`, each moved by `delta`. -/
def Moved (delta : Int) (i j : Interval) : Prop := ∀ x, i.Mem x ↔ j.Mem (x + delta)

variable {delta : Int} {i j a b c d : Interval}

theorem moved_of_shift (run : i.shift delta = .ok j) : i.Moved delta j := by
  intro x
  rw [mem_shift run, Int.add_sub_cancel]

theorem Moved.isEmpty (moved : i.Moved delta j) : i.isEmpty = j.isEmpty := by
  rw [Bool.eq_iff_iff, isEmpty_iff_forall_not_mem, isEmpty_iff_forall_not_mem]
  constructor
  · intro none x inside
    apply none (x - delta)
    rwa [moved, Int.sub_add_cancel]
  · intro none x inside
    exact none _ ((moved x).mp inside)

theorem Moved.inter (first : a.Moved delta c) (second : b.Moved delta d) :
    (a.inter b).Moved delta (c.inter d) := by
  intro x
  rw [mem_inter, mem_inter, first x, second x]

theorem atMost_start_iff (solid : i.isEmpty = false) {x : Int} :
    i.start.AtMost x ↔ ∃ y, y ≤ x ∧ i.Mem y := by
  constructor
  · intro reached
    obtain ⟨z, inside⟩ := exists_mem solid
    by_cases before : z ≤ x
    · exact ⟨z, before, inside⟩
    · have short : ¬ i.stop.AtMost x := fun past => inside.2 (past.mono (by omega))
      exact ⟨x, Int.le_refl x, reached, short⟩
  · intro ⟨y, before, inside⟩
    exact inside.1.mono before

theorem atMost_stop_iff (solid : i.isEmpty = false) {x : Int} :
    i.stop.AtMost x ↔ ¬ ∃ y, x ≤ y ∧ i.Mem y := by
  constructor
  · intro past ⟨y, after, inside⟩
    exact inside.2 (past.mono after)
  · intro none
    apply Decidable.byContradiction
    intro short
    obtain ⟨z, inside⟩ := exists_mem solid
    by_cases after : x ≤ z
    · exact none ⟨z, after, inside⟩
    · exact none ⟨x, Int.le_refl x, inside.1.mono (by omega), short⟩

theorem Moved.start (moved : i.Moved delta j) (solid : i.isEmpty = false) (x : Int) :
    i.start.AtMost x ↔ j.start.AtMost (x + delta) := by
  rw [atMost_start_iff solid, atMost_start_iff (moved.isEmpty ▸ solid)]
  constructor
  · intro ⟨y, before, inside⟩
    exact ⟨y + delta, by omega, (moved y).mp inside⟩
  · intro ⟨y, before, inside⟩
    exact ⟨y - delta, by omega, (moved _).mpr (by rwa [Int.sub_add_cancel])⟩

theorem Moved.stop (moved : i.Moved delta j) (solid : i.isEmpty = false) (x : Int) :
    i.stop.AtMost x ↔ j.stop.AtMost (x + delta) := by
  rw [atMost_stop_iff solid, atMost_stop_iff (moved.isEmpty ▸ solid), not_iff_not]
  constructor
  · intro ⟨y, after, inside⟩
    exact ⟨y + delta, by omega, (moved y).mp inside⟩
  · intro ⟨y, after, inside⟩
    exact ⟨y - delta, by omega, (moved _).mpr (by rwa [Int.sub_add_cancel])⟩

theorem Moved.shift (moved : i.Moved delta j) (solid : i.isEmpty = false) :
    i.shift delta = .ok j :=
  shift_eq_ok_of_ends solid (moved.isEmpty ▸ solid)
    (Endpoint.shift_of_atMost_iff (moved.start solid))
    (Endpoint.shift_of_atMost_iff (moved.stop solid))

theorem Moved.shifted {m : Int} (moved : i.Moved delta j) (first : i.shift m = .ok a)
    (second : j.shift m = .ok b) : a.Moved delta b := by
  intro x
  have way : x - m + delta = x + delta - m := by omega
  rw [mem_shift first, mem_shift second, moved, way]

theorem Moved.outside (first : a.Moved delta c) (second : b.Moved delta d) :
    List.Forall₂ (Moved delta) (a.outside b) (c.outside d) := by
  unfold Interval.outside
  cases void : b.isEmpty with
  | true =>
    rw [← second.isEmpty, void]
    exact .cons first .nil
  | false =>
    rw [← second.isEmpty, void]
    have before : ((span .negInf b.start).inter a).Moved delta ((span .negInf d.start).inter c) := by
      intro x
      rw [mem_inter, mem_inter, mem_span, mem_span, first x, second.start void x]
      rfl
    have after : ((span b.stop .posInf).inter a).Moved delta ((span d.stop .posInf).inter c) := by
      intro x
      rw [mem_inter, mem_inter, mem_span, mem_span, first x, second.stop void x]
      rfl
    simp only [Bool.false_eq_true, ↓reduceIte]
    apply List.rel_filter _ (.cons before (.cons after .nil))
    intro i j moved
    simp only [moved.isEmpty]

theorem Moved.grow {m : Margin} (moved : i.Moved delta j) (first : i.grow m = .ok a)
    (second : j.grow m = .ok b) : a.Moved delta b := by
  intro x
  have solid := isEmpty_of_grow first
  have back : x - m.after.val + delta = x + delta - m.after.val := by omega
  rw [mem_grow first, mem_grow second, Around, Around, moved.start solid, moved.stop solid,
    Int.add_right_comm, back]

end Interval

namespace Axes

/-- Every axis is moved by its own delta. -/
inductive Moved : List Int → List Interval → List Interval → Prop where
  | nil : Moved [] [] []
  | cons {delta : Int} {deltas : List Int} {i j : Interval} {is js : List Interval}
      (first : i.Moved delta j) (rest : Moved deltas is js) :
      Moved (delta :: deltas) (i :: is) (j :: js)

variable {deltas : List Int} {is js as bs cs ds : List Interval}

theorem Moved.any_isEmpty (moved : Moved deltas is js) :
    is.any Interval.isEmpty = js.any Interval.isEmpty := by
  induction moved with
  | nil => rfl
  | cons first _ ih => rw [List.any_cons, List.any_cons, first.isEmpty, ih]

theorem Moved.lengths (moved : Moved deltas is js) :
    is.length = deltas.length ∧ js.length = deltas.length := by
  induction moved with
  | nil => exact ⟨rfl, rfl⟩
  | cons _ _ ih => exact ⟨congrArg (· + 1) ih.1, congrArg (· + 1) ih.2⟩

theorem Moved.empties (moved : Moved deltas is js) :
    Moved deltas (is.map fun _ => .empty) (js.map fun _ => .empty) := by
  induction moved with
  | nil => exact .nil
  | cons _ _ ih =>
    exact .cons (fun x => iff_of_false (Interval.not_mem_empty x) (Interval.not_mem_empty _)) ih

theorem moved_of_shift (same : is.length = deltas.length)
    (run : alongAxes Interval.shift is deltas = .ok js) : Moved deltas is js := by
  induction is generalizing deltas js with
  | nil =>
    cases run
    rw [List.length_eq_zero_iff.mp same.symm]
    exact .nil
  | cons i is ih =>
    cases deltas with
    | nil => simp at same
    | cons delta deltas =>
      obtain ⟨j, rest, first, later, rfl⟩ := alongAxes_cons_eq_ok.mp run
      exact .cons (Interval.moved_of_shift first) (ih (Nat.succ.inj same) later)

theorem Moved.shift (moved : Moved deltas is js) (solid : is.any Interval.isEmpty = false) :
    alongAxes Interval.shift is deltas = .ok js := by
  induction moved with
  | nil => rfl
  | cons first _ ih =>
    rw [List.any_cons, Bool.or_eq_false_iff] at solid
    exact alongAxes_cons_eq_ok.mpr ⟨_, _, first.shift solid.1, ih solid.2, rfl⟩

theorem Moved.inter (first : Moved deltas as cs) (second : Moved deltas bs ds) :
    Moved deltas (List.zipWith Interval.inter as bs) (List.zipWith Interval.inter cs ds) := by
  induction first generalizing bs ds with
  | nil => exact .nil
  | cons head _ ih =>
    cases second with
    | cons head' rest => exact .cons (head.inter head') (ih rest)

theorem Moved.leftover (first : Moved deltas as cs) (second : Moved deltas bs ds) :
    List.Forall₂ (Moved deltas) (Box.leftover as bs) (Box.leftover cs ds) := by
  induction first generalizing bs ds with
  | nil => exact .nil
  | cons head tail ih =>
    cases second with
    | cons head' rest =>
      apply List.rel_append
      · exact List.rel_map (fun _ _ cut => .cons cut tail) (head.outside head')
      · exact List.rel_map (fun _ _ cut => .cons (head.inter head') cut) (ih rest)

theorem Moved.along {α : Type} {f : Interval → α → Except Fault Interval} {amounts : List α}
    (step : ∀ delta i j amount a b, Interval.Moved delta i j → f i amount = .ok a →
      f j amount = .ok b → Interval.Moved delta a b)
    (moved : Moved deltas is js) (same : is.length = amounts.length)
    (first : alongAxes f is amounts = .ok as) (second : alongAxes f js amounts = .ok bs) :
    Moved deltas as bs := by
  induction moved generalizing amounts as bs with
  | nil =>
    cases first
    cases second
    exact .nil
  | cons head _ ih =>
    cases amounts with
    | nil => simp at same
    | cons amount amounts =>
      obtain ⟨a, restA, headA, tailA, rfl⟩ := alongAxes_cons_eq_ok.mp first
      obtain ⟨b, restB, headB, tailB, rfl⟩ := alongAxes_cons_eq_ok.mp second
      exact .cons (step _ _ _ _ _ _ head headA headB) (ih (Nat.succ.inj same) tailA tailB)

theorem back_of_shift {c c' : Cell} (same : is.length = deltas.length)
    (run : alongAxes Interval.shift is deltas = .ok js)
    (first : alongAxes Interval.coordAt is (List.replicate is.length 0) = .ok c)
    (second : alongAxes Interval.coordAt js (List.replicate js.length 0) = .ok c') :
    c'.map (fun x => -x.val) = List.zipWith (· - ·) (c.map fun x => -x.val) deltas := by
  induction is generalizing deltas js c c' with
  | nil =>
    cases run
    cases first
    cases second
    rfl
  | cons i is ih =>
    cases deltas with
    | nil => simp at same
    | cons delta deltas =>
      obtain ⟨j, rest, head, tail, rfl⟩ := alongAxes_cons_eq_ok.mp run
      obtain ⟨x, xs, headX, tailX, rfl⟩ := alongAxes_cons_eq_ok.mp first
      obtain ⟨y, ys, headY, tailY, rfl⟩ := alongAxes_cons_eq_ok.mp second
      have moved := (Interval.ends_shift head).1
      rw [Interval.start_of_coordAt headX, Interval.start_of_coordAt headY] at moved
      obtain ⟨z, sum, eq⟩ := Endpoint.shift_finite_eq_ok.mp moved
      cases eq
      have back : -y.val = -x.val - delta := by omega
      rw [List.map_cons, List.map_cons, List.zipWith_cons_cons, back,
        ih (Nat.succ.inj same) tail tailX tailY]

end Axes

namespace Box

/-- The box `b` holds the points of `a`, each moved by these deltas. -/
def Moved (deltas : List Int) (a b : Box) : Prop := Axes.Moved deltas a.axes b.axes

variable {deltas : List Int} {a b c d : Box}

theorem moved_of_shift (run : a.shift deltas = .ok b) : a.Moved deltas b :=
  Axes.moved_of_shift (move_eq_ok run).2.1 (axes_shift run)

theorem moved_ofAxes {is js : List Interval} (moved : Axes.Moved deltas is js) :
    (ofAxes is).Moved deltas (ofAxes js) := by
  unfold Moved
  cases void : is.any Interval.isEmpty with
  | false =>
    rw [ofAxes_of_nonempty void, ofAxes_of_nonempty (moved.any_isEmpty ▸ void)]
    exact moved
  | true =>
    rw [ofAxes_of_empty void, ofAxes_of_empty (moved.any_isEmpty ▸ void)]
    exact moved.empties

theorem Moved.isEmpty (moved : a.Moved deltas b) : a.isEmpty = b.isEmpty :=
  Axes.Moved.any_isEmpty moved

theorem Moved.dim (moved : a.Moved deltas b) : a.dim = b.dim := by
  obtain ⟨left, right⟩ := Axes.Moved.lengths moved
  exact left.trans right.symm

theorem Moved.shift (moved : a.Moved deltas b) (solid : a.isEmpty = false) :
    a.shift deltas = .ok b :=
  shift_eq_ok_of_axes solid (Axes.Moved.lengths moved).1 (Axes.Moved.shift moved solid)

theorem Moved.empty (moved : a.Moved deltas b) : (Box.empty a.dim).Moved deltas (.empty b.dim) := by
  have void := moved_ofAxes (Axes.Moved.empties moved)
  rwa [List.map_const', List.map_const'] at void

theorem Moved.inter (first : a.Moved deltas c) (second : b.Moved deltas d) :
    (a.inter b).Moved deltas (c.inter d) :=
  moved_ofAxes (Axes.Moved.inter first second)

theorem Moved.carve (first : a.Moved deltas c) (second : b.Moved deltas d) :
    List.Forall₂ (Moved deltas) (a.carve b) (c.carve d) := by
  unfold Box.carve
  rw [(first.inter second).isEmpty]
  split
  · exact .cons first .nil
  · have pieces := Axes.Moved.leftover first second
    apply List.forall₂_map_left_iff.mpr
    apply List.forall₂_map_right_iff.mpr
    exact pieces.imp fun _ _ => moved_ofAxes

theorem Moved.move {α : Type} {use : Use} {f : Interval → α → Except Fault Interval}
    {amounts : List α}
    (step : ∀ delta i j amount k l, Interval.Moved delta i j → f i amount = .ok k →
      f j amount = .ok l → Interval.Moved delta k l)
    (moved : a.Moved deltas b) (first : a.move use f amounts = .ok c)
    (second : b.move use f amounts = .ok d) : c.Moved deltas d := by
  obtain ⟨_, same, as, alongA, rfl⟩ := move_eq_ok first
  obtain ⟨_, _, bs, alongB, rfl⟩ := move_eq_ok second
  exact moved_ofAxes (Axes.Moved.along step moved same alongA alongB)

theorem Moved.grow {ms : List Margin} (moved : a.Moved deltas b) (first : a.grow ms = .ok c)
    (second : b.grow ms = .ok d) : c.Moved deltas d :=
  moved.move (f := Interval.grow) (fun _ _ _ _ _ _ => Interval.Moved.grow) first second

theorem Moved.shifted {ms : List Int} (moved : a.Moved deltas b) (first : a.shift ms = .ok c)
    (second : b.shift ms = .ok d) : c.Moved deltas d :=
  moved.move (f := Interval.shift) (fun _ _ _ _ _ _ => Interval.Moved.shifted) first second

theorem back_of_shift {origin origin' : Cell} (run : a.shift deltas = .ok b)
    (first : a.first = .ok origin) (second : b.first = .ok origin') :
    origin'.map (fun x => -x.val) = List.zipWith (· - ·) (origin.map fun x => -x.val) deltas := by
  obtain ⟨_, _, along⟩ := bind_eq_ok.mp first
  obtain ⟨_, _, along'⟩ := bind_eq_ok.mp second
  exact Axes.back_of_shift (move_eq_ok run).2.1 (axes_shift run) along along'

end Box

end GridRegions
