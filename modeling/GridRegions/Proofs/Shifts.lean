import GridRegions.Proofs.Fusion
import GridRegions.Proofs.Overflow
import GridRegions.Proofs.Traversal

/-!
Regions that are shifted. A shift is refused for another number of axes, for a region without
points and where a finite end would leave the coordinates, in this order and for nothing else.
What it gives has the parts of the region one by one with their ends moved, and a walk over it is
at every step where a walk over the region is, moved by the deltas.
-/
namespace GridRegions

/-- Entry by entry, the second list is related to the first by the delta of the axis. -/
inductive Along {α : Type} (R : Int → α → α → Prop) : List Int → List α → List α → Prop where
  | nil : Along R [] [] []
  | cons {delta : Int} {deltas : List Int} {a b : α} {as bs : List α} (first : R delta a b)
      (rest : Along R deltas as bs) : Along R (delta :: deltas) (a :: as) (b :: bs)

theorem along_of_alongAxes {α : Type} {R : Int → α → α → Prop} {f : α → Int → Except Fault α}
    {as bs : List α} {deltas : List Int} (each : ∀ a delta b, f a delta = .ok b → R delta a b)
    (same : as.length = deltas.length) (run : alongAxes f as deltas = .ok bs) :
    Along R deltas as bs := by
  induction as generalizing deltas bs with
  | nil =>
    cases run
    rw [List.length_eq_zero_iff.mp same.symm]
    exact .nil
  | cons a as ih =>
    cases deltas with
    | nil => simp at same
    | cons delta deltas =>
      obtain ⟨b, rest, first, later, rfl⟩ := alongAxes_cons_eq_ok.mp run
      exact .cons (each a delta b first) (ih (Nat.succ.inj same) later)

theorem none_or_some_of_rel {α β : Type} {R : α → β → Prop} {x : Option α} {y : Option β}
    (related : Option.Rel R x y) :
    (x = none ∧ y = none) ∨ ∃ a b, x = some a ∧ y = some b ∧ R a b := by
  cases related with
  | some both => exact .inr ⟨_, _, rfl, rfl, both⟩
  | none => exact .inl ⟨rfl, rfl⟩

def Coord.Moved (delta : Int) (c d : Coord) : Prop := d.val = c.val + delta

namespace Endpoint

/-- A finite end is moved by `delta`, an infinite one stays. -/
def Moved (delta : Int) : Endpoint → Endpoint → Prop
  | .negInf, .negInf => True
  | .finite c, .finite d => c.Moved delta d
  | .posInf, .posInf => True
  | _, _ => False

variable {e e' : Endpoint} {delta : Int}

theorem moved_of_shift (run : e.shift delta = .ok e') : e.Moved delta e' := by
  cases e with
  | negInf =>
    cases run
    trivial
  | finite c =>
    obtain ⟨d, sum, rfl⟩ := shift_finite_eq_ok.mp run
    exact sum.symm
  | posInf =>
    cases run
    trivial

theorem Moved.exists_finite {c : Coord} (moved : (finite c).Moved delta e') :
    ∃ d, e' = .finite d ∧ c.Moved delta d := by
  cases e' with
  | negInf => exact moved.elim
  | finite d => exact ⟨d, rfl, moved⟩
  | posInf => exact moved.elim

theorem room_iff : e.Room delta ↔ ∀ c, e = .finite c → Coord.Fits (c.val + delta) := by
  cases e with
  | negInf => simp [Room]
  | finite c => simp [Room]
  | posInf => simp [Room]

end Endpoint

namespace Interval

def EndsMoved (delta : Int) (i j : Interval) : Prop :=
  i.start.Moved delta j.start ∧ i.stop.Moved delta j.stop

theorem endsMoved_of_shift {i j : Interval} {delta : Int} (run : i.shift delta = .ok j) :
    i.EndsMoved delta j := by
  obtain ⟨start, stop⟩ := ends_shift run
  exact ⟨Endpoint.moved_of_shift start, Endpoint.moved_of_shift stop⟩

end Interval

namespace Box

variable {b : Box} {deltas : List Int}

/-- Some finite end of an axis is no coordinate any more when its delta is added. -/
def Leaves (deltas : List Int) (b : Box) : Prop := ∃ a ∈ b.axes.zip deltas, ∃ c : Coord,
  (a.1.start = .finite c ∨ a.1.stop = .finite c) ∧ ¬ Coord.Fits (c.val + a.2)

theorem not_leaves_iff (same : b.dim = deltas.length) :
    ¬ b.Leaves deltas ↔ List.Forall₂ Interval.RoomToShift b.axes deltas := by
  have lengths : b.axes.length = deltas.length := same
  rw [List.forall₂_iff_zip]
  simp only [lengths, true_and, Interval.RoomToShift, Endpoint.room_iff, Leaves, not_exists, not_and,
    not_not, Prod.forall]
  constructor
  · intro fit i delta axis
    exact ⟨fun c start => fit i delta axis c (.inl start), fun c stop => fit i delta axis c (.inr stop)⟩
  · intro room i delta axis c ends
    rcases ends with start | stop
    · exact (room axis).1 c start
    · exact (room axis).2 c stop

theorem exists_shift_iff_not_leaves (solid : b.isEmpty = false) (same : b.dim = deltas.length) :
    (∃ moved, b.shift deltas = .ok moved) ↔ ¬ b.Leaves deltas :=
  (exists_shift_iff solid same).trans (not_leaves_iff same).symm

theorem along_of_shift {moved : Box} (run : b.shift deltas = .ok moved) :
    Along Interval.EndsMoved deltas b.axes moved.axes :=
  along_of_alongAxes (fun _ _ _ => Interval.endsMoved_of_shift) (move_eq_ok run).2.1 (axes_shift run)

end Box

namespace Stretch

variable {s t : Stretch} {c d : Coord} {delta : Int} {i j : Interval}

def Moved (delta : Int) (s t : Stretch) : Prop := s.lo.Moved delta t.lo ∧ s.hi.Moved delta t.hi

theorem exists_ofInterval_moved (moved : i.EndsMoved delta j) (read : ofInterval i = .ok s) :
    ∃ t, ofInterval j = .ok t ∧ s.Moved delta t := by
  obtain ⟨start, stop⟩ := ends_of_ofInterval read
  obtain ⟨first, last⟩ := moved
  rw [start] at first
  rw [stop] at last
  obtain ⟨lo, start', low⟩ := first.exists_finite
  obtain ⟨hi, stop', high⟩ := last.exists_finite
  refine ⟨⟨lo, hi⟩, ?_, low, high⟩
  rw [ofInterval, start', stop']
  rfl

theorem Moved.next? (moved : s.Moved delta t) (here : c.Moved delta d) :
    Option.Rel (Coord.Moved delta) (s.next? c) (t.next? d) := by
  obtain ⟨_, high⟩ := moved
  unfold Coord.Moved at here high
  by_cases room : c.val + 1 < s.hi.val
  · obtain ⟨x, next, val⟩ := exists_next? room
    obtain ⟨y, next', val'⟩ := exists_next? (s := t) (c := d) (by omega)
    rw [next, next']
    exact .some (by unfold Coord.Moved; omega)
  · rw [next?_eq_none (by omega), next?_eq_none (by omega)]
    exact .none

end Stretch

namespace Walk

variable {deltas : List Int} {axes axes' : List Stretch} {cell cell' : Cell} {w w' : Walk}

theorem along_firstCell (moved : Along Stretch.Moved deltas axes axes') :
    Along Coord.Moved deltas (firstCell axes) (firstCell axes') := by
  induction moved with
  | nil => exact .nil
  | cons first _ ih => exact .cons first.1 ih

/- An axis runs out where the moved one does, so the same axis goes on and the same ones begin anew. -/
theorem along_advance (moved : Along Stretch.Moved deltas axes axes')
    (here : Along Coord.Moved deltas cell cell') :
    Option.Rel (Along Coord.Moved deltas) (advance axes cell) (advance axes' cell') := by
  induction moved generalizing cell cell' with
  | nil =>
    cases here
    exact .none
  | cons first rest ih =>
    cases here with
    | cons coord there =>
      rcases none_or_some_of_rel (ih there) with ⟨done, done'⟩ | ⟨_, _, more, more', tail⟩
      · rw [advance, advance, done, done']
        rcases none_or_some_of_rel (first.next? coord) with ⟨last, last'⟩ | ⟨_, _, next, next', onward⟩
        · rw [last, last']
          exact .none
        · rw [next, next']
          exact .some (.cons onward (along_firstCell rest))
      · rw [advance, advance, more, more']
        exact .some (.cons coord tail)

/-- The walks have boxes ahead that are moved one by one, and both stand in the first, if there is one,
    at a cell and where it is moved. -/
inductive Moved (deltas : List Int) : Walk → Walk → Prop where
  | atEnd (cell cell' : Cell) : Moved deltas ⟨[], cell⟩ ⟨[], cell'⟩
  | inside {axes axes' : List Stretch} {rest rest' : List (List Stretch)} {cell cell' : Cell}
      (box : Along Stretch.Moved deltas axes axes')
      (boxes : List.Forall₂ (Along Stretch.Moved deltas) rest rest')
      (here : Along Coord.Moved deltas cell cell') :
      Moved deltas ⟨axes :: rest, cell⟩ ⟨axes' :: rest', cell'⟩

theorem moved_enter {ahead ahead' : List (List Stretch)}
    (moved : List.Forall₂ (Along Stretch.Moved deltas) ahead ahead') :
    (enter ahead).Moved deltas (enter ahead') := by
  cases moved with
  | nil => exact .atEnd [] []
  | cons first rest => exact .inside first rest (along_firstCell first)

theorem Moved.next? (moved : w.Moved deltas w') : Option.Rel
    (fun a b => Along Coord.Moved deltas a.1 b.1 ∧ a.2.Moved deltas b.2) w.next? w'.next? := by
  cases moved with
  | atEnd cell cell' => exact .none
  | inside box boxes here =>
    simp only [Walk.next?]
    rcases none_or_some_of_rel (along_advance box here) with ⟨done, done'⟩ | ⟨_, _, more, more', later⟩
    · rw [done, done']
      exact .some ⟨here, moved_enter boxes⟩
    · rw [more, more']
      exact .some ⟨here, .inside box boxes later⟩

/-- Moved walks take the same number of cells, each where the other's is moved. -/
theorem Moved.take (moved : w.Moved deltas w') (n : Nat) :
    List.Forall₂ (Along Coord.Moved deltas) (w.take n).1 (w'.take n).1 := by
  induction n generalizing w w' with
  | zero => exact .nil
  | succ n ih =>
    rw [Walk.take, Walk.take]
    rcases none_or_some_of_rel moved.next? with ⟨done, done'⟩ | ⟨_, _, step, step', here, after⟩
    · rw [done, done']
      exact .nil
    · rw [step, step']
      exact .cons here (ih after)

theorem ofBoxes_eq_ok {boxes : List Box} (solid : ∀ b ∈ boxes, b.isEmpty = false) :
    ofBoxes boxes = .ok w ↔ ∃ ahead,
      List.Forall₂ (fun b axes => b.axes.mapM Stretch.ofInterval = .ok axes) boxes ahead ∧
      w = enter ahead := by
  rw [ofBoxes_of_solid solid, map_eq_ok]
  simp only [mapM_eq_ok, @eq_comm _ w]

theorem exists_axes_moved {is js : List Interval} (moved : Along Interval.EndsMoved deltas is js)
    (read : is.mapM Stretch.ofInterval = .ok axes) :
    ∃ axes', js.mapM Stretch.ofInterval = .ok axes' ∧ Along Stretch.Moved deltas axes axes' := by
  simp only [mapM_eq_ok] at read ⊢
  induction moved generalizing axes with
  | nil =>
    cases read
    exact ⟨[], .nil, .nil⟩
  | cons first _ ih =>
    cases read with
    | cons here later =>
      obtain ⟨t, here', moved⟩ := Stretch.exists_ofInterval_moved first here
      obtain ⟨ts, later', rest⟩ := ih later
      exact ⟨t :: ts, .cons here' later', .cons moved rest⟩

theorem exists_ahead_moved {boxes boxes' : List Box} {ahead : List (List Stretch)}
    (moved : List.Forall₂ (fun b c => Along Interval.EndsMoved deltas b.axes c.axes) boxes boxes')
    (read : List.Forall₂ (fun b axes => b.axes.mapM Stretch.ofInterval = .ok axes) boxes ahead) :
    ∃ ahead', List.Forall₂ (fun b axes => b.axes.mapM Stretch.ofInterval = .ok axes) boxes' ahead' ∧
      List.Forall₂ (Along Stretch.Moved deltas) ahead ahead' := by
  induction moved generalizing ahead with
  | nil =>
    cases read
    exact ⟨[], .nil, .nil⟩
  | cons first _ ih =>
    cases read with
    | cons here later =>
      obtain ⟨axes, here', moved⟩ := exists_axes_moved first here
      obtain ⟨rest, later', moved'⟩ := ih later
      exact ⟨axes :: rest, .cons here' later', .cons moved moved'⟩

end Walk

namespace Region

variable {r : Region} {deltas : List Int}

/-- What a region keeps when it is shifted: its shape and its promise, and its parts one by one with the
    ends moved. Its points are moved, a walk over it comes at each step to where the walk over the
    other comes, and the opposite shift leads back. -/
structure Shifted (r : Region) (deltas : List Int) (moved : Region) : Prop where
  dim : moved.dim = r.dim
  shape : moved.shape = r.shape
  disjoint : moved.disjoint = r.disjoint
  parts : List.Forall₂ (fun b c => Along Interval.EndsMoved deltas b.axes c.axes) r.parts moved.parts
  points : ∀ p, moved.Mem p ↔ ∃ q, r.Mem q ∧ p = List.zipWith (· + ·) q deltas
  walks : (r.walk = .error .unbounded ∧ moved.walk = .error .unbounded) ∨
    ∃ w w', r.walk = .ok w ∧ moved.walk = .ok w' ∧
      ∀ n, List.Forall₂ (Along Coord.Moved deltas) (w.take n).1 (w'.take n).1
  back : moved.shift (deltas.map fun delta => -delta) = .ok r

theorem shift_of_ne (differ : r.dim ≠ deltas.length) :
    r.shift deltas = .error (.dimensionMismatch r.dim deltas.length) := by
  rw [shift, Fault.checkDim, if_neg differ]
  rfl

theorem shift_of_empty (same : r.dim = deltas.length) (void : r.isEmpty = true) :
    r.shift deltas = .error (.emptyOperand .shifted) := by
  rw [shift, (checkDim_eq_ok (u := ())).mpr same, if_pos void]
  rfl

theorem shift_of_solid (same : r.dim = deltas.length) (solid : r.isEmpty = false) :
    r.shift deltas = (r.parts.mapM (Box.shift · deltas)).map fun moved =>
      ofParts r.dim moved r.disjoint := by
  rw [shift, (checkDim_eq_ok (u := ())).mpr same, if_neg (Bool.eq_false_iff.mp solid)]
  rfl

theorem mapM_shift_eq_error_iff (same : r.dim = deltas.length) {fault : Fault} :
    r.parts.mapM (Box.shift · deltas) = .error fault ↔
      fault = .overflow ∧ ∃ b ∈ r.parts, b.Leaves deltas := by
  have sorts : OnlyOverflows (r.parts.mapM (Box.shift · deltas)) := .mapM fun b part =>
    Box.shift_onlyOverflows (r.solid b part) ((r.sameDim b part).trans same)
  have room : ∀ b ∈ r.parts, (∃ c, b.shift deltas = .ok c) ↔ ¬ b.Leaves deltas := fun b part =>
    Box.exists_shift_iff_not_leaves (r.solid b part) ((r.sameDim b part).trans same)
  cases run : r.parts.mapM (Box.shift · deltas) with
  | error cause =>
    cases sorts cause run
    obtain ⟨b, part, failed⟩ := exists_of_mapM_eq_error run
    have leaves : b.Leaves deltas := by
      apply Classical.byContradiction
      intro fit
      obtain ⟨c, found⟩ := (room b part).mpr fit
      rw [found] at failed
      cases failed
    constructor
    · intro eq
      cases eq
      exact ⟨rfl, b, part, leaves⟩
    · rintro ⟨rfl, _⟩
      rfl
  | ok moved =>
    apply iff_of_false (by simp)
    rintro ⟨_, b, part, leaves⟩
    obtain ⟨c, _, found⟩ := exists_of_forall₂ (mapM_eq_ok.mp run).flip part
    exact (room b part).mp ⟨c, found⟩ leaves

theorem ofParts_parts (r : Region) : ofParts r.dim r.parts r.disjoint = r := by
  have parts := parts_ofParts r.disjoint r.sameDim r.solid
  exact Region.ext rfl parts (disjoint_ofParts (parts.symm ▸ r.settled))

theorem exists_walks_moved {moved : Region}
    (runs : List.Forall₂ (fun b c => b.shift deltas = .ok c) r.parts moved.parts) :
    (r.walk = .error .unbounded ∧ moved.walk = .error .unbounded) ∨
      ∃ w w', r.walk = .ok w ∧ moved.walk = .ok w' ∧ w.Moved deltas w' := by
  cases run : r.walk with
  | error fault =>
    obtain ⟨rfl, b, part, unbounded⟩ := (Walk.ofBoxes_eq_error_iff r.solid).mp run
    obtain ⟨c, part', shifted⟩ := exists_of_forall₂ runs.flip part
    have unbounded' : c.isBounded = false := by
      apply Bool.eq_false_iff.mpr
      intro bounded
      rw [Box.isBounded_shift (Box.shift_back shifted) bounded] at unbounded
      cases unbounded
    exact .inl ⟨rfl, (Walk.ofBoxes_eq_error_iff moved.solid).mpr ⟨rfl, c, part', unbounded'⟩⟩
  | ok w =>
    obtain ⟨ahead, read, rfl⟩ := (Walk.ofBoxes_eq_ok r.solid).mp run
    obtain ⟨ahead', read', related⟩ :=
      Walk.exists_ahead_moved (runs.imp fun _ _ => Box.along_of_shift) read
    exact .inr ⟨_, _, rfl, (Walk.ofBoxes_eq_ok moved.solid).mpr ⟨ahead', read', rfl⟩,
      Walk.moved_enter related⟩

theorem shifted_of_run {boxes : List Box} (same : r.dim = deltas.length) (solid : r.isEmpty = false)
    (run : r.parts.mapM (Box.shift · deltas) = .ok boxes) :
    Shifted r deltas (ofParts r.dim boxes r.disjoint) := by
  have runs := mapM_eq_ok.mp run
  have dims := dims_shift run
  have solids : ∀ c ∈ boxes, c.isEmpty = false := by
    intro c member
    obtain ⟨b, _, shifted⟩ := exists_of_forall₂ runs member
    exact Box.isEmpty_shift shifted
  have parts : (ofParts r.dim boxes r.disjoint).parts = boxes := parts_ofParts _ dims solids
  have disjoint : (ofParts r.dim boxes r.disjoint).disjoint = r.disjoint :=
    disjoint_ofParts fun few => r.settled (by rwa [parts, ← runs.length_eq] at few)
  constructor
  · rfl
  · rw [shape_eq, shape_eq, parts, runs.length_eq]
    rfl
  · exact disjoint
  · rw [parts]
    exact runs.imp fun _ _ => Box.along_of_shift
  · intro p
    rw [mem_ofParts dims]
    constructor
    · rintro ⟨c, member, inside⟩
      obtain ⟨b, part, shifted⟩ := exists_of_forall₂ runs member
      obtain ⟨q, held, eq⟩ := (Box.mem_shift shifted).mp inside
      exact ⟨q, ⟨b, part, held⟩, eq⟩
    · rintro ⟨q, ⟨b, part, held⟩, eq⟩
      obtain ⟨c, member, shifted⟩ := exists_of_forall₂ runs.flip part
      exact ⟨c, member, (Box.mem_shift shifted).mpr ⟨q, held, eq⟩⟩
  · rcases exists_walks_moved (parts.symm ▸ runs) with none | ⟨w, w', walk, walk', moved⟩
    · exact .inl none
    · exact .inr ⟨w, w', walk, walk', moved.take⟩
  · have back : boxes.mapM (Box.shift · (deltas.map fun delta => -delta)) = .ok r.parts :=
      mapM_eq_ok.mpr (runs.flip.imp fun _ _ => Box.shift_back)
    have full : (ofParts r.dim boxes r.disjoint).isEmpty = false := by
      rw [← solid, isEmpty, isEmpty, parts, Bool.eq_iff_iff, List.isEmpty_iff_length_eq_zero,
        List.isEmpty_iff_length_eq_zero, runs.length_eq]
    rw [shift_of_solid (by simpa using same) full, parts, back, disjoint]
    exact congrArg Except.ok (ofParts_parts r)

/-- A shift is refused for another number of axes, else for a region without points, else if a finite
    end of some part leaves the coordinates. In all other cases it gives a region that differs from
    the old one by the deltas alone. -/
theorem shift_exact (r : Region) (deltas : List Int) :
    (r.shift deltas = .error (.dimensionMismatch r.dim deltas.length) ↔ r.dim ≠ deltas.length) ∧
    (r.shift deltas = .error (.emptyOperand .shifted) ↔
      r.dim = deltas.length ∧ ∀ p, ¬ r.Mem p) ∧
    (r.shift deltas = .error .overflow ↔
      r.dim = deltas.length ∧ (∃ p, r.Mem p) ∧ ∃ b ∈ r.parts, b.Leaves deltas) ∧
    ((∃ moved, r.shift deltas = .ok moved ∧ r.Shifted deltas moved) ↔
      r.dim = deltas.length ∧ (∃ p, r.Mem p) ∧ ∀ b ∈ r.parts, ¬ b.Leaves deltas) := by
  by_cases same : r.dim = deltas.length
  · cases void : r.isEmpty with
    | true =>
      have none := (isEmpty_iff_forall_not_mem r).mp void
      simp [shift_of_empty same void, same, none]
    | false =>
      have inhabited : ¬ ∀ p, ¬ r.Mem p := by
        intro none
        rw [(isEmpty_iff_forall_not_mem r).mpr none] at void
        cases void
      have point : ∃ p, r.Mem p := Classical.not_forall_not.mp inhabited
      rw [shift_of_solid same void]
      cases run : r.parts.mapM (Box.shift · deltas) with
      | error fault =>
        obtain ⟨rfl, leaves⟩ := (mapM_shift_eq_error_iff same).mp run
        refine ⟨iff_of_false (by simp [Except.map]) (not_not_intro same),
          iff_of_false (by simp [Except.map]) fun void => inhabited void.2,
          iff_of_true rfl ⟨same, point, leaves⟩, iff_of_false (by simp [Except.map]) ?_⟩
        obtain ⟨b, part, out⟩ := leaves
        exact fun fit => fit.2.2 b part out
      | ok boxes =>
        have fit : ∀ b ∈ r.parts, ¬ b.Leaves deltas := by
          intro b part out
          have failed := (mapM_shift_eq_error_iff same).mpr ⟨rfl, b, part, out⟩
          rw [run] at failed
          cases failed
        refine ⟨iff_of_false (by simp [Except.map]) (not_not_intro same),
          iff_of_false (by simp [Except.map]) fun void => inhabited void.2,
          iff_of_false (by simp [Except.map]) ?_,
          iff_of_true ⟨_, rfl, shifted_of_run same void run⟩ ⟨same, point, fit⟩⟩
        rintro ⟨_, _, b, part, out⟩
        exact fit b part out
  · simp [shift_of_ne same, same]

theorem shift_exact_ledge :
    (∃ b ∈ Sample.ledge.parts, b.Leaves [0, 1]) ∧
    (∃ moved, Sample.ledge.shift [-9223372036854775807, 0] = .ok moved ∧ moved.shape = .boxUnion ∧
      moved.Mem [-9223372036854775807, 9223372036854775805] ∧
      moved.shift [9223372036854775807, 0] = .ok Sample.ledge) ∧
    Sample.ledge.shift [0] = .error (.dimensionMismatch 2 1) ∧
    (Region.empty 2).shift [0, 1] = .error (.emptyOperand .shifted) := by
  have inside : Sample.ledge.contains [.zero, Sample.coord 9223372036854775805] = true := by
    decide +kernel
  have beyond : Sample.ledge.shift [0, 1] = .error .overflow := by decide +kernel
  have runs : (Sample.ledge.shift [-9223372036854775807, 0]).isOk = true := by decide +kernel
  have none : (Region.empty 2).isEmpty = true := by decide +kernel
  obtain ⟨_, _, overflow, _⟩ := shift_exact Sample.ledge [0, 1]
  obtain ⟨_, _, fails, shifts⟩ := shift_exact Sample.ledge [-9223372036854775807, 0]
  obtain ⟨mismatch, _⟩ := shift_exact Sample.ledge [0]
  obtain ⟨_, void, _⟩ := shift_exact (Region.empty 2) [0, 1]
  have point : ∃ p, Sample.ledge.Mem p := ⟨_, contains_iff.mp inside⟩
  have fit : ∀ b ∈ Sample.ledge.parts, ¬ b.Leaves [-9223372036854775807, 0] := by
    intro b part out
    rw [fails.mpr ⟨rfl, point, b, part, out⟩] at runs
    cases runs
  obtain ⟨moved, run, shifted⟩ := shifts.mpr ⟨rfl, point, fit⟩
  have reached := (shifted.points [-9223372036854775807, 9223372036854775805]).mpr
    ⟨_, contains_iff.mp inside, rfl⟩
  exact ⟨(overflow.mp beyond).2.2, ⟨moved, run, shifted.shape, reached, shifted.back⟩,
    mismatch.mpr (by decide), void.mpr ⟨rfl, (isEmpty_iff_forall_not_mem _).mp none⟩⟩

end Region

end GridRegions
