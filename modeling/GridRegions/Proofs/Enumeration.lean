import GridRegions.Walk
import GridRegions.Proofs.Corners

/-!
The cells that a walk visits. On each stretch, and from it on each box, going to the next one runs
through all there are in order and then stops; a walk does so with one box after the other.
-/
namespace GridRegions

/-- The first axis on which the cells differ decides. -/
def Cell.Before : Cell → Cell → Prop := List.Lex fun x y => x.val < y.val

/-- From `a` on, `next?` goes through these elements and then stops. -/
inductive Visits {α : Type} (next? : α → Option α) : α → List α → Prop where
  | last {a : α} (done : next? a = none) : Visits next? a [a]
  | step {a b : α} {as : List α} (more : next? a = some b) (rest : Visits next? b as) :
      Visits next? a (a :: as)

namespace Stretch

theorem ends_of_ofInterval {i : Interval} {s : Stretch} (read : ofInterval i = .ok s) :
    i.start = .finite s.lo ∧ i.stop = .finite s.hi := by
  obtain ⟨lo, start, run⟩ := bind_eq_ok.mp read
  obtain ⟨hi, stop, run⟩ := bind_eq_ok.mp run
  cases run
  exact ⟨Endpoint.value_eq_ok.mp start, Endpoint.value_eq_ok.mp stop⟩

theorem exists_ofInterval {i : Interval} (bounded : i.isBounded = true) :
    ∃ s, ofInterval i = .ok s := by
  obtain ⟨l, u, start, stop⟩ := Interval.ends_of_isBounded bounded
  refine ⟨⟨l, u⟩, ?_⟩
  rw [ofInterval, start, stop]
  rfl

theorem next?_eq_none {s : Stretch} {c : Coord} (last : s.hi.val ≤ c.val + 1) : s.next? c = none :=
  dif_neg (Int.not_lt.mpr last)

theorem exists_next? {s : Stretch} {c : Coord} (room : c.val + 1 < s.hi.val) :
    ∃ d, s.next? c = some d ∧ d.val = c.val + 1 :=
  ⟨_, dif_pos room, rfl⟩

theorem exists_visits (s : Stretch) {c : Coord} (room : c.val < s.hi.val) :
    ∃ cs, Visits s.next? c cs ∧ (∀ d : Coord, d ∈ cs ↔ c.val ≤ d.val ∧ d.val < s.hi.val) ∧
      cs.Pairwise fun d e => d.val < e.val := by
  induction left : (s.hi.val - c.val).toNat generalizing c with
  | zero => omega
  | succ n ih =>
    by_cases more : c.val + 1 < s.hi.val
    · obtain ⟨d, next, val⟩ := exists_next? more
      obtain ⟨ds, visits, members, sorted⟩ := ih (c := d) (by omega) (by omega)
      refine ⟨c :: ds, .step next visits, fun e => ?_, ?_⟩
      · rw [List.mem_cons, members, Coord.ext_iff]
        omega
      · apply List.pairwise_cons.mpr
        refine ⟨fun e later => ?_, sorted⟩
        have := (members e).mp later
        omega
    · refine ⟨[c], .last (next?_eq_none (by omega)), fun e => ?_, List.pairwise_singleton _ c⟩
      rw [List.mem_singleton, Coord.ext_iff]
      omega

end Stretch

namespace Walk

variable {s : Stretch} {axes : List Stretch} {c d : Coord} {cell : Cell} {cs : List Coord}
  {tails cells : List Cell}

theorem visits_last (done : s.next? c = none) (tail : Visits (advance axes) cell tails) :
    Visits (advance (s :: axes)) (c :: cell) (tails.map (c :: ·)) := by
  induction tail with
  | last stop => exact .last (by rw [advance, stop, done]; rfl)
  | step more _ ih => exact .step (by rw [advance, more]) ih

theorem visits_step (next : s.next? c = some d) (tail : Visits (advance axes) cell tails)
    (rest : Visits (advance (s :: axes)) (d :: firstCell axes) cells) :
    Visits (advance (s :: axes)) (c :: cell) (tails.map (c :: ·) ++ cells) := by
  induction tail with
  | last stop => exact .step (by rw [advance, stop, next]; rfl) rest
  | step more _ ih => exact .step (by rw [advance, more]) ih

theorem visits_flatMap (heads : Visits s.next? c cs)
    (tail : Visits (advance axes) (firstCell axes) tails) :
    Visits (advance (s :: axes)) (c :: firstCell axes)
      (cs.flatMap fun x => tails.map (x :: ·)) := by
  induction heads with
  | last done =>
    rw [List.flatMap_singleton]
    exact visits_last done tail
  | step more _ ih =>
    rw [List.flatMap_cons]
    exact visits_step more tail ih

theorem pairwise_before_flatMap (heads : cs.Pairwise fun x y => x.val < y.val)
    (tail : tails.Pairwise Cell.Before) :
    (cs.flatMap fun x => tails.map (x :: ·)).Pairwise Cell.Before := by
  apply List.pairwise_flatMap.mpr
  constructor
  · intro x _
    apply List.pairwise_map.mpr
    exact tail.imp fun before => .cons before
  · apply heads.imp
    intro x y less p first q second
    obtain ⟨_, _, rfl⟩ := List.mem_map.mp first
    obtain ⟨_, _, rfl⟩ := List.mem_map.mp second
    exact .rel less

/-- The cells of the box, each once and in order. -/
structure Lists (axes : List Interval) (cells : List Cell) : Prop where
  mem : ∀ c : Cell, c ∈ cells ↔ Axes.Mem axes (c.map Coord.val)
  sorted : cells.Pairwise Cell.Before

/- The cells whose first coordinate is the lowest come first, each followed by those of the other axes. -/
theorem lists_flatMap {i : Interval} {is : List Interval} (members : ∀ x : Coord, x ∈ cs ↔ i.Mem x.val)
    (increasing : cs.Pairwise fun x y => x.val < y.val) (lists : Lists is tails) :
    Lists (i :: is) (cs.flatMap fun x => tails.map (x :: ·)) := by
  refine ⟨fun c => ?_, pairwise_before_flatMap increasing lists.sorted⟩
  simp only [List.mem_flatMap, List.mem_map]
  constructor
  · rintro ⟨x, here, later, there, rfl⟩
    exact ⟨(members x).mp here, (lists.mem later).mp there⟩
  · intro inside
    cases c with
    | nil => exact inside.elim
    | cons x xs => exact ⟨x, (members x).mpr inside.1, xs, (lists.mem xs).mpr inside.2, rfl⟩

theorem lists_nil : Lists [] [[]] := by
  refine ⟨fun c => ?_, List.pairwise_singleton _ _⟩
  cases c with
  | nil => exact iff_of_true List.mem_cons_self trivial
  | cons x xs => exact iff_of_false (by simp) id

theorem exists_visits {is : List Interval}
    (read : List.Forall₂ (fun i s => Stretch.ofInterval i = .ok s) is axes)
    (solid : is.any Interval.isEmpty = false) :
    ∃ cells, Visits (advance axes) (firstCell axes) cells ∧ Lists is cells := by
  induction read with
  | nil => exact ⟨[[]], .last rfl, lists_nil⟩
  | @cons i s is axes first _ ih =>
    rw [List.any_cons, Bool.or_eq_false_iff] at solid
    obtain ⟨start, stop⟩ := Stretch.ends_of_ofInterval first
    have ordered := (Interval.isEmpty_eq_false_iff i).mp solid.1
    rw [start, stop] at ordered
    obtain ⟨cs, heads, members, increasing⟩ := s.exists_visits (c := s.lo) ordered
    obtain ⟨tails, tail, lists⟩ := ih solid.2
    have inside : ∀ x : Coord, x ∈ cs ↔ i.Mem x.val := fun x =>
      (members x).trans (Interval.mem_of_ends start stop).symm
    exact ⟨_, visits_flatMap heads tail, lists_flatMap inside increasing lists⟩

theorem take_of_visits {rest : List (List Stretch)} {more : List Cell}
    (here : Visits (advance axes) cell cells)
    (later : ∀ n, ((enter rest).take n).1 = more.take n) (n : Nat) :
    ((Walk.mk (axes :: rest) cell).take n).1 = (cells ++ more).take n := by
  induction here generalizing n with
  | last done =>
    cases n with
    | zero => rfl
    | succ n => simp [take, next?, done, later]
  | step next _ ih =>
    cases n with
    | zero => rfl
    | succ n => simp [take, next?, next, ih]

theorem exists_take {boxes : List Box} {ahead : List (List Stretch)}
    (solid : ∀ b ∈ boxes, b.isEmpty = false)
    (read : List.Forall₂ (fun b axes => b.axes.mapM Stretch.ofInterval = .ok axes) boxes ahead) :
    ∃ lists, List.Forall₂ (fun b cells => Lists b.axes cells) boxes lists ∧
      ∀ n, ((enter ahead).take n).1 = lists.flatten.take n := by
  induction read with
  | nil =>
    refine ⟨[], .nil, fun n => ?_⟩
    cases n <;> rfl
  | cons first _ ih =>
    obtain ⟨solidB, solids⟩ := List.forall_mem_cons.mp solid
    obtain ⟨lists, listed, takes⟩ := ih solids
    obtain ⟨cells, visits, here⟩ := exists_visits (mapM_eq_ok.mp first) solidB
    exact ⟨cells :: lists, .cons here listed, take_of_visits visits takes⟩

theorem ofBoxes_of_solid {boxes : List Box} (solid : ∀ b ∈ boxes, b.isEmpty = false) :
    ofBoxes boxes = (boxes.mapM fun b : Box => b.axes.mapM Stretch.ofInterval).map enter := by
  have kept : boxes.filter (!·.isEmpty) = boxes :=
    List.filter_eq_self.mpr fun b member => by simp [solid b member]
  rw [ofBoxes, kept]
  rfl

/-- A walk over bounded boxes visits the cells of one after the other, in order, and then no more. -/
theorem exists_lists {boxes : List Box} (solid : ∀ b ∈ boxes, b.isEmpty = false)
    (bounded : ∀ b ∈ boxes, b.isBounded = true) :
    ∃ w lists, ofBoxes boxes = .ok w ∧ List.Forall₂ (fun b cells => Lists b.axes cells) boxes lists ∧
      ∀ n, (w.take n).1 = lists.flatten.take n := by
  have axes : ∀ b ∈ boxes, ∃ axes, b.axes.mapM Stretch.ofInterval = .ok axes := by
    intro b member
    apply exists_mapM
    intro i axis
    exact Stretch.exists_ofInterval (List.all_eq_true.mp (bounded b member) i axis)
  obtain ⟨ahead, read⟩ := exists_mapM axes
  obtain ⟨lists, listed, takes⟩ := exists_take solid (mapM_eq_ok.mp read)
  refine ⟨enter ahead, lists, ?_, listed, takes⟩
  rw [ofBoxes_of_solid solid, read]
  rfl

end Walk

end GridRegions
