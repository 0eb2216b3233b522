import GridRegions.Proofs.Canonical
import GridRegions.Proofs.Counting
import GridRegions.Proofs.Enumeration

/-!
A walk step by step. The cell that comes next always lies in the box that the walk stands in,
which is one of those it was begun with, so no coordinate is ever counted past the end of its
axis. Step by step the cells of the region come in the order in which its parts list them.
-/
namespace GridRegions

namespace Cell

theorem Before.asymm {c d : Cell} (first : Before c d) : ¬ Before d c := by
  intro second
  induction first with
  | nil => cases second
  | cons _ ih =>
    cases second with
    | cons second => exact ih second
    | rel less => exact Int.lt_irrefl _ less
  | rel less =>
    cases second with
    | cons _ => exact Int.lt_irrefl _ less
    | rel more => exact Int.lt_asymm less more

end Cell

namespace Stretch

/-- The coordinate is one of the stretch. -/
def Holds (s : Stretch) (c : Coord) : Prop := s.lo.val ≤ c.val ∧ c.val < s.hi.val

theorem holds_next? {s : Stretch} {c d : Coord} (inside : s.Holds c) (more : s.next? c = some d) :
    s.Holds d := by
  unfold next? at more
  split at more
  · rename_i room
    cases more
    exact ⟨Int.le_trans inside.1 (Int.le_of_lt (Int.lt_succ c.val)), room⟩
  · cases more

theorem isBounded_of_ofInterval {i : Interval} {s : Stretch} (read : ofInterval i = .ok s) :
    i.isBounded = true := by
  obtain ⟨start, stop⟩ := ends_of_ofInterval read
  rw [Interval.isBounded, start, stop]
  rfl

theorem fault_of_ofInterval {i : Interval} {fault : Fault} (run : ofInterval i = .error fault) :
    fault = .unbounded := by
  unfold ofInterval at run
  cases start : i.start <;> cases stop : i.stop <;> rw [start, stop] at run <;> cases run <;> rfl

end Stretch

namespace Walk

variable {axes : List Stretch} {is : List Interval} {cell later : Cell} {w : Walk}
  {boxes : List Box}

theorem holds_firstCell (proper : ∀ s ∈ axes, s.lo.val < s.hi.val) :
    List.Forall₂ Stretch.Holds axes (firstCell axes) := by
  apply List.forall₂_map_right_iff.mpr
  apply List.forall₂_same.mpr
  exact fun s axis => ⟨Int.le_refl _, proper s axis⟩

theorem holds_advance (inside : List.Forall₂ Stretch.Holds axes cell)
    (more : advance axes cell = some later) : List.Forall₂ Stretch.Holds axes later := by
  induction inside generalizing later with
  | nil => cases more
  | @cons s c axes cell here rest ih =>
    rw [advance] at more
    split at more
    · rename_i tail step
      cases more
      exact .cons here (ih step)
    · obtain ⟨d, step, rfl⟩ := Option.map_eq_some_iff.mp more
      refine .cons (Stretch.holds_next? here step) (holds_firstCell fun s axis => ?_)
      obtain ⟨c, _, holds⟩ := exists_of_forall₂ rest.flip axis
      exact Int.lt_of_le_of_lt holds.1 holds.2

/-- The box was read from one of `boxes`. -/
def ReadFrom (boxes : List Box) (axes : List Stretch) : Prop :=
  ∃ b ∈ boxes, b.isEmpty = false ∧ b.axes.mapM Stretch.ofInterval = .ok axes

/-- The boxes ahead were read from `boxes`, and the next cell lies in the first of them. -/
structure Stands (boxes : List Box) (w : Walk) : Prop where
  read : ∀ axes ∈ w.ahead, ReadFrom boxes axes
  inside : ∀ axes rest, w.ahead = axes :: rest → List.Forall₂ Stretch.Holds axes w.cell

theorem stands_enter {ahead : List (List Stretch)} (read : ∀ axes ∈ ahead, ReadFrom boxes axes) :
    (enter ahead).Stands boxes := by
  cases ahead with
  | nil => exact ⟨read, fun _ _ none => by cases none⟩
  | cons axes rest =>
    refine ⟨read, fun _ _ here => ?_⟩
    cases here
    obtain ⟨b, _, solid, run⟩ := read axes List.mem_cons_self
    apply holds_firstCell
    intro s axis
    obtain ⟨i, member, first⟩ := exists_of_forall₂ (mapM_eq_ok.mp run) axis
    obtain ⟨start, stop⟩ := Stretch.ends_of_ofInterval first
    have ordered := (Interval.isEmpty_eq_false_iff i).mp (Axes.solid_axis solid member)
    rw [start, stop] at ordered
    exact ordered

theorem Stands.next? {after : Walk} (stands : w.Stands boxes)
    (step : w.next? = some (cell, after)) : after.Stands boxes := by
  unfold Walk.next? at step
  split at step
  · cases step
  · rename_i axes rest ahead
    split at step
    · rename_i more
      cases step
      refine ⟨fun _ member => stands.read _ (ahead ▸ member), fun _ _ here => ?_⟩
      cases here
      exact holds_advance (stands.inside axes rest ahead) more
    · cases step
      apply stands_enter
      intro other member
      exact stands.read other (ahead ▸ List.mem_cons_of_mem axes member)

theorem Stands.take (stands : w.Stands boxes) (n : Nat) : (w.take n).2.Stands boxes := by
  induction n generalizing w with
  | zero => exact stands
  | succ n ih =>
    rw [Walk.take]
    split
    · exact stands
    · rename_i step
      exact ih (stands.next? step)

theorem stands_ofBoxes (run : ofBoxes boxes = .ok w) : w.Stands boxes := by
  obtain ⟨ahead, read, run⟩ := bind_eq_ok.mp run
  cases run
  apply stands_enter
  intro axes member
  obtain ⟨b, kept, read⟩ := exists_of_forall₂ (mapM_eq_ok.mp read) member
  obtain ⟨old, solid⟩ := List.mem_filter.mp kept
  exact ⟨b, old, by simpa using solid, read⟩

/-- The cell that comes after `n` others, if there are so many. -/
def nth? (w : Walk) (n : Nat) : Option Cell := (w.take n).2.next?.map Prod.fst

theorem take_succ (w : Walk) (n : Nat) :
    (w.take (n + 1)).1 = (w.take n).1 ++ (w.nth? n).toList := by
  induction n generalizing w with
  | zero => cases step : w.next? <;> simp [take, nth?, step]
  | succ n ih =>
    cases step : w.next? with
    | none => simp [take, nth?, step]
    | some pair =>
      have later := congrArg (pair.1 :: ·) (ih pair.2)
      rw [take, nth?, take, step]
      exact later

theorem nth?_eq {cells : List Cell} (takes : ∀ n, (w.take n).1 = cells.take n) (n : Nat) :
    w.nth? n = cells[n]? := by
  have step := w.take_succ n
  rw [takes, takes, List.take_add_one, List.append_cancel_left_eq] at step
  have heads := congrArg List.head? step
  rw [Option.head?_toList, Option.head?_toList] at heads
  exact heads.symm

theorem isBounded_of_read {b : Box} (read : b.axes.mapM Stretch.ofInterval = .ok axes) :
    b.isBounded = true := by
  apply List.all_eq_true.mpr
  intro i axis
  obtain ⟨s, _, first⟩ := exists_of_forall₂ (mapM_eq_ok.mp read).flip axis
  exact Stretch.isBounded_of_ofInterval first

theorem ofBoxes_eq_error_iff {fault : Fault} (solid : ∀ b ∈ boxes, b.isEmpty = false) :
    ofBoxes boxes = .error fault ↔ fault = .unbounded ∧ ∃ b ∈ boxes, b.isBounded = false := by
  rw [ofBoxes_of_solid solid]
  cases read : boxes.mapM fun b => b.axes.mapM Stretch.ofInterval with
  | ok ahead =>
    apply iff_of_false (by simp [Except.map])
    rintro ⟨_, b, member, unbounded⟩
    obtain ⟨axes, _, first⟩ := exists_of_forall₂ (mapM_eq_ok.mp read).flip member
    rw [isBounded_of_read first] at unbounded
    cases unbounded
  | error cause =>
    obtain ⟨b, member, failed⟩ := exists_of_mapM_eq_error read
    obtain ⟨i, axis, first⟩ := exists_of_mapM_eq_error failed
    cases Stretch.fault_of_ofInterval first
    have unbounded : b.isBounded = false := by
      apply Bool.eq_false_iff.mpr
      intro bounded
      obtain ⟨s, run⟩ := Stretch.exists_ofInterval (List.all_eq_true.mp bounded i axis)
      rw [run] at first
      cases first
    constructor
    · intro run
      cases run
      exact ⟨rfl, b, member, unbounded⟩
    · rintro ⟨rfl, _⟩
      rfl

theorem Lists.nodup {cells : List Cell} (lists : Lists is cells) : cells.Nodup := by
  apply lists.sorted.imp
  rintro c _ before rfl
  exact before.asymm before

theorem count_flatten {lists : List (List Cell)} (c : Cell)
    (listed : List.Forall₂ (fun b cells => Lists b.axes cells) boxes lists) :
    lists.flatten.count c = boxes.countP (·.contains c) := by
  induction listed with
  | nil => rfl
  | @cons b cells _ _ first _ ih =>
    have member : c ∈ cells ↔ b.contains c = true := (first.mem c).trans Box.contains_iff.symm
    rw [List.flatten_cons, List.count_append, ih, List.countP_cons, Nat.add_comm,
      first.nodup.count]
    simp only [member]

end Walk

theorem Axes.exists_cell {is : List Interval} (bounded : is.all Interval.isBounded = true)
    {p : List Int} (inside : Mem is p) : ∃ c : Cell, c.map Coord.val = p := by
  induction is generalizing p with
  | nil =>
    cases p with
    | nil => exact ⟨[], rfl⟩
    | cons x xs => exact inside.elim
  | cons i is ih =>
    rw [List.all_cons, Bool.and_eq_true] at bounded
    cases p with
    | nil => exact inside.elim
    | cons x xs =>
      obtain ⟨l, u, start, stop⟩ := Interval.ends_of_isBounded bounded.1
      obtain ⟨above, below⟩ := (Interval.mem_of_ends start stop).mp inside.1
      have low := l.lower
      have high := u.upper
      obtain ⟨c, rfl⟩ := ih bounded.2 inside.2
      exact ⟨⟨x, by omega, by omega⟩ :: c, rfl⟩

theorem Axes.mem_of_holds {is : List Interval} {axes : List Stretch} {cell : Cell}
    (read : List.Forall₂ (fun i s => Stretch.ofInterval i = .ok s) is axes)
    (holds : List.Forall₂ Stretch.Holds axes cell) : Mem is (cell.map Coord.val) := by
  induction read generalizing cell with
  | nil =>
    cases holds
    trivial
  | cons first _ ih =>
    obtain ⟨start, stop⟩ := Stretch.ends_of_ofInterval first
    cases holds with
    | cons here later => exact ⟨(Interval.mem_of_ends start stop).mpr here, ih later⟩

namespace Region

variable {r : Region}

theorem countP_contains {boxes : List Box} (apart : boxes.Pairwise Box.Apart) (c : Cell) :
    boxes.countP (·.contains c) = if boxes.any (·.contains c) then 1 else 0 := by
  induction boxes with
  | nil => rfl
  | cons b boxes ih =>
    obtain ⟨first, rest⟩ := List.pairwise_cons.mp apart
    rw [List.countP_cons, List.any_cons, ih rest]
    cases here : b.contains c with
    | false => simp
    | true =>
      have none : boxes.any (·.contains c) = false := by
        apply List.any_eq_false.mpr
        intro d later there
        exact first d later _ ⟨Box.contains_iff.mp here, Box.contains_iff.mp there⟩
      simp [none]

theorem count_flatten_of_apart {lists : List (List Cell)} (apart : r.parts.Pairwise Box.Apart)
    (listed : List.Forall₂ (fun b cells => Walk.Lists b.axes cells) r.parts lists) (c : Cell) :
    lists.flatten.count c = if r.contains c then 1 else 0 :=
  (Walk.count_flatten c listed).trans (countP_contains apart c)

theorem encard_eq_length (bounded : ∀ b ∈ r.parts, b.isBounded = true) {cells : List Cell}
    (nodup : cells.Nodup) (mem : ∀ c, c ∈ cells ↔ r.contains c = true) :
    {p | r.Mem p}.encard = cells.length := by
  have points : {p | r.Mem p} = List.map Coord.val '' {c | c ∈ cells} := by
    apply Set.ext
    intro p
    constructor
    · intro inside
      obtain ⟨b, part, held⟩ := inside
      obtain ⟨c, rfl⟩ := Axes.exists_cell (bounded b part) held
      exact ⟨c, (mem c).mpr (contains_iff.mpr ⟨b, part, held⟩), rfl⟩
    · rintro ⟨c, listed, rfl⟩
      exact contains_iff.mp ((mem c).mp listed)
  have injective : Function.Injective (List.map Coord.val) :=
    List.map_injective_iff.mpr fun _ _ => Coord.ext
  rw [points, injective.injOn.encard_image, ← List.coe_toFinset, Set.encard_coe_eq_coe_finsetCard,
    List.toFinset_card_of_nodup nodup]

theorem size_eq_length (truthful : r.Truthful) (bounded : ∀ b ∈ r.parts, b.isBounded = true)
    {cells : List Cell} (nodup : cells.Nodup) (mem : ∀ c, c ∈ cells ↔ r.contains c = true) :
    r.size = Count.saturate cells.length := by
  have count := size_eq_encard truthful
  rw [encard_eq_length bounded nodup mem, ← Count.cast_saturate] at count
  exact_mod_cast count

/-- A walk can not be begun only if some part has an infinite end. Else it comes, step by step, to the
    cells of one part after the other, those of a part in lexicographic order and each once, and
    then to none any more. At every step it stands inside one of the parts, where each coordinate can
    be raised by one. If the parts are known to share no cell, it comes to each cell of the region
    once, and so often as the size counts. -/
theorem walk_exact (r : Region) :
    (∀ fault, r.walk = .error fault ↔ fault = .unbounded ∧ ∃ b ∈ r.parts, b.isBounded = false) ∧
    ((∀ b ∈ r.parts, b.isBounded = true) → ∃ w, ∃ lists : List (List Cell), r.walk = .ok w ∧
      List.Forall₂ (fun b cells => Walk.Lists b.axes cells) r.parts lists ∧
      (∀ n, w.nth? n = lists.flatten[n]?) ∧
      (∀ c, lists.flatten.count c = r.parts.countP (·.contains c)) ∧
      (∀ n axes rest, (w.take n).2.ahead = axes :: rest → ∃ b ∈ r.parts,
        b.axes.mapM Stretch.ofInterval = .ok axes ∧ b.contains (w.take n).2.cell = true ∧
        ∀ x ∈ (w.take n).2.cell, x.val + 1 < 9223372036854775808) ∧
      (r.parts.length < 2 ∨ r.disjoint = true ∧ r.Truthful →
        (∀ c, lists.flatten.count c = if r.contains c then 1 else 0) ∧
        r.size = Count.saturate lists.flatten.length)) := by
  refine ⟨fun fault => Walk.ofBoxes_eq_error_iff r.solid, fun bounded => ?_⟩
  obtain ⟨w, lists, run, listed, takes⟩ := Walk.exists_lists r.solid bounded
  refine ⟨w, lists, run, listed, Walk.nth?_eq takes, fun c => Walk.count_flatten c listed, ?_,
    fun promise => ?_⟩
  · intro n axes rest ahead
    have stands := (Walk.stands_ofBoxes run).take n
    obtain ⟨b, part, _, read⟩ := stands.read axes (by simp [ahead])
    have holds := stands.inside axes rest ahead
    refine ⟨b, part, read, Box.contains_iff.mpr (Axes.mem_of_holds (mapM_eq_ok.mp read) holds), ?_⟩
    intro x coordinate
    obtain ⟨s, _, here⟩ := exists_of_forall₂ holds coordinate
    have := here.2
    have := s.hi.upper
    omega
  · have apart : r.parts.Pairwise Box.Apart := by
      rcases promise with few | ⟨flag, truthful⟩
      · exact pairwise_of_length_lt_two few
      · exact truthful flag
    have once := count_flatten_of_apart apart listed
    have nodup : lists.flatten.Nodup := by
      apply List.nodup_iff_count_le_one.mpr
      intro c
      rw [once]
      split <;> omega
    refine ⟨once, size_eq_length (fun _ => apart) bounded nodup fun c => ?_⟩
    rw [← List.count_pos_iff, once]
    cases r.contains c <;> decide

end Region

namespace Sample

def ledge : Region :=
  .ofParts 2 [tile 4 9223372036854775805 1 2, tile 0 9223372036854775805 2 2] true

end Sample

namespace Region

theorem walk_exact_ledge : (∀ b ∈ Sample.ledge.parts, b.isBounded = true) ∧
    Sample.ledge.disjoint = true ∧ Sample.ledge.Truthful ∧
    (∃ w, ∃ lists : List (List Cell), Sample.ledge.walk = .ok w ∧
      List.Forall₂ (fun b cells => Walk.Lists b.axes cells) Sample.ledge.parts lists ∧
      lists.flatten.length = 6 ∧ w.nth? 6 = none ∧
      lists.flatten[5]? = some [Sample.coord 1, Sample.coord 9223372036854775806]) ∧
    Sample.ray.walk = .error .unbounded := by
  have bounded : ∀ b ∈ Sample.ledge.parts, b.isBounded = true := by decide +kernel
  have apart : Sample.ledge.Truthful := by
    intro _
    have dims : (Sample.tile 4 9223372036854775805 1 2).dim =
      (Sample.tile 0 9223372036854775805 2 2).dim := rfl
    apply parts_ofParts_apart
    exact List.pairwise_pair.mpr ((Box.apart_iff_isEmpty_inter dims).mpr (by decide +kernel))
  have last : Sample.ledge.walk.map (·.nth? 5) =
      .ok (some [Sample.coord 1, Sample.coord 9223372036854775806]) := by decide +kernel
  have six : Sample.ledge.size = 6 := by decide +kernel
  obtain ⟨_, walks⟩ := walk_exact Sample.ledge
  obtain ⟨faults, _⟩ := walk_exact Sample.ray
  obtain ⟨w, lists, run, listed, steps, _, _, once⟩ := walks bounded
  obtain ⟨_, count⟩ := once (.inr ⟨rfl, apart⟩)
  have length : lists.flatten.length = 6 := by
    rw [six, Count.saturate] at count
    split at count
    · exact count.symm
    · cases count
  rw [run] at last
  have fifth : w.nth? 5 = _ := Except.ok.inj last
  refine ⟨bounded, rfl, apart, ⟨w, lists, run, listed, length, ?_, ?_⟩, ?_⟩
  · rw [steps, List.getElem?_eq_none (Nat.le_of_eq length)]
  · rw [← steps, fifth]
  · exact (faults _).mpr ⟨rfl, _, List.mem_singleton.mpr rfl, by decide +kernel⟩

end Region

end GridRegions
