import GridRegions.Box.Carve
import GridRegions.Interval.Points

/-!
What each operation on boxes does to the points inside, and that carving takes out exactly the
points of the other box.
-/
namespace GridRegions

namespace Axes

theorem length_of_mem {axes : List Interval} {p : List Int} (member : Mem axes p) :
    p.length = axes.length := by
  induction axes generalizing p with
  | nil =>
    cases p with
    | nil => rfl
    | cons x xs => exact member.elim
  | cons i is ih =>
    cases p with
    | nil => exact member.elim
    | cons x xs => exact congrArg (· + 1) (ih member.2)

theorem not_mem_of_empty {axes : List Interval} (void : axes.any Interval.isEmpty = true)
    (p : List Int) : ¬ Mem axes p := by
  induction axes generalizing p with
  | nil => simp at void
  | cons i is ih =>
    intro member
    cases p with
    | nil => exact member
    | cons x xs =>
      rw [List.any_cons, Bool.or_eq_true] at void
      rcases void with here | later
      · exact (Interval.isEmpty_iff_forall_not_mem i).mp here x member.1
      · exact ih later xs member.2

theorem solid_of_mem {axes : List Interval} {p : List Int} (member : Mem axes p) :
    axes.any Interval.isEmpty = false :=
  Bool.eq_false_iff.mpr fun void => not_mem_of_empty void p member

theorem solid_axis {axes : List Interval} (solid : axes.any Interval.isEmpty = false) {i : Interval}
    (axis : i ∈ axes) : i.isEmpty = false :=
  Bool.not_eq_true _ ▸ List.any_eq_false.mp solid i axis

theorem exists_mem {axes : List Interval} (solid : axes.any Interval.isEmpty = false) :
    ∃ p, Mem axes p := by
  induction axes with
  | nil => exact ⟨[], trivial⟩
  | cons i is ih =>
    rw [List.any_cons, Bool.or_eq_false_iff] at solid
    obtain ⟨x, here⟩ := Interval.exists_mem solid.1
    obtain ⟨xs, later⟩ := ih solid.2
    exact ⟨x :: xs, here, later⟩

theorem mem_zipWith_inter {as bs : List Interval} (same : as.length = bs.length) {p : List Int} :
    Mem (List.zipWith Interval.inter as bs) p ↔ Mem as p ∧ Mem bs p := by
  induction as generalizing bs p with
  | nil =>
    cases bs with
    | nil => cases p <;> simp [Mem]
    | cons b bs => simp at same
  | cons a as ih =>
    cases bs with
    | nil => simp at same
    | cons b bs =>
      cases p with
      | nil => simp [Mem]
      | cons x xs =>
        simp only [List.zipWith_cons_cons, Mem, Interval.mem_inter, ih (Nat.succ.inj same)]
        constructor
        · intro ⟨⟨ha, hb⟩, has, hbs⟩
          exact ⟨⟨ha, has⟩, hb, hbs⟩
        · intro ⟨⟨ha, has⟩, hb, hbs⟩
          exact ⟨⟨ha, hb⟩, has, hbs⟩

theorem mem_zipWith_hull {as bs : List Interval} (same : as.length = bs.length) {p : List Int}
    (member : Mem as p ∨ Mem bs p) : Mem (List.zipWith Interval.hull as bs) p := by
  induction as generalizing bs p with
  | nil =>
    cases bs with
    | nil => exact member.elim id id
    | cons b bs => simp at same
  | cons a as ih =>
    cases bs with
    | nil => simp at same
    | cons b bs =>
      cases p with
      | nil => exact member.elim id id
      | cons x xs =>
        have heads : a.Mem x ∨ b.Mem x := member.imp And.left And.left
        have tails : Mem as xs ∨ Mem bs xs := member.imp And.right And.right
        exact ⟨Interval.mem_hull heads, ih (Nat.succ.inj same) tails⟩

theorem mem_append {as bs : List Interval} {p : List Int} :
    Mem (as ++ bs) p ↔ ∃ q r, p = q ++ r ∧ Mem as q ∧ Mem bs r := by
  induction as generalizing p with
  | nil =>
    constructor
    · intro member
      exact ⟨[], p, rfl, trivial, member⟩
    · rintro ⟨q, r, rfl, nil, member⟩
      rw [List.length_eq_zero_iff.mp (length_of_mem nil)]
      exact member
  | cons a as ih =>
    cases p with
    | nil =>
      constructor
      · intro member
        exact member.elim
      · rintro ⟨q, r, eq, left, _⟩
        rw [(List.append_eq_nil_iff.mp eq.symm).1] at left
        exact left.elim
    | cons x xs =>
      constructor
      · intro ⟨here, later⟩
        obtain ⟨q, r, eq, left, right⟩ := ih.mp later
        exact ⟨x :: q, r, by rw [eq]; rfl, ⟨here, left⟩, right⟩
      · rintro ⟨q, r, eq, left, right⟩
        cases q with
        | nil => exact left.elim
        | cons y ys =>
          obtain ⟨rfl, tails⟩ := List.cons.inj eq
          exact ⟨left.1, ih.mpr ⟨ys, r, tails, left.2, right⟩⟩

theorem length_of_mem_leftover {as bs piece : List Interval} (same : as.length = bs.length)
    (member : piece ∈ Box.leftover as bs) : piece.length = as.length := by
  induction as generalizing bs piece with
  | nil => simp [Box.leftover] at member
  | cons a as ih =>
    cases bs with
    | nil => simp at same
    | cons b bs =>
      simp only [Box.leftover, List.mem_append, List.mem_map] at member
      rcases member with ⟨i, _, rfl⟩ | ⟨rest, member, rfl⟩
      · rfl
      · exact congrArg (· + 1) (ih (Nat.succ.inj same) member)

theorem mem_leftover {as bs : List Interval} (same : as.length = bs.length) {p : List Int} :
    (∃ piece ∈ Box.leftover as bs, Mem piece p) ↔ Mem as p ∧ ¬ Mem bs p := by
  induction as generalizing bs p with
  | nil =>
    cases bs with
    | nil => cases p <;> simp [Box.leftover, Mem]
    | cons b bs => simp at same
  | cons a as ih =>
    cases bs with
    | nil => simp at same
    | cons b bs =>
      have tail := fun xs => ih (Nat.succ.inj same) (p := xs)
      simp only [Box.leftover, List.mem_append, List.mem_map]
      cases p with
      | nil =>
        constructor
        · rintro ⟨piece, ⟨i, _, rfl⟩ | ⟨rest, _, rfl⟩, member⟩
          · exact member.elim
          · exact member.elim
        · intro member
          exact member.1.elim
      | cons x xs =>
        constructor
        · rintro ⟨piece, ⟨i, cut, rfl⟩ | ⟨rest, cut, rfl⟩, here, later⟩
          · have outside := Interval.mem_outside.mp ⟨i, cut, here⟩
            exact ⟨⟨outside.1, later⟩, fun inside => outside.2 inside.1⟩
          · have both := Interval.mem_inter.mp here
            have rest := (tail xs).mp ⟨rest, cut, later⟩
            exact ⟨⟨both.1, rest.1⟩, fun inside => rest.2 inside.2⟩
        · intro ⟨⟨here, later⟩, away⟩
          by_cases first : b.Mem x
          · have out : ¬ Mem bs xs := fun h => away ⟨first, h⟩
            obtain ⟨rest, cut, member⟩ := (tail xs).mpr ⟨later, out⟩
            exact ⟨a.inter b :: rest, .inr ⟨rest, cut, rfl⟩, Interval.mem_inter.mpr ⟨here, first⟩,
              member⟩
          · obtain ⟨i, cut, member⟩ := Interval.mem_outside.mpr ⟨here, first⟩
            exact ⟨i :: as, .inl ⟨i, cut, rfl⟩, member, later⟩

theorem solid_of_mem_leftover {as bs piece : List Interval} (same : as.length = bs.length)
    (solid : as.any Interval.isEmpty = false)
    (overlap : (List.zipWith Interval.inter as bs).any Interval.isEmpty = false)
    (member : piece ∈ Box.leftover as bs) : piece.any Interval.isEmpty = false := by
  induction as generalizing bs piece with
  | nil => simp [Box.leftover] at member
  | cons a as ih =>
    cases bs with
    | nil => simp at same
    | cons b bs =>
      rw [List.any_cons, Bool.or_eq_false_iff] at solid
      rw [List.zipWith_cons_cons, List.any_cons, Bool.or_eq_false_iff] at overlap
      simp only [Box.leftover, List.mem_append, List.mem_map] at member
      rcases member with ⟨i, cut, rfl⟩ | ⟨rest, cut, rfl⟩
      · rw [List.any_cons, Interval.isEmpty_of_mem_outside solid.1 cut, solid.2]
        rfl
      · rw [List.any_cons, overlap.1, ih (Nat.succ.inj same) solid.2 overlap.2 cut]
        rfl

theorem contains_iff {axes : List Interval} {c : Cell} :
    (c.length = axes.length ∧ (axes.zip c).all (fun q => q.1.contains (.finite q.2)) = true) ↔
      Mem axes (c.map Coord.val) := by
  induction axes generalizing c with
  | nil => cases c <;> simp [Mem]
  | cons i is ih =>
    cases c with
    | nil => simp [Mem]
    | cons x xs =>
      rw [List.map_cons, Mem, ← ih, ← Interval.contains_finite_iff]
      simp [and_left_comm]

end Axes

namespace Box

theorem mem_ofAxes {axes : List Interval} {p : List Int} :
    (ofAxes axes).Mem p ↔ Axes.Mem axes p := by
  cases void : axes.any Interval.isEmpty with
  | false => rw [Mem, ofAxes_of_nonempty void]
  | true =>
    have same : (ofAxes axes).axes.any Interval.isEmpty = true := by
      have := isEmpty_ofAxes axes
      rwa [void] at this
    exact iff_of_false (Axes.not_mem_of_empty same p) (Axes.not_mem_of_empty void p)

theorem length_of_mem {b : Box} {p : List Int} (member : b.Mem p) : p.length = b.dim :=
  Axes.length_of_mem member

theorem contains_iff {b : Box} {c : Cell} : b.contains c = true ↔ b.Mem (c.map Coord.val) := by
  rw [contains, Bool.and_eq_true, beq_iff_eq]
  exact Axes.contains_iff

theorem isEmpty_iff_forall_not_mem (b : Box) : b.isEmpty = true ↔ ∀ p, ¬ b.Mem p := by
  constructor
  · exact fun void => Axes.not_mem_of_empty void
  · intro none
    cases solid : b.isEmpty with
    | true => rfl
    | false =>
      obtain ⟨p, member⟩ := Axes.exists_mem solid
      exact (none p member).elim

theorem isEmpty_of_mem {b : Box} {p : List Int} (inside : b.Mem p) : b.isEmpty = false :=
  Axes.solid_of_mem inside

theorem mem_inter {a b : Box} (same : a.dim = b.dim) {p : List Int} :
    (a.inter b).Mem p ↔ a.Mem p ∧ b.Mem p := by
  rw [inter, mem_ofAxes]
  exact Axes.mem_zipWith_inter same

theorem zipWith_inter_of_inter_eq {a b : Box} (solid : a.isEmpty = false) (inside : a.inter b = a) :
    List.zipWith Interval.inter a.axes b.axes = a.axes := by
  have full : (List.zipWith Interval.inter a.axes b.axes).any Interval.isEmpty = false := by
    rw [← isEmpty_ofAxes, ← inter, inside]
    exact solid
  rw [← ofAxes_of_nonempty full, ← inter, inside]

theorem dim_inter {a b : Box} (same : a.dim = b.dim) : (a.inter b).dim = a.dim := by
  have : a.axes.length = b.axes.length := same
  rw [inter, dim_ofAxes, List.length_zipWith, this, Nat.min_self, ← this]
  rfl

theorem mem_whole {dim : Nat} {p : List Int} : (whole dim).Mem p ↔ p.length = dim := by
  rw [whole, mem_ofAxes]
  constructor
  · intro member
    rw [Axes.length_of_mem member, List.length_replicate]
  · intro length
    subst length
    induction p with
    | nil => trivial
    | cons x xs ih => exact ⟨Interval.mem_whole x, ih⟩

theorem mem_hull {a b : Box} (same : a.dim = b.dim) {p : List Int} (member : a.Mem p ∨ b.Mem p) :
    (a.hull b).Mem p := by
  unfold hull
  split
  · rename_i void
    exact member.resolve_left ((isEmpty_iff_forall_not_mem a).mp void p)
  · split
    · rename_i void
      exact member.resolve_right ((isEmpty_iff_forall_not_mem b).mp void p)
    · exact mem_ofAxes.mpr (Axes.mem_zipWith_hull same member)

theorem dim_hull {a b : Box} (same : a.dim = b.dim) : (a.hull b).dim = a.dim := by
  unfold hull
  split
  · exact same.symm
  · split
    · rfl
    · have lengths : a.axes.length = b.axes.length := same
      rw [dim_ofAxes, List.length_zipWith, lengths, Nat.min_self, ← lengths]
      rfl

@[simp] theorem dim_whole (dim : Nat) : (whole dim).dim = dim := by simp [whole]

@[simp] theorem dim_empty (dim : Nat) : (empty dim).dim = dim := by simp [empty]

theorem isEmpty_empty {dim : Nat} (positive : 0 < dim) : (empty dim).isEmpty = true := by
  rw [empty, isEmpty_ofAxes]
  simp [Nat.ne_of_gt positive]

theorem not_mem_empty {dim : Nat} (positive : 0 < dim) (p : List Int) : ¬ (empty dim).Mem p :=
  (isEmpty_iff_forall_not_mem _).mp (isEmpty_empty positive) p

@[simp] theorem dim_prod (a b : Box) : (a.prod b).dim = a.dim + b.dim := by
  rw [prod, dim_ofAxes, List.length_append]
  rfl

theorem mem_prod {a b : Box} {p : List Int} :
    (a.prod b).Mem p ↔ ∃ q r, p = q ++ r ∧ a.Mem q ∧ b.Mem r := by
  rw [prod, mem_ofAxes, Axes.mem_append]
  rfl

theorem dim_of_mem_carve {a b c : Box} (same : a.dim = b.dim) (member : c ∈ a.carve b) :
    c.dim = a.dim := by
  unfold carve at member
  split at member
  · rw [List.mem_singleton.mp member]
  · obtain ⟨piece, cut, rfl⟩ := List.mem_map.mp member
    rw [dim_ofAxes, Axes.length_of_mem_leftover same cut]
    rfl

theorem solid_of_mem_carve {a b c : Box} (same : a.dim = b.dim) (solid : a.isEmpty = false)
    (member : c ∈ a.carve b) : c.isEmpty = false := by
  unfold carve at member
  split at member
  · rw [List.mem_singleton.mp member]
    exact solid
  · rename_i overlap
    obtain ⟨piece, cut, rfl⟩ := List.mem_map.mp member
    rw [inter, isEmpty_ofAxes, Bool.not_eq_true] at overlap
    rw [isEmpty_ofAxes]
    exact Axes.solid_of_mem_leftover same solid overlap cut

theorem mem_carve {a b : Box} (same : a.dim = b.dim) {p : List Int} :
    (∃ c ∈ a.carve b, c.Mem p) ↔ a.Mem p ∧ ¬ b.Mem p := by
  unfold carve
  split
  · rename_i apart
    have never := (isEmpty_iff_forall_not_mem _).mp apart p
    rw [mem_inter same] at never
    constructor
    · rintro ⟨c, only, member⟩
      rw [List.mem_singleton.mp only] at member
      exact ⟨member, fun h => never ⟨member, h⟩⟩
    · intro member
      exact ⟨a, List.mem_singleton.mpr rfl, member.1⟩
  · constructor
    · rintro ⟨c, made, member⟩
      obtain ⟨piece, cut, rfl⟩ := List.mem_map.mp made
      exact (Axes.mem_leftover same).mp ⟨piece, cut, mem_ofAxes.mp member⟩
    · intro member
      obtain ⟨piece, cut, inside⟩ := (Axes.mem_leftover same).mpr member
      exact ⟨ofAxes piece, List.mem_map.mpr ⟨piece, cut, rfl⟩, mem_ofAxes.mpr inside⟩

theorem mem_line {i : Interval} {p : List Int} : (line i).Mem p ↔ ∃ x, p = [x] ∧ i.Mem x := by
  rw [line, mem_ofAxes]
  match p with
  | [] => simp [Axes.Mem]
  | [x] => simp [Axes.Mem]
  | x :: y :: ys => simp [Axes.Mem]

theorem mem_line_singleton {i : Interval} {x : Int} : (line i).Mem [x] ↔ i.Mem x := by
  rw [line, mem_ofAxes]
  exact ⟨And.left, fun here => ⟨here, trivial⟩⟩

theorem dim_line (i : Interval) : (line i).dim = 1 := dim_ofAxes [i]

theorem isEmpty_line (i : Interval) : (line i).isEmpty = i.isEmpty := by simp [line]

theorem axes_line (i : Interval) : (line i).axes = [i] := by
  cases void : i.isEmpty with
  | true =>
    rw [line, ofAxes_of_empty (by simpa using void), (Interval.isEmpty_eq_true_iff i).mp void]
    rfl
  | false => exact ofAxes_of_nonempty (by simpa using void)

theorem exists_line {b : Box} (one : b.dim = 1) : ∃ i, b = line i := by
  obtain ⟨i, axes⟩ := List.length_eq_one_iff.mp one
  exact ⟨i, Box.ext (axes.trans (axes_line i).symm)⟩

theorem mem_complement {b : Box} {p : List Int} :
    (∃ c ∈ b.complement, c.Mem p) ↔ p.length = b.dim ∧ ¬ b.Mem p := by
  unfold complement
  split
  · rename_i i axis
    have inside : b.Mem p ↔ ∃ x, p = [x] ∧ i.Mem x := by rw [← mem_line, line, mem_ofAxes, Mem, axis]
    have dim : b.dim = 1 := by rw [Box.dim, axis]; rfl
    rw [inside, dim]
    constructor
    · intro ⟨c, made, member⟩
      obtain ⟨j, side, rfl⟩ := List.mem_map.mp made
      obtain ⟨x, rfl, here⟩ := mem_line.mp member
      refine ⟨rfl, fun ⟨y, eq, there⟩ => ?_⟩
      rw [← (List.cons.inj eq).1] at there
      exact Interval.mem_complement.mp ⟨j, side, here⟩ there
    · intro ⟨length, away⟩
      obtain ⟨x, rfl⟩ := List.length_eq_one_iff.mp length
      obtain ⟨j, side, here⟩ := Interval.mem_complement.mpr fun h => away ⟨x, rfl, h⟩
      exact ⟨line j, List.mem_map.mpr ⟨j, side, rfl⟩, mem_line.mpr ⟨x, rfl, here⟩⟩
  · rw [mem_carve (dim_whole b.dim), mem_whole]

theorem dim_of_mem_complement {b c : Box} (member : c ∈ b.complement) : c.dim = b.dim := by
  unfold complement at member
  split at member
  · rename_i i axis
    obtain ⟨j, _, rfl⟩ := List.mem_map.mp member
    rw [dim_line, dim, axis]
    rfl
  · exact (dim_of_mem_carve (dim_whole b.dim) member).trans (dim_whole b.dim)

/-- Meeting the complement takes out the same points as carving. -/
theorem mem_map_inter_complement {a b : Box} (same : a.dim = b.dim) {p : List Int} :
    (∃ c ∈ b.complement.map (·.inter a), c.Mem p) ↔ a.Mem p ∧ ¬ b.Mem p := by
  have dims : ∀ d ∈ b.complement, d.dim = a.dim := fun d side =>
    (dim_of_mem_complement side).trans same.symm
  constructor
  · intro ⟨c, made, inside⟩
    obtain ⟨d, side, rfl⟩ := List.mem_map.mp made
    have both := (mem_inter (dims d side)).mp inside
    exact ⟨both.2, (mem_complement.mp ⟨d, side, both.1⟩).2⟩
  · intro ⟨inside, away⟩
    obtain ⟨d, side, member⟩ := mem_complement.mpr ⟨(length_of_mem inside).trans same, away⟩
    exact ⟨d.inter a, List.mem_map.mpr ⟨d, side, rfl⟩,
      (mem_inter (dims d side)).mpr ⟨member, inside⟩⟩

theorem dim_of_mem_carveAll {as bs : List Box} {dim : Nat} (left : ∀ a ∈ as, a.dim = dim)
    (right : ∀ b ∈ bs, b.dim = dim) : ∀ c ∈ carveAll as bs, c.dim = dim := by
  induction bs generalizing as with
  | nil => exact left
  | cons b bs ih =>
    refine ih (fun c member => ?_) fun d member => right d (List.mem_cons_of_mem b member)
    obtain ⟨a, source, cut⟩ := List.mem_flatMap.mp member
    have same : a.dim = b.dim := (left a source).trans (right b List.mem_cons_self).symm
    exact (dim_of_mem_carve same cut).trans (left a source)

theorem mem_carveAll {as bs : List Box} {dim : Nat} (left : ∀ a ∈ as, a.dim = dim)
    (right : ∀ b ∈ bs, b.dim = dim) {p : List Int} :
    (∃ c ∈ carveAll as bs, c.Mem p) ↔ (∃ a ∈ as, a.Mem p) ∧ ∀ b ∈ bs, ¬ b.Mem p := by
  induction bs generalizing as with
  | nil => simp [carveAll]
  | cons b bs ih =>
    have sameAs : ∀ a ∈ as, a.dim = b.dim := fun a member =>
      (left a member).trans (right b List.mem_cons_self).symm
    have cutDim : ∀ c ∈ as.flatMap (·.carve b), c.dim = dim := by
      intro c member
      obtain ⟨a, source, cut⟩ := List.mem_flatMap.mp member
      exact (dim_of_mem_carve (sameAs a source) cut).trans (left a source)
    have restDim : ∀ d ∈ bs, d.dim = dim := fun d member => right d (List.mem_cons_of_mem b member)
    have step := ih cutDim restDim
    have once : (∃ c ∈ as.flatMap (·.carve b), c.Mem p) ↔ (∃ a ∈ as, a.Mem p) ∧ ¬ b.Mem p := by
      constructor
      · rintro ⟨c, member, inside⟩
        obtain ⟨a, source, cut⟩ := List.mem_flatMap.mp member
        have both := (mem_carve (sameAs a source)).mp ⟨c, cut, inside⟩
        exact ⟨⟨a, source, both.1⟩, both.2⟩
      · rintro ⟨⟨a, source, inside⟩, away⟩
        obtain ⟨c, cut, member⟩ := (mem_carve (sameAs a source)).mpr ⟨inside, away⟩
        exact ⟨c, List.mem_flatMap.mpr ⟨a, source, cut⟩, member⟩
    change (∃ c ∈ carveAll (as.flatMap (·.carve b)) bs, c.Mem p) ↔ _
    rw [step, once, List.forall_mem_cons, and_assoc]

theorem isCovered_iff {a : Box} {bs : List Box} (same : ∀ b ∈ bs, b.dim = a.dim) :
    a.isCovered bs = true ↔ ∀ p, a.Mem p → ∃ b ∈ bs, b.Mem p := by
  have single : ∀ c ∈ [a], c.dim = a.dim := by simp
  have left := fun p => mem_carveAll single same (p := p)
  simp only [List.mem_singleton, exists_eq_left] at left
  simp only [isCovered, List.all_eq_true, isEmpty_iff_forall_not_mem]
  constructor
  · intro none p inside
    apply Classical.byContradiction
    intro away
    obtain ⟨c, cut, member⟩ := (left p).mpr ⟨inside, fun b part here => away ⟨b, part, here⟩⟩
    exact none c cut p member
  · intro covered c cut p member
    have outside := (left p).mp ⟨c, cut, member⟩
    obtain ⟨b, part, here⟩ := covered p outside.1
    exact outside.2 b part here

end Box

end GridRegions
