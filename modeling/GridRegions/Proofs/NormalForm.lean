import GridRegions.Proofs.Simplification
import GridRegions.Proofs.Comparison

/-!
The normal form of the numbers on one axis: intervals in increasing order, with a gap between one
and the next. Joining sorted intervals finds it, and for the same numbers there is only one.
-/
namespace GridRegions

namespace Endpoint

theorem exists_eq_finite {a b c : Endpoint} (above : a < b) (below : b < c) :
    ∃ x, b = .finite x := by
  rw [lt_iff_rank] at above below
  cases b with
  | negInf =>
    cases a with
    | negInf => omega
    | finite y => have := y.lower; simp only [rank] at above; omega
    | posInf => simp [rank] at above
  | finite x => exact ⟨x, rfl⟩
  | posInf =>
    cases c with
    | negInf => simp [rank] at below
    | finite y => have := y.upper; simp only [rank] at below; omega
    | posInf => omega

theorem lt_of_lt_of_le {a b c : Endpoint} (first : a < b) (second : b ≤ c) : a < c :=
  Int.lt_of_lt_of_le first second

theorem le_trans {a b c : Endpoint} (first : a ≤ b) (second : b ≤ c) : a ≤ c :=
  Int.le_trans first second

theorem lt_of_le_of_ne {a b : Endpoint} (le : a ≤ b) (ne : a ≠ b) : a < b := by
  apply not_le.mp
  intro ge
  exact ne (le_antisymm le ge)

end Endpoint

namespace Interval

theorem precedes_iff {a b : Interval} : a.precedes b = true ↔
    a.start.rank < b.start.rank ∨ a.start.rank = b.start.rank ∧ a.stop.rank ≤ b.stop.rank := by
  have starts : a.start = b.start ↔ a.start.rank = b.start.rank :=
    ⟨congrArg Endpoint.rank, Endpoint.rank_inj⟩
  simp only [precedes, Bool.or_eq_true, Bool.and_eq_true, decide_eq_true_eq, beq_iff_eq, starts,
    Endpoint.lt_iff_rank, Endpoint.le_iff_rank]

theorem precedes_trans (a b c : Interval) (first : a.precedes b = true)
    (second : b.precedes c = true) : a.precedes c = true := by
  rw [precedes_iff] at *
  omega

theorem precedes_total (a b : Interval) : (a.precedes b || b.precedes a) = true := by
  rw [Bool.or_eq_true, precedes_iff, precedes_iff]
  omega

theorem stop_le_start {a b : Interval} (solid : b.isEmpty = false) (apart : a.Apart b)
    (order : a.start ≤ b.start) : a.stop ≤ b.start := by
  apply Endpoint.not_lt.mp
  intro early
  have ordered := (isEmpty_eq_false_iff b).mp solid
  obtain ⟨x, reached, short⟩ := Endpoint.exists_between (Endpoint.lt_min early ordered)
  rw [Endpoint.atMost_min, not_or] at short
  exact apart x ⟨⟨reached.of_le order, short.1⟩, reached, short.2⟩

theorem mergeSort_stop_le_start {is : List Interval} (solids : ∀ i ∈ is, i.isEmpty = false)
    (apart : is.Pairwise Apart) :
    (is.mergeSort precedes).Pairwise fun i j => i.stop ≤ j.start := by
  have perm := List.mergeSort_perm is precedes
  have sorted := List.pairwise_mergeSort precedes_trans precedes_total is
  have parted := (perm.pairwise_iff fun {a b} => Apart.symm).mpr apart
  apply (sorted.and parted).imp_of_mem
  intro a b _ right both
  apply stop_le_start (solids b (perm.mem_iff.mp right)) both.2
  have order := precedes_iff.mp both.1
  rw [Endpoint.le_iff_rank]
  omega

theorem lt_of_gap {i j : Interval} (gap : i.stop < j.start) {x y : Int} (first : i.Mem x)
    (second : j.Mem y) : x < y := by
  apply Int.not_le.mp
  intro back
  exact first.2 ((second.1.of_le (Endpoint.le_of_lt gap)).mono back)

/-- The intervals stand in increasing order, none is empty, and between one and the next there is a
    gap. -/
structure Normal (is : List Interval) : Prop where
  solid : ∀ i ∈ is, i.isEmpty = false
  gaps : is.Pairwise fun i j => i.stop < j.start

theorem ends_span_join {a b : Interval} (left : a.isEmpty = false) (right : b.isEmpty = false)
    (touch : a.stop = b.start) :
    (span a.start b.stop).start = a.start ∧ (span a.start b.stop).stop = b.stop := by
  have ordered : a.start < b.stop :=
    Int.lt_trans ((isEmpty_eq_false_iff a).mp left) (touch ▸ (isEmpty_eq_false_iff b).mp right)
  rw [span_of_lt ordered]
  exact ⟨rfl, rfl⟩

/- The intervals that are still to come start at or after the last one that is joined, so an
   interval is only closed where a gap follows. -/
theorem joinFrom_normal {a : Interval} {rest : List Interval} (solid : a.isEmpty = false)
    (solids : ∀ b ∈ rest, b.isEmpty = false)
    (sorted : (a :: rest).Pairwise fun i j => i.stop ≤ j.start) :
    Normal (joinFrom a rest) ∧ ∀ i ∈ joinFrom a rest, a.start ≤ i.start := by
  induction rest generalizing a with
  | nil =>
    refine ⟨⟨by simpa [joinFrom] using solid, List.pairwise_singleton _ a⟩, ?_⟩
    intro i only
    rw [List.mem_singleton.mp only]
    exact Int.le_refl _
  | cons b rest ih =>
    have next : b.isEmpty = false := solids b List.mem_cons_self
    have later : ∀ c ∈ rest, c.isEmpty = false := fun c old => solids c (List.mem_cons_of_mem b old)
    obtain ⟨fromA, sorted⟩ := List.pairwise_cons.mp sorted
    obtain ⟨fromB, rests⟩ := List.pairwise_cons.mp sorted
    unfold joinFrom
    split
    · rename_i touch
      obtain ⟨start, stop⟩ := ends_span_join solid next touch
      have joined := isEmpty_span_join solid next touch
      have after : ∀ c ∈ rest, (span a.start b.stop).stop ≤ c.start := by
        rw [stop]
        exact fromB
      obtain ⟨normal, starts⟩ := ih joined later (List.pairwise_cons.mpr ⟨after, rests⟩)
      rw [start] at starts
      exact ⟨normal, starts⟩
    · rename_i separate
      have gap := Endpoint.lt_of_le_of_ne (fromA b List.mem_cons_self) separate
      obtain ⟨normal, starts⟩ := ih next later sorted
      have after : ∀ i ∈ joinFrom b rest, a.stop < i.start := fun i member =>
        Endpoint.lt_of_lt_of_le gap (starts i member)
      refine ⟨⟨?_, List.pairwise_cons.mpr ⟨after, normal.gaps⟩⟩, ?_⟩
      · exact List.forall_mem_cons.mpr ⟨solid, normal.solid⟩
      · intro i member
        rcases List.mem_cons.mp member with rfl | joined
        · exact Int.le_refl _
        · have ordered := Endpoint.le_of_lt ((isEmpty_eq_false_iff a).mp solid)
          exact Endpoint.le_trans ordered (Endpoint.le_of_lt (after i joined))

theorem joinSorted_normal {is : List Interval} (solids : ∀ i ∈ is, i.isEmpty = false)
    (apart : is.Pairwise Apart) : Normal (joinSorted is) := by
  have sorted := mergeSort_stop_le_start solids apart
  have perm := List.mergeSort_perm is precedes
  simp only [← perm.mem_iff] at solids
  unfold joinSorted
  cases order : is.mergeSort precedes with
  | nil => exact ⟨by simp [joinAll], .nil⟩
  | cons a rest =>
    rw [order] at solids sorted
    obtain ⟨first, later⟩ := List.forall_mem_cons.mp solids
    exact (joinFrom_normal first later sorted).1

namespace Normal

variable {i j : Interval} {is js : List Interval}

theorem tail (normal : Normal (i :: is)) : Normal is :=
  ⟨fun k member => normal.solid k (List.mem_cons_of_mem i member),
    (List.pairwise_cons.mp normal.gaps).2⟩

theorem gap (normal : Normal (i :: is)) : ∀ k ∈ is, i.stop < k.start :=
  (List.pairwise_cons.mp normal.gaps).1

theorem start_lt_stop (normal : Normal (i :: is)) : i.start < i.stop :=
  (isEmpty_eq_false_iff i).mp (normal.solid i List.mem_cons_self)

theorem start_le (normal : Normal (i :: is)) : ∀ k ∈ i :: is, i.start ≤ k.start := by
  intro k member
  rcases List.mem_cons.mp member with rfl | later
  · exact Int.le_refl _
  · exact Endpoint.le_of_lt (Int.lt_trans normal.start_lt_stop (normal.gap k later))

theorem start_le_start (normal : Normal (i :: is)) (solid : j.isEmpty = false)
    (held : ∀ x, j.Mem x → ∃ k ∈ i :: is, k.Mem x) : i.start ≤ j.start := by
  apply Endpoint.not_lt.mp
  intro early
  have ordered := (isEmpty_eq_false_iff j).mp solid
  obtain ⟨x, reached, short⟩ := Endpoint.exists_between (Endpoint.lt_min early ordered)
  rw [Endpoint.atMost_min, not_or] at short
  obtain ⟨k, member, inside⟩ := held x ⟨reached, short.2⟩
  exact short.1 (inside.1.of_le (normal.start_le k member))

theorem stop_le_stop (normal : Normal (i :: is)) (start : j.start ≤ i.start)
    (held : ∀ x, j.Mem x → ∃ k ∈ i :: is, k.Mem x) : j.stop ≤ i.stop := by
  apply Endpoint.not_lt.mp
  intro late
  obtain ⟨c, stop⟩ := Endpoint.exists_eq_finite normal.start_lt_stop late
  have before := Endpoint.le_trans start (Endpoint.le_of_lt normal.start_lt_stop)
  have inside : j.Mem c.val := by
    rw [Mem, ← Endpoint.finite_le_iff_atMost, ← Endpoint.finite_le_iff_atMost, ← stop]
    exact ⟨before, Endpoint.not_le.mpr late⟩
  obtain ⟨k, member, reached, short⟩ := held c.val inside
  rw [← Endpoint.finite_le_iff_atMost, ← stop] at reached short
  rcases List.mem_cons.mp member with rfl | later
  · exact short (Int.le_refl _)
  · exact Endpoint.not_lt.mpr reached (normal.gap k later)

theorem mem_tail_iff (normal : Normal (i :: is)) {x : Int} :
    (∃ k ∈ is, k.Mem x) ↔ (∃ k ∈ i :: is, k.Mem x) ∧ ¬ i.Mem x := by
  rw [List.exists_mem_cons_iff]
  constructor
  · rintro ⟨k, member, inside⟩
    refine ⟨.inr ⟨k, member, inside⟩, fun first => ?_⟩
    exact Int.lt_irrefl x (lt_of_gap (normal.gap k member) first inside)
  · rintro ⟨first | later, away⟩
    · exact absurd first away
    · exact later

theorem eq_nil_of_none (normal : Normal is) (none : ∀ x, ¬ ∃ k ∈ is, k.Mem x) : is = [] := by
  cases is with
  | nil => rfl
  | cons i is =>
    obtain ⟨x, inside⟩ := exists_mem (normal.solid i List.mem_cons_self)
    exact absurd ⟨i, List.mem_cons_self, inside⟩ (none x)

theorem eq_of_mem_iff (left : Normal is) (right : Normal js)
    (same : ∀ x, (∃ k ∈ is, k.Mem x) ↔ ∃ k ∈ js, k.Mem x) : is = js := by
  induction is generalizing js with
  | nil =>
    exact (right.eq_nil_of_none fun x held => by simpa using (same x).mpr held).symm
  | cons i is ih =>
    cases js with
    | nil => exact left.eq_nil_of_none fun x held => by simpa using (same x).mp held
    | cons j js =>
      have there : ∀ x, i.Mem x → ∃ k ∈ j :: js, k.Mem x := fun x inside =>
        (same x).mp ⟨i, List.mem_cons_self, inside⟩
      have back : ∀ x, j.Mem x → ∃ k ∈ i :: is, k.Mem x := fun x inside =>
        (same x).mpr ⟨j, List.mem_cons_self, inside⟩
      have starts : i.start = j.start := Endpoint.le_antisymm
        (left.start_le_start (right.solid j List.mem_cons_self) back)
        (right.start_le_start (left.solid i List.mem_cons_self) there)
      have stops : i.stop = j.stop := Endpoint.le_antisymm
        (right.stop_le_stop (starts ▸ Int.le_refl _) there)
        (left.stop_le_stop (starts ▸ Int.le_refl _) back)
      have heads : i = j := Interval.ext starts stops
      have tails : is = js := ih left.tail right.tail fun x => by
        rw [left.mem_tail_iff, right.mem_tail_iff, same x, heads]
      rw [heads, tails]

end Normal

end Interval

end GridRegions
