import GridRegions.Interval.Basic
import GridRegions.Endpoint.Order

/-!
What each operation on intervals does to the whole numbers inside.
-/
namespace GridRegions.Interval

theorem not_mem_empty (x : Int) : ¬ empty.Mem x := fun ⟨atStart, beyond⟩ => beyond atStart

theorem mem_whole (x : Int) : whole.Mem x := ⟨trivial, id⟩

theorem mem_span {start stop : Endpoint} {x : Int} :
    (span start stop).Mem x ↔ start.AtMost x ∧ ¬ stop.AtMost x := by
  by_cases ordered : start < stop
  · rw [span_of_lt ordered]
    rfl
  · rw [span_of_not_lt ordered]
    constructor
    · intro h
      exact (not_mem_empty x h).elim
    · intro ⟨atStart, beyond⟩
      exact (beyond (atStart.of_le (Endpoint.not_lt.mp ordered))).elim

theorem isEmpty_iff_forall_not_mem (i : Interval) : i.isEmpty = true ↔ ∀ x, ¬ i.Mem x := by
  constructor
  · intro void x
    rw [(isEmpty_eq_true_iff i).mp void]
    exact not_mem_empty x
  · intro none
    cases solid : i.isEmpty with
    | true => rfl
    | false =>
      obtain ⟨x, member⟩ := Endpoint.exists_between ((isEmpty_eq_false_iff i).mp solid)
      exact (none x member).elim

theorem isEmpty_of_mem {i : Interval} {x : Int} (inside : i.Mem x) : i.isEmpty = false := by
  apply Bool.eq_false_iff.mpr
  intro void
  exact (isEmpty_iff_forall_not_mem i).mp void x inside

theorem exists_mem {i : Interval} (solid : i.isEmpty = false) : ∃ x, i.Mem x :=
  Endpoint.exists_between ((isEmpty_eq_false_iff i).mp solid)

theorem mem_inter {a b : Interval} {x : Int} : (a.inter b).Mem x ↔ a.Mem x ∧ b.Mem x := by
  rw [inter, mem_span, Endpoint.atMost_max, Endpoint.atMost_min, not_or]
  constructor
  · intro ⟨⟨ha, hb⟩, na, nb⟩
    exact ⟨⟨ha, na⟩, hb, nb⟩
  · intro ⟨⟨ha, na⟩, hb, nb⟩
    exact ⟨⟨ha, hb⟩, na, nb⟩

theorem contains_finite_iff {i : Interval} {c : Coord} :
    i.contains (.finite c) = true ↔ i.Mem c.val := by
  simp only [contains, Bool.and_eq_true, decide_eq_true_eq, Mem, Endpoint.finite_le_iff_atMost]
  rw [← Endpoint.not_le, Endpoint.finite_le_iff_atMost]

theorem mem_hull {a b : Interval} {x : Int} (member : a.Mem x ∨ b.Mem x) : (a.hull b).Mem x := by
  unfold hull
  split
  · rename_i void
    exact member.resolve_left ((isEmpty_iff_forall_not_mem a).mp void x)
  · split
    · rename_i void
      exact member.resolve_right ((isEmpty_iff_forall_not_mem b).mp void x)
    · rw [mem_span, Endpoint.atMost_min, Endpoint.atMost_max]
      rcases member with left | right
      · exact ⟨.inl left.1, fun both => left.2 both.1⟩
      · exact ⟨.inr right.1, fun both => right.2 both.2⟩

theorem mem_complement {i : Interval} {x : Int} : (∃ j ∈ i.complement, j.Mem x) ↔ ¬ i.Mem x := by
  cases void : i.isEmpty with
  | true =>
    have never := (isEmpty_iff_forall_not_mem i).mp void x
    simp [complement, void, never, mem_whole]
  | false =>
    simp only [complement, void, Bool.false_eq_true, ↓reduceIte, List.mem_filter, List.mem_cons,
      List.not_mem_nil, or_false, Bool.not_eq_true']
    constructor
    · intro ⟨j, ⟨side, _⟩, member⟩ inside
      rcases side with rfl | rfl
      · exact (mem_span.mp member).2 inside.1
      · exact inside.2 (mem_span.mp member).1
    · intro away
      have solid : ∀ j : Interval, j.Mem x → j.isEmpty = false := fun j member =>
        Bool.eq_false_iff.mpr fun h => (isEmpty_iff_forall_not_mem j).mp h x member
      by_cases reached : i.start.AtMost x
      · have past : i.stop.AtMost x := Decidable.byContradiction fun short => away ⟨reached, short⟩
        have member : (span i.stop .posInf).Mem x := mem_span.mpr ⟨past, id⟩
        exact ⟨_, ⟨.inr rfl, solid _ member⟩, member⟩
      · have member : (span .negInf i.start).Mem x := mem_span.mpr ⟨trivial, reached⟩
        exact ⟨_, ⟨.inl rfl, solid _ member⟩, member⟩

theorem isEmpty_of_mem_complement {i j : Interval} (member : j ∈ i.complement) :
    j.isEmpty = false := by
  unfold complement at member
  split at member
  · rw [List.mem_singleton.mp member]
    rfl
  · simpa using (List.mem_filter.mp member).2

theorem mem_outside {a b : Interval} {x : Int} :
    (∃ i ∈ a.outside b, i.Mem x) ↔ a.Mem x ∧ ¬ b.Mem x := by
  cases void : b.isEmpty with
  | true =>
    have never := (isEmpty_iff_forall_not_mem b).mp void x
    simp [outside, void, never]
  | false =>
    have lt := (isEmpty_eq_false_iff b).mp void
    simp only [outside, void, Bool.false_eq_true, ↓reduceIte, List.mem_filter, List.mem_cons,
      List.not_mem_nil, or_false, Bool.not_eq_true']
    constructor
    · rintro ⟨i, ⟨rfl | rfl, _⟩, member⟩
      · obtain ⟨before, inside⟩ := mem_inter.mp member
        exact ⟨inside, fun h => (mem_span.mp before).2 h.1⟩
      · obtain ⟨after, inside⟩ := mem_inter.mp member
        exact ⟨inside, fun h => h.2 (mem_span.mp after).1⟩
    · intro ⟨inside, away⟩
      by_cases reached : b.start.AtMost x
      · have past : b.stop.AtMost x := Decidable.byContradiction fun short => away ⟨reached, short⟩
        have member : ((span b.stop .posInf).inter a).Mem x :=
          mem_inter.mpr ⟨mem_span.mpr ⟨past, id⟩, inside⟩
        refine ⟨_, ⟨.inr rfl, ?_⟩, member⟩
        exact Bool.eq_false_iff.mpr fun h => (isEmpty_iff_forall_not_mem _).mp h x member
      · have member : ((span .negInf b.start).inter a).Mem x :=
          mem_inter.mpr ⟨mem_span.mpr ⟨trivial, reached⟩, inside⟩
        refine ⟨_, ⟨.inl rfl, ?_⟩, member⟩
        exact Bool.eq_false_iff.mpr fun h => (isEmpty_iff_forall_not_mem _).mp h x member

theorem isEmpty_of_mem_outside {a b i : Interval} (solid : a.isEmpty = false)
    (member : i ∈ a.outside b) : i.isEmpty = false := by
  unfold outside at member
  split at member
  · rw [List.mem_singleton.mp member]
    exact solid
  · simpa using (List.mem_filter.mp member).2

end GridRegions.Interval
