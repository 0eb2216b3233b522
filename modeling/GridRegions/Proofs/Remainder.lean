import GridRegions.Proofs.NormalForm

/-!
What is left of intervals once others are taken out. The pieces stay in their order, with what is
taken out as a gap between them, so a normal form stays one.
-/
namespace GridRegions

namespace Interval

theorem inter_comm (a b : Interval) : a.inter b = b.inter a := by
  apply eq_of_mem_iff
  intro x
  rw [mem_inter, mem_inter, and_comm]

theorem whole_inter (a : Interval) : whole.inter a = a := by
  apply eq_of_mem_iff
  intro x
  rw [mem_inter]
  exact and_iff_right (mem_whole x)

theorem inter_whole (a : Interval) : a.inter whole = a := by rw [inter_comm, whole_inter]

theorem isEmpty_inter {a : Interval} (void : a.isEmpty = true) (b : Interval) :
    (a.inter b).isEmpty = true := by
  rw [isEmpty_iff_forall_not_mem] at void ⊢
  intro x both
  exact void x (mem_inter.mp both).1

theorem filter_clip_filter (is : List Interval) (a : Interval) :
    ((is.filter (!·.isEmpty)).map (·.inter a)).filter (!·.isEmpty) =
      (is.map (·.inter a)).filter (!·.isEmpty) := by
  rw [List.filter_map, List.filter_map, List.filter_filter]
  congr 1
  apply List.filter_congr
  intro i _
  cases void : i.isEmpty with
  | true => simp [isEmpty_inter void a]
  | false => simp

theorem whole_outside (b : Interval) : whole.outside b = b.complement := by
  unfold outside complement
  rw [inter_whole, inter_whole]

theorem filter_clip_complement {b : Interval} (solid : b.isEmpty = false) (a : Interval) :
    (b.complement.map (·.inter a)).filter (!·.isEmpty) = a.outside b := by
  have some : ¬ b.isEmpty = true := Bool.eq_false_iff.mp solid
  rw [complement, if_neg some, filter_clip_filter, outside, if_neg some]
  rfl

theorem complement_normal (b : Interval) : Normal b.complement := by
  constructor
  · intro j side
    exact isEmpty_of_mem_complement side
  · unfold complement
    split
    · exact List.pairwise_singleton _ _
    · rename_i solid
      rw [List.pairwise_filter, List.pairwise_pair]
      intro before after
      rw [(ends_span (by simpa using before)).2, (ends_span (by simpa using after)).1]
      exact (isEmpty_eq_false_iff b).mp (Bool.not_eq_true _ ▸ solid)

theorem singleton_normal {a : Interval} (solid : a.isEmpty = false) : Normal [a] :=
  ⟨by simpa using solid, List.pairwise_singleton _ a⟩

theorem Normal.clip {is : List Interval} (normal : Normal is) (a : Interval) :
    Normal ((is.map (·.inter a)).filter (!·.isEmpty)) := by
  constructor
  · intro i member
    simpa using (List.mem_filter.mp member).2
  · rw [List.pairwise_filter, List.pairwise_map]
    apply normal.gaps.imp
    intro i j gap left right
    have first := (forall_mem_iff_ends (by simpa using left)).mp fun x both => (mem_inter.mp both).1
    have second := (forall_mem_iff_ends (by simpa using right)).mp fun x both =>
      (mem_inter.mp both).1
    exact Endpoint.lt_of_lt_of_le (Int.lt_of_le_of_lt first.2 gap) second.1

theorem outside_normal {a : Interval} (solid : a.isEmpty = false) (b : Interval) :
    Normal (a.outside b) := by
  cases void : b.isEmpty with
  | true =>
    rw [outside, if_pos void]
    exact singleton_normal solid
  | false =>
    rw [← filter_clip_complement void a]
    exact (complement_normal b).clip a

theorem outside_of_apart {a b : Interval} (solid : a.isEmpty = false) (apart : a.Apart b) :
    a.outside b = [a] := by
  apply (outside_normal solid b).eq_of_mem_iff (singleton_normal solid)
  intro x
  rw [mem_outside]
  simpa using fun inside away => apart x ⟨inside, away⟩

theorem lt_of_before {b : Interval} {x y : Int} (inside : b.Mem x)
    (before : (span .negInf b.start).Mem y) : y < x :=
  Int.not_le.mp fun le => (mem_span.mp before).2 (inside.1.mono le)

theorem lt_of_after {b : Interval} {x z : Int} (inside : b.Mem x)
    (after : (span b.stop .posInf).Mem z) : x < z :=
  Int.not_le.mp fun le => inside.2 ((mem_span.mp after).1.mono le)

theorem length_outside_le (a b : Interval) :
    (a.outside b).length ≤ 1 ∨ (a.outside b).length = 2 ∧ ∀ x, b.Mem x → a.Mem x := by
  unfold outside
  split
  · exact .inl (Nat.le_refl _)
  · rename_i solid
    cases before : ((span .negInf b.start).inter a).isEmpty with
    | true => exact .inl (by simpa [before] using List.length_filter_le _ [_])
    | false =>
      cases after : ((span b.stop .posInf).inter a).isEmpty with
      | true => simp [before, after]
      | false =>
        refine .inr ⟨by simp [before, after], fun x inside => ?_⟩
        obtain ⟨y, left⟩ := exists_mem before
        obtain ⟨z, right⟩ := exists_mem after
        obtain ⟨short, low⟩ := mem_inter.mp left
        obtain ⟨past, high⟩ := mem_inter.mp right
        have above := Int.le_of_lt (lt_of_before inside short)
        have below := Int.le_of_lt (lt_of_after inside past)
        exact ⟨low.1.mono above, fun stop => high.2 (stop.mono below)⟩

/-- What is left of the intervals `is` once every interval of `bs` is taken out, one after the
    other. -/
def outsideAll (is bs : List Interval) : List Interval :=
  bs.foldl (fun rest b => rest.flatMap (·.outside b)) is

theorem mem_flatMap_outside {is : List Interval} {b : Interval} {x : Int} :
    (∃ i ∈ is.flatMap (·.outside b), i.Mem x) ↔ (∃ i ∈ is, i.Mem x) ∧ ¬ b.Mem x := by
  constructor
  · rintro ⟨j, piece, inside⟩
    obtain ⟨i, member, cut⟩ := List.mem_flatMap.mp piece
    have both := mem_outside.mp ⟨j, cut, inside⟩
    exact ⟨⟨i, member, both.1⟩, both.2⟩
  · rintro ⟨⟨i, member, inside⟩, away⟩
    obtain ⟨j, cut, held⟩ := mem_outside.mpr ⟨inside, away⟩
    exact ⟨j, List.mem_flatMap.mpr ⟨i, member, cut⟩, held⟩

theorem mem_outsideAll {is bs : List Interval} {x : Int} :
    (∃ i ∈ outsideAll is bs, i.Mem x) ↔ (∃ i ∈ is, i.Mem x) ∧ ∀ b ∈ bs, ¬ b.Mem x := by
  induction bs generalizing is with
  | nil => simp [outsideAll]
  | cons b bs ih =>
    change (∃ i ∈ outsideAll (is.flatMap (·.outside b)) bs, i.Mem x) ↔ _
    rw [ih, mem_flatMap_outside, List.forall_mem_cons, and_assoc]

namespace Normal

variable {is bs : List Interval}

/- Pieces of one interval keep the gaps among themselves, and pieces of two the gap between these. -/
theorem flatMap_outside (normal : Normal is) (b : Interval) :
    Normal (is.flatMap (·.outside b)) := by
  have within : ∀ i ∈ is, ∀ j ∈ i.outside b, i.start ≤ j.start ∧ j.stop ≤ i.stop := by
    intro i member j cut
    apply (forall_mem_iff_ends (isEmpty_of_mem_outside (normal.solid i member) cut)).mp
    intro x inside
    exact (mem_outside.mp ⟨j, cut, inside⟩).1
  constructor
  · intro j piece
    obtain ⟨i, member, cut⟩ := List.mem_flatMap.mp piece
    exact isEmpty_of_mem_outside (normal.solid i member) cut
  · apply List.pairwise_flatMap.mpr
    refine ⟨fun i member => (outside_normal (normal.solid i member) b).gaps, ?_⟩
    apply normal.gaps.imp_of_mem
    intro i j left right gap k first l second
    have ends := (within i left k first).2
    exact Endpoint.lt_of_lt_of_le (Int.lt_of_le_of_lt ends gap) (within j right l second).1

/- The intervals share no number, so `b` lies within one of them at most, and only that one falls in
   two. -/
theorem length_flatMap_outside (normal : Normal is) (b : Interval) :
    (is.flatMap (·.outside b)).length ≤ is.length + 1 := by
  induction is with
  | nil => exact Nat.zero_le _
  | cons i is ih =>
    rw [List.flatMap_cons, List.length_append, List.length_cons]
    rcases length_outside_le i b with one | ⟨two, within⟩
    · have rest := ih normal.tail
      omega
    · have whole : ∀ k ∈ is, k.outside b = [k] := by
        intro k member
        apply outside_of_apart (normal.tail.solid k member)
        intro x both
        exact Int.lt_irrefl x (lt_of_gap (normal.gap k member) (within x both.2) both.1)
      rw [List.flatMap_congr whole, List.flatMap_singleton', two]
      omega

theorem outsideAll (normal : Normal is) (bs : List Interval) : Normal (outsideAll is bs) := by
  induction bs generalizing is with
  | nil => exact normal
  | cons b bs ih => exact ih (normal.flatMap_outside b)

theorem length_outsideAll (normal : Normal is) (bs : List Interval) :
    (Interval.outsideAll is bs).length ≤ is.length + bs.length := by
  induction bs generalizing is with
  | nil => exact Nat.le_refl _
  | cons b bs ih =>
    have once := normal.length_flatMap_outside b
    have rest := ih (normal.flatMap_outside b)
    rw [List.length_cons]
    exact Nat.le_trans rest (by omega)

end Normal

end Interval

end GridRegions
