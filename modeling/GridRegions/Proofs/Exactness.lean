import GridRegions.Proofs.Simplification
import GridRegions.Region.Union

/-!
The algebra of regions is exact on points: every operation answers a region of the points that it
is named for, or reports the first dimension that differs. No promise about the parts is needed.
-/
namespace GridRegions

/-- The shape is made of ranges, so that it lies on one axis. -/
def Shape.IsLinear (s : Shape) : Prop := s = .interval ∨ s = .intervalUnion

namespace Region

/-- The first dimension among the others that differs is reported; without any, the outcome is a
    region of the points `inside`. -/
def Answers (r : Region) (others : List Region) (outcome : Except Fault Region)
    (inside : List Int → Prop) : Prop :=
  match others.find? fun s => s.dim != r.dim with
  | some s => outcome = .error (.dimensionMismatch r.dim s.dim)
  | none => ∃ t, outcome = .ok t ∧ t.dim = r.dim ∧ ∀ p, t.Mem p ↔ inside p

theorem shape_eq (r : Region) : r.shape =
    if r.parts.length < 2 then (if r.dim < 2 then .interval else .box)
    else if r.dim < 2 then .intervalUnion else .boxUnion := by
  unfold shape
  by_cases line : r.dim < 2
  · rcases r.parts with _ | ⟨_, _ | _⟩ <;> simp [line]
  · rcases r.parts with _ | ⟨_, _ | _⟩ <;> simp [line]

theorem isLinear_shape_iff (r : Region) : r.shape.IsLinear ↔ r.dim < 2 := by
  unfold shape Shape.IsLinear
  split <;> simp_all

theorem find?_dim_eq_none_iff {r : Region} {others : List Region} :
    others.find? (fun s => s.dim != r.dim) = none ↔ ∀ s ∈ others, s.dim = r.dim := by
  simp [List.find?_eq_none]

theorem Answers.of_dims {r : Region} {others : List Region} {outcome : Except Fault Region}
    {inside : List Int → Prop} (answers : Answers r others outcome inside)
    (same : ∀ s ∈ others, s.dim = r.dim) :
    ∃ t, outcome = .ok t ∧ t.dim = r.dim ∧ ∀ p, t.Mem p ↔ inside p := by
  rwa [Answers, find?_dim_eq_none_iff.mpr same] at answers

theorem Answers.of_differ {r s : Region} {others : List Region} {outcome : Except Fault Region}
    {inside : List Int → Prop} (answers : Answers r others outcome inside)
    (first : others.find? (fun s => s.dim != r.dim) = some s) :
    outcome = .error (.dimensionMismatch r.dim s.dim) := by
  rwa [Answers, first] at answers

theorem intersection_eq (r s : Region) : r.intersection s =
    if r.dim = s.dim then .ok (r.inter s) else .error (.dimensionMismatch r.dim s.dim) := by
  unfold intersection Fault.checkDim
  split <;> rfl

theorem difference_eq (r s : Region) : r.difference s =
    if r.dim = s.dim then .ok (r.diff s) else .error (.dimensionMismatch r.dim s.dim) := by
  unfold difference Fault.checkDim
  split <;> rfl

theorem foldlM_checked {op : Region → Region → Region}
    {checked : Region → Region → Except Fault Region}
    (keeps : ∀ r s, (op r s).dim = r.dim)
    (check : ∀ r s, checked r s =
      if r.dim = s.dim then .ok (op r s) else .error (.dimensionMismatch r.dim s.dim))
    (r : Region) (others : List Region) : others.foldlM checked r =
      match others.find? fun s => s.dim != r.dim with
      | some s => .error (.dimensionMismatch r.dim s.dim)
      | none => .ok (others.foldl op r) := by
  induction others generalizing r with
  | nil => rfl
  | cons s others ih =>
    rw [List.foldlM_cons, check]
    by_cases same : r.dim = s.dim
    · have pass : (s.dim != r.dim) = false := by simp [same]
      rw [if_pos same, List.find?_cons_of_neg (by simp [same]), List.foldl_cons, ← keeps r s]
      exact ih (op r s)
    · rw [if_neg same, List.find?_cons_of_pos (by simpa using Ne.symm same)]
      rfl

theorem forM_checkDim (dim : Nat) (rs : List Region) :
    (rs.forM fun s => Fault.checkDim dim s.dim) =
      match rs.find? fun s => s.dim != dim with
      | some s => .error (.dimensionMismatch dim s.dim)
      | none => .ok () := by
  induction rs with
  | nil => rfl
  | cons s rs ih =>
    rw [List.forM, Fault.checkDim]
    by_cases same : dim = s.dim
    · rw [if_pos same, List.find?_cons_of_neg (by simp [same])]
      exact ih
    · rw [if_neg same, List.find?_cons_of_pos (by simpa using Ne.symm same)]
      rfl

theorem gather_eq (r : Region) (rest : List Region) (disjoint : Bool) :
    gather (r :: rest) disjoint =
      match rest.find? fun s => s.dim != r.dim with
      | some s => .error (.dimensionMismatch r.dim s.dim)
      | none => .ok (ofParts r.dim ((r :: rest).flatMap parts) disjoint) := by
  rw [gather, forM_checkDim, List.find?_cons_of_neg (by simp)]
  split <;> rfl

theorem gather_of_same {r : Region} {rest : List Region} (same : ∀ s ∈ rest, s.dim = r.dim)
    (disjoint : Bool) : gather (r :: rest) disjoint =
      .ok (ofParts r.dim ((r :: rest).flatMap parts) disjoint) := by
  rw [gather_eq, find?_dim_eq_none_iff.mpr same]

theorem dims_gathered {r : Region} {rest : List Region} (same : ∀ s ∈ rest, s.dim = r.dim) :
    ∀ b ∈ (r :: rest).flatMap parts, b.dim = r.dim := by
  intro b member
  obtain ⟨s, listed, part⟩ := List.mem_flatMap.mp member
  rcases List.mem_cons.mp listed with rfl | later
  · exact s.sameDim b part
  · exact (s.sameDim b part).trans (same s later)

theorem mem_gathered {r : Region} {rest : List Region} {disjoint : Bool}
    (same : ∀ s ∈ rest, s.dim = r.dim) {p : List Int} :
    (ofParts r.dim ((r :: rest).flatMap parts) disjoint).Mem p ↔ ∃ s ∈ r :: rest, s.Mem p := by
  rw [mem_ofParts (dims_gathered same)]
  constructor
  · intro ⟨b, member, inside⟩
    obtain ⟨s, listed, part⟩ := List.mem_flatMap.mp member
    exact ⟨s, listed, b, part, inside⟩
  · intro ⟨s, listed, b, part, inside⟩
    exact ⟨b, List.mem_flatMap.mpr ⟨s, listed, part⟩, inside⟩

theorem dim_foldl_inter (r : Region) (ss : List Region) : (ss.foldl inter r).dim = r.dim := by
  induction ss generalizing r with
  | nil => rfl
  | cons s ss ih => exact ih (r.inter s)

theorem mem_foldl_inter {r : Region} {ss : List Region} (same : ∀ s ∈ ss, s.dim = r.dim)
    {p : List Int} : (ss.foldl inter r).Mem p ↔ r.Mem p ∧ ∀ s ∈ ss, s.Mem p := by
  induction ss generalizing r with
  | nil => simp
  | cons s ss ih =>
    have rest : ∀ t ∈ ss, t.dim = (r.inter s).dim := fun t later =>
      same t (List.mem_cons_of_mem s later)
    rw [List.foldl_cons, ih rest, mem_inter (same s List.mem_cons_self).symm, List.forall_mem_cons,
      and_assoc]

theorem answers_pair {r s : Region} {outcome : Except Fault Region} (result : Region)
    {inside : List Int → Prop}
    (check : outcome = if r.dim = s.dim then .ok result else .error (.dimensionMismatch r.dim s.dim))
    (dim : result.dim = r.dim) (points : r.dim = s.dim → ∀ p, result.Mem p ↔ inside p) :
    Answers r [s] outcome inside := by
  unfold Answers
  by_cases same : r.dim = s.dim
  · rw [List.find?_cons_of_neg (by simp [same]), List.find?_nil]
    exact ⟨result, by rw [check, if_pos same], dim, points same⟩
  · rw [List.find?_cons_of_pos (by simpa using Ne.symm same)]
    simp only [check, if_neg same]

theorem answers_list {r : Region} {others : List Region} {outcome : Except Fault Region}
    (result : Region) {inside : List Int → Prop}
    (check : outcome = match others.find? fun s => s.dim != r.dim with
      | some s => .error (.dimensionMismatch r.dim s.dim)
      | none => .ok result)
    (dim : result.dim = r.dim)
    (points : (∀ s ∈ others, s.dim = r.dim) → ∀ p, result.Mem p ↔ inside p) :
    Answers r others outcome inside := by
  unfold Answers
  rw [check]
  split
  · rfl
  · rename_i none
    exact ⟨result, rfl, dim, points (find?_dim_eq_none_iff.mp none)⟩

theorem intersection_answers (r s : Region) :
    Answers r [s] (r.intersection s) fun p => r.Mem p ∧ s.Mem p :=
  answers_pair _ (intersection_eq r s) rfl fun same _ => mem_inter same

theorem difference_answers (r s : Region) :
    Answers r [s] (r.difference s) fun p => r.Mem p ∧ ¬ s.Mem p :=
  answers_pair _ (difference_eq r s) rfl fun same _ => mem_diff same

theorem complementIn_answers (r window : Region) :
    Answers r [window] (r.complementIn window) fun p => window.Mem p ∧ ¬ r.Mem p := by
  have dim := dim_complement r
  apply answers_pair (r.complement.inter window)
  · rw [complementIn, intersection_eq, dim]
  · exact dim
  · intro same p
    rw [mem_inter (dim.trans same), mem_complement]
    constructor
    · intro ⟨⟨_, away⟩, inside⟩
      exact ⟨inside, away⟩
    · intro ⟨inside, away⟩
      exact ⟨⟨(length_of_mem inside).trans same.symm, away⟩, inside⟩

theorem gather_answers (r : Region) (rest : List Region) (disjoint : Bool) :
    Answers r rest (gather (r :: rest) disjoint) fun p => ∃ s ∈ r :: rest, s.Mem p :=
  answers_list _ (gather_eq r rest disjoint) rfl fun same _ => mem_gathered same

theorem union_eq (r s : Region) : r.union s = (gather [r, s] false).map simplified := by
  unfold union
  cases gather [r, s] false <;> rfl

/-- The parts of both regions, without a promise. -/
def together (r s : Region) : Region := ofParts r.dim (r.parts ++ s.parts) false

@[simp] theorem dim_together (r s : Region) : (r.together s).dim = r.dim := rfl

theorem mem_together {r s : Region} (same : r.dim = s.dim) {p : List Int} :
    (r.together s).Mem p ↔ r.Mem p ∨ s.Mem p := by
  rw [together, mem_ofParts]
  · simp only [List.mem_append, or_and_right, exists_or]
    rfl
  · intro b member
    rcases List.mem_append.mp member with left | right
    · exact r.sameDim b left
    · exact (s.sameDim b right).trans same.symm

theorem gather_pair {r s : Region} (same : r.dim = s.dim) :
    gather [r, s] false = .ok (r.together s) := by
  rw [gather_of_same (by simp [same]), List.flatMap_cons, List.flatMap_singleton]
  rfl

theorem union_pair {r s : Region} (same : r.dim = s.dim) :
    r.union s = .ok (r.together s).simplified := by
  rw [union_eq, gather_pair same]
  rfl

theorem union_answers (r s : Region) : Answers r [s] (r.union s) fun p => r.Mem p ∨ s.Mem p := by
  apply answers_list (ofParts r.dim ([r, s].flatMap parts) false).simplified
  · rw [union_eq, gather_eq]
    split <;> rfl
  · rfl
  · intro same p
    rw [mem_simplified, mem_gathered same]
    simp

theorem differenceAll_answers (r : Region) (others : List Region) :
    Answers r others (r.differenceAll others) fun p => r.Mem p ∧ ∀ s ∈ others, ¬ s.Mem p :=
  answers_list _ (foldlM_checked dim_diff difference_eq r others) (dim_foldl_diff r others)
    fun same _ => mem_foldl_diff same

theorem intersectionAll_answers (r : Region) (others : List Region) :
    Answers r others (r.intersectionAll others) fun p => ∀ s ∈ r :: others, s.Mem p :=
  answers_list _ (foldlM_checked dim_inter intersection_eq r others) (dim_foldl_inter r others)
    fun same _ => (mem_foldl_inter same).trans (by simp)

end Region

end GridRegions
