import GridRegions.Proofs.Exactness
import GridRegions.Proofs.Motion
import GridRegions.Region.Motion

/-!
What holds of every region as it is stored, and that each operation keeps it. A promise is kept by
intersection and product if both operands keep theirs, by difference and shift if the first does,
and it is made anew by complement, separation and simplification.
-/
namespace GridRegions

namespace Region

/-- On one axis the components are intervals, else boxes of that many axes; an empty component
    stands alone, with all its ends at zero, and the promise is kept. -/
structure WellFormed (r : Region) : Prop where
  positive : 0 < r.dim
  linear : r.shape.IsLinear ↔ r.dim = 1
  ordered : ∀ b ∈ r.components, ∀ i ∈ b.axes, i.start < i.stop ∨ i.start = .zero ∧ i.stop = .zero
  canonical : ∀ b ∈ r.components, (∀ i ∈ b.axes, i.isEmpty = false) ∨ ∀ i ∈ b.axes, i = .empty
  dims : ∀ b ∈ r.components, b.dim = r.dim
  solid : 2 ≤ r.components.length → ∀ b ∈ r.components, b.isEmpty = false
  truthful : r.disjoint = true → r.components.Pairwise Box.Apart

theorem wellFormed_iff {r : Region} : r.WellFormed ↔ 0 < r.dim ∧ r.Truthful := by
  constructor
  · intro formed
    refine ⟨formed.positive, fun flag => ?_⟩
    have apart := formed.truthful flag
    unfold components at apart
    split at apart
    · rename_i none
      rw [List.isEmpty_iff.mp none]
      exact .nil
    · exact apart
  · intro ⟨positive, truthful⟩
    constructor
    · exact positive
    · rw [isLinear_shape_iff]
      omega
    · exact fun b _ i _ => i.proper
    · exact fun b _ => b.canonical
    · exact fun b member => dim_of_mem_components member
    · intro many b member
      unfold components at many member
      split at member
      · rename_i none
        rw [if_pos none] at many
        simp at many
      · exact r.solid b member
    · exact fun flag => components_apart (truthful flag)

theorem inter_truthful {r s : Region} (same : r.dim = s.dim) (left : r.Truthful)
    (right : s.Truthful) : (r.inter s).Truthful :=
  truthful_ofParts fun both =>
    have flags := Bool.and_eq_true_iff.mp both
    inter_apart same (left flags.1) (right flags.2)

theorem diff_truthful {r s : Region} (same : r.dim = s.dim) (truthful : r.Truthful) :
    (r.diff s).Truthful :=
  truthful_ofParts fun flag => diff_apart same (truthful flag)

theorem prod_truthful {r s : Region} (left : r.Truthful) (right : s.Truthful) :
    (r.prod s).Truthful :=
  truthful_ofParts fun both =>
    have flags := Bool.and_eq_true_iff.mp both
    prod_apart (left flags.1) (right flags.2)

theorem gathered_truthful (dim : Nat) (boxes : List Box) : (ofParts dim boxes false).Truthful :=
  truthful_ofParts fun flag => absurd flag (by decide)

theorem together_truthful (r s : Region) : (r.together s).Truthful := gathered_truthful r.dim _

theorem foldl_inter_truthful {r : Region} {ss : List Region} (same : ∀ s ∈ ss, s.dim = r.dim)
    (first : r.Truthful) (rest : ∀ s ∈ ss, s.Truthful) : (ss.foldl inter r).Truthful := by
  induction ss generalizing r with
  | nil => exact first
  | cons s ss ih =>
    have dim : r.dim = s.dim := (same s List.mem_cons_self).symm
    apply ih
    · exact fun t later => same t (List.mem_cons_of_mem s later)
    · exact inter_truthful dim first (rest s List.mem_cons_self)
    · exact fun t later => rest t (List.mem_cons_of_mem s later)

theorem foldl_diff_truthful {r : Region} {ss : List Region} (same : ∀ s ∈ ss, s.dim = r.dim)
    (first : r.Truthful) : (ss.foldl diff r).Truthful := by
  induction ss generalizing r with
  | nil => exact first
  | cons s ss ih =>
    apply ih
    · exact fun t later => same t (List.mem_cons_of_mem s later)
    · exact diff_truthful (same s List.mem_cons_self).symm first

theorem dim_foldl_hull {bs : List Box} {around : Box} (same : ∀ b ∈ bs, b.dim = around.dim) :
    (bs.foldl Box.hull around).dim = around.dim := by
  induction bs generalizing around with
  | nil => rfl
  | cons b bs ih =>
    have grown : (around.hull b).dim = around.dim := Box.dim_hull (same b List.mem_cons_self).symm
    have rest : ∀ c ∈ bs, c.dim = (around.hull b).dim := fun c later =>
      (same c (List.mem_cons_of_mem b later)).trans grown.symm
    exact (ih rest).trans grown

theorem dim_hull (r : Region) : r.hull.dim = r.dim := by
  have same : ∀ b ∈ r.parts, b.dim = (Box.empty r.dim).dim := by simpa using r.sameDim
  exact (dim_foldl_hull same).trans (Box.dim_empty r.dim)

theorem shift_eq_ok {r moved : Region} {deltas : List Int} (run : r.shift deltas = .ok moved) :
    r.dim = deltas.length ∧ r.isEmpty = false ∧ ∃ boxes, r.parts.mapM (·.shift deltas) = .ok boxes ∧
      moved = ofParts r.dim boxes r.disjoint := by
  unfold shift at run
  obtain ⟨_, same, run⟩ := bind_eq_ok.mp run
  obtain ⟨solid, run⟩ := guard_eq_ok.mp run
  obtain ⟨boxes, moves, run⟩ := bind_eq_ok.mp run
  cases run
  exact ⟨checkDim_eq_ok.mp same, Bool.not_eq_true _ ▸ solid, boxes, moves, rfl⟩

theorem shift_truthful {r moved : Region} {deltas : List Int} (run : r.shift deltas = .ok moved)
    (truthful : r.Truthful) : moved.Truthful := by
  obtain ⟨_, _, boxes, moves, rfl⟩ := shift_eq_ok run
  apply truthful_ofParts
  intro flag
  apply parts_ofParts_apart
  apply pairwise_of_forall₂ (mapM_eq_ok.mp moves) _ (truthful flag)
  exact fun a _ b _ movedA movedB => Box.shift_apart

theorem resize_eq_ok {how : Resizing} {onInterval : Interval → Margin → Except Fault Interval}
    {onBox : Box → List Margin → Except Fault Box} {r resized : Region} {margins : List Margin}
    (keeps : ∀ b c, onBox b margins = .ok c → c.dim = b.dim)
    (run : resize how onInterval onBox r margins = .ok resized) :
    ∃ b, resized = ofBox b ∧ b.dim = r.dim := by
  unfold resize at run
  obtain ⟨b, only, run⟩ := bind_eq_ok.mp run
  have dim : b.dim = r.dim := by
    unfold onlyBox at only
    split at only
    · cases only
      exact Box.dim_empty r.dim
    · rename_i single
      cases only
      exact r.sameDim b (by simp [single])
    · cases only
  split at run
  · rename_i i m axes _
    obtain ⟨j, _, run⟩ := bind_eq_ok.mp run
    cases run
    refine ⟨.line j, rfl, ?_⟩
    rw [Box.dim_line, ← dim, Box.dim, axes]
    rfl
  · cases run
  · obtain ⟨c, resizes, run⟩ := bind_eq_ok.mp run
    cases run
    exact ⟨c, rfl, (keeps b c resizes).trans dim⟩

theorem dims_shift {r : Region} {deltas : List Int} {boxes : List Box}
    (run : r.parts.mapM (Box.shift · deltas) = .ok boxes) : ∀ c ∈ boxes, c.dim = r.dim := by
  intro c member
  obtain ⟨b, part, shifted⟩ := exists_of_forall₂ (mapM_eq_ok.mp run) member
  exact (Box.dim_move shifted).trans (r.sameDim b part)

theorem dims_simplified (r : Region) : ∀ b ∈ (if r.dim = 1 then
    (Interval.joinSorted r.separated.intervals).map Box.line
      else Box.fuseAll r.separated.parts), b.dim = r.dim := by
  intro b member
  split at member
  · rename_i one
    obtain ⟨i, _, rfl⟩ := List.mem_map.mp member
    exact (Box.dim_line i).trans one.symm
  · exact ((Box.recut_fuseAll r.separated.sameDim).dims b member).trans (dim_separated r)

/-- The boxes that each operation makes have the dimension of what it is asked for, so none is left out
    unless it is empty. -/
structure Assembles (r s : Region) (others : List Region) : Prop where
  inter : r.dim = s.dim → assemble? r.dim (r.parts.flatMap fun a => s.parts.map fun b => a.inter b)
    (r.disjoint && s.disjoint) = some (r.inter s)
  remove : ∀ b : Box, b.dim = r.dim → assemble? r.dim (r.parts.flatMap fun a =>
    if r.dim = 1 then b.complement.map (·.inter a) else a.carve b) r.disjoint = some (r.remove b)
  complement : ∀ b, r.parts = [b] → assemble? r.dim b.complement true = some r.complement
  diff : r.dim = s.dim → assemble? r.dim (r.parts.flatMap fun a =>
    if r.dim = 1 then s.complement.parts.map (·.inter a)
    else ((ofBox a).removeAll s.parts).parts) r.disjoint = some (r.diff s)
  gather : (∀ o ∈ others, o.dim = r.dim) → ∀ disjoint t, gather (r :: others) disjoint = .ok t →
    assemble? r.dim ((r :: others).flatMap parts) disjoint = some t
  separated : r.disjoint = false →
    assemble? r.dim ((separate (r.parts.map ofBox)).flatMap parts) true = some r.separated
  simplified : assemble? r.dim (if r.dim = 1 then
    (Interval.joinSorted r.separated.intervals).map Box.line
      else Box.fuseAll r.separated.parts) true = some r.simplified
  hull : assemble? r.dim [r.hull] true = some (ofBox r.hull)
  shift : ∀ deltas boxes t, r.parts.mapM (Box.shift · deltas) = .ok boxes →
    r.shift deltas = .ok t → assemble? r.dim boxes r.disjoint = some t
  grow : ∀ margins t, r.grow margins = .ok t → ∃ b, assemble? r.dim [b] true = some t
  shrink : ∀ margins t, r.shrink margins = .ok t → ∃ b, assemble? r.dim [b] true = some t
  prod : assemble? (r.dim + s.dim) (r.parts.flatMap fun a => s.parts.map fun b => a.prod b)
    (r.disjoint && s.disjoint) = some (r.prod s)

theorem assemble?_ofBox {r : Region} {b : Box} (dim : b.dim = r.dim) :
    assemble? r.dim [b] true = some (ofBox b) := by
  rw [ofBox, dim]
  exact assemble?_eq (by simpa using dim) true

theorem assembles (r s : Region) (others : List Region) : Assembles r s others where
  inter same := assemble?_eq (dims_inter same) _
  remove b same := assemble?_eq (dims_remove same) _
  complement b single := by
    have dim : b.dim = r.dim := r.sameDim b (by simp [single])
    rw [assemble?_eq fun c side => (Box.dim_of_mem_complement side).trans dim, Region.complement,
      single]
  diff same := assemble?_eq (dims_diff same) _
  gather same disjoint t run := by
    rw [gather_of_same same] at run
    cases run
    exact assemble?_eq (dims_gathered same) disjoint
  separated raw := by
    rw [assemble?_eq dim_of_mem_parts_separate, Region.separated, raw, if_neg Bool.false_ne_true]
  simplified := assemble?_eq (dims_simplified r) true
  hull := assemble?_ofBox (dim_hull r)
  shift deltas boxes t moves run := by
    obtain ⟨_, _, others, moved, rfl⟩ := shift_eq_ok run
    rw [moves] at moved
    cases moved
    exact assemble?_eq (dims_shift moves) r.disjoint
  grow margins t run := by
    obtain ⟨b, rfl, dim⟩ := resize_eq_ok (fun b c moves => Box.dim_move moves) run
    exact ⟨b, assemble?_ofBox dim⟩
  shrink margins t run := by
    obtain ⟨b, rfl, dim⟩ := resize_eq_ok (fun b c moves => Box.dim_move moves) run
    exact ⟨b, assemble?_ofBox dim⟩
  prod := assemble?_eq (dims_prod r s) _

/-- Whenever the outcome is a region, it is a well-formed one of this dimension. -/
def Yields (dim : Nat) (outcome : Except Fault Region) : Prop :=
  ∀ t, outcome = .ok t → t.WellFormed ∧ t.dim = dim

theorem yields_ok {dim : Nat} {t : Region} (positive : 0 < dim) (same : t.dim = dim)
    (truthful : t.Truthful) : Yields dim (.ok t) := by
  intro u eq
  cases eq
  exact ⟨wellFormed_iff.mpr ⟨same ▸ positive, truthful⟩, same⟩

theorem yields_pair {r s : Region} (result : Region) {outcome : Except Fault Region}
    (check : outcome = if r.dim = s.dim then .ok result else .error (.dimensionMismatch r.dim s.dim))
    (positive : 0 < r.dim) (dim : result.dim = r.dim) (truthful : r.dim = s.dim → result.Truthful) :
    Yields r.dim outcome := by
  rw [check]
  split
  · rename_i same
    exact yields_ok positive dim (truthful same)
  · intro t eq
    cases eq

theorem yields_list {r result : Region} {others : List Region} {outcome : Except Fault Region}
    (check : outcome = match others.find? fun s => s.dim != r.dim with
      | some s => .error (.dimensionMismatch r.dim s.dim)
      | none => .ok result)
    (positive : 0 < r.dim) (dim : result.dim = r.dim)
    (truthful : (∀ s ∈ others, s.dim = r.dim) → result.Truthful) : Yields r.dim outcome := by
  rw [check]
  split
  · intro t eq
    cases eq
  · rename_i none
    exact yields_ok positive dim (truthful (find?_dim_eq_none_iff.mp none))

theorem gather_yields {r : Region} (positive : 0 < r.dim) (rest : List Region) :
    Yields r.dim (gather (r :: rest) false) :=
  yields_list (gather_eq r rest false) positive rfl fun _ => gathered_truthful r.dim _

theorem union_yields {r : Region} (positive : 0 < r.dim) (s : Region) : Yields r.dim (r.union s) := by
  intro t run
  rw [union_eq] at run
  obtain ⟨gathered, made, rfl⟩ := map_eq_ok.mp run
  obtain ⟨formed, dim⟩ := gather_yields positive [s] gathered made
  have apart := simplified_apart (wellFormed_iff.mp formed).2
  exact yields_ok positive ((dim_simplified gathered).trans dim) (fun _ => apart) _ rfl

/-- What each operation does with well-formed operands. -/
structure Keeps (r s : Region) (others : List Region) : Prop where
  intersection : Yields r.dim (r.intersection s)
  intersectionAll : Yields r.dim (r.intersectionAll others)
  complement : Yields r.dim (.ok r.complement)
  complementIn : Yields r.dim (r.complementIn s)
  difference : Yields r.dim (r.difference s)
  differenceAll : Yields r.dim (r.differenceAll others)
  gather : Yields r.dim (gather (r :: others) false)
  union : Yields r.dim (r.union s)
  simplified : Yields r.dim (.ok r.simplified)
  separated : Yields r.dim (.ok r.separated)
  hull : Yields r.dim (.ok (ofBox r.hull))
  shift : ∀ deltas, Yields r.dim (r.shift deltas)
  grow : ∀ margins, Yields r.dim (r.grow margins)
  shrink : ∀ margins, Yields r.dim (r.shrink margins)
  prod : Yields (r.dim + s.dim) (.ok (r.prod s))

theorem keeps {r s : Region} (others : List Region) (first : r.WellFormed) (second : s.WellFormed)
    (rest : ∀ o ∈ others, o.WellFormed) : Keeps r s others := by
  obtain ⟨positive, left⟩ := wellFormed_iff.mp first
  have right := (wellFormed_iff.mp second).2
  have others' : ∀ o ∈ others, o.Truthful := fun o member => (wellFormed_iff.mp (rest o member)).2
  have outside : r.complement.Truthful := fun _ => complement_apart r
  have dim := dim_complement r
  constructor
  case intersection =>
    exact yields_pair _ (intersection_eq r s) positive rfl fun same => inter_truthful same left right
  case intersectionAll =>
    exact yields_list (foldlM_checked dim_inter intersection_eq r others) positive
      (dim_foldl_inter r others) fun same => foldl_inter_truthful same left others'
  case complement => exact yields_ok positive dim outside
  case complementIn =>
    apply yields_pair (r.complement.inter s) _ positive dim
    · exact fun same => inter_truthful (dim.trans same) outside right
    · rw [Region.complementIn, intersection_eq, dim]
  case difference =>
    exact yields_pair _ (difference_eq r s) positive rfl fun same => diff_truthful same left
  case differenceAll =>
    exact yields_list (foldlM_checked dim_diff difference_eq r others) positive
      (dim_foldl_diff r others) fun same => foldl_diff_truthful same left
  case gather => exact gather_yields positive others
  case union => exact union_yields positive s
  case simplified => exact yields_ok positive rfl fun _ => simplified_apart left
  case separated => exact yields_ok positive (dim_separated r) fun _ => separated_apart left
  case hull => exact yields_ok positive (dim_hull r) fun _ => ofBox_apart r.hull
  case shift =>
    intro deltas t run
    obtain ⟨_, _, boxes, _, eq⟩ := shift_eq_ok run
    exact yields_ok positive (by rw [eq]; rfl) (shift_truthful run left) t rfl
  case grow =>
    intro margins t run
    obtain ⟨b, rfl, dimB⟩ := resize_eq_ok (fun b c moves => Box.dim_move moves) run
    exact yields_ok positive dimB (fun _ => ofBox_apart b) _ rfl
  case shrink =>
    intro margins t run
    obtain ⟨b, rfl, dimB⟩ := resize_eq_ok (fun b c moves => Box.dim_move moves) run
    exact yields_ok positive dimB (fun _ => ofBox_apart b) _ rfl
  case prod => exact yields_ok (Nat.add_pos_left positive s.dim) rfl (prod_truthful left right)

/-- A region that one operation makes of the regions at hand. Gathering and union may also be given
    regions from elsewhere, whatever those promise. -/
inductive Makes (rs : List Region) : Region → Prop where
  | intersection {r s t : Region} (left : r ∈ rs) (right : s ∈ rs)
      (run : r.intersection s = .ok t) : Makes rs t
  | intersectionAll {r t : Region} {others : List Region} (left : r ∈ rs)
      (right : ∀ o ∈ others, o ∈ rs) (run : r.intersectionAll others = .ok t) : Makes rs t
  | complement {r : Region} (left : r ∈ rs) : Makes rs r.complement
  | complementIn {r s t : Region} (left : r ∈ rs) (right : s ∈ rs)
      (run : r.complementIn s = .ok t) : Makes rs t
  | difference {r s t : Region} (left : r ∈ rs) (right : s ∈ rs)
      (run : r.difference s = .ok t) : Makes rs t
  | differenceAll {r t : Region} {others : List Region} (left : r ∈ rs)
      (right : ∀ o ∈ others, o ∈ rs) (run : r.differenceAll others = .ok t) : Makes rs t
  | gather {r t : Region} {rest : List Region} (positive : 0 < r.dim)
      (run : Region.gather (r :: rest) false = .ok t) : Makes rs t
  | union {r s t : Region} (positive : 0 < r.dim) (run : r.union s = .ok t) : Makes rs t
  | simplified {r : Region} (left : r ∈ rs) : Makes rs r.simplified
  | separated {r : Region} (left : r ∈ rs) : Makes rs r.separated
  | hull {r : Region} (left : r ∈ rs) : Makes rs (ofBox r.hull)
  | shift {r t : Region} {deltas : List Int} (left : r ∈ rs) (run : r.shift deltas = .ok t) :
      Makes rs t
  | grow {r t : Region} {margins : List Margin} (left : r ∈ rs) (run : r.grow margins = .ok t) :
      Makes rs t
  | shrink {r t : Region} {margins : List Margin} (left : r ∈ rs)
      (run : r.shrink margins = .ok t) : Makes rs t
  | prod {r s : Region} (left : r ∈ rs) (right : s ∈ rs) : Makes rs (r.prod s)

/-- Operations one after the other, each on the given regions and those made before. -/
inductive Run (given : List Region) : List Region → Prop where
  | start : Run given given
  | step {rs : List Region} {t : Region} (before : Run given rs) (last : Makes rs t) :
      Run given (t :: rs)

theorem wellFormed_of_makes {rs : List Region} {t : Region} (formed : ∀ r ∈ rs, r.WellFormed)
    (made : Makes rs t) : t.WellFormed := by
  have alone := fun r (member : r ∈ rs) =>
    keeps [] (formed r member) (formed r member) (by simp)
  have paired := fun r (left : r ∈ rs) s (right : s ∈ rs) =>
    keeps [] (formed r left) (formed s right) (by simp)
  have listed := fun r (left : r ∈ rs) others (right : ∀ o ∈ others, o ∈ rs) =>
    keeps others (formed r left) (formed r left) fun o member => formed o (right o member)
  cases made with
  | intersection left right run => exact ((paired _ left _ right).intersection t run).1
  | intersectionAll left right run => exact ((listed _ left _ right).intersectionAll t run).1
  | complement left => exact ((alone _ left).complement _ rfl).1
  | complementIn left right run => exact ((paired _ left _ right).complementIn t run).1
  | difference left right run => exact ((paired _ left _ right).difference t run).1
  | differenceAll left right run => exact ((listed _ left _ right).differenceAll t run).1
  | gather positive run => exact (gather_yields positive _ t run).1
  | union positive run => exact (union_yields positive _ t run).1
  | simplified left => exact ((alone _ left).simplified _ rfl).1
  | separated left => exact ((alone _ left).separated _ rfl).1
  | hull left => exact ((alone _ left).hull _ rfl).1
  | shift left run => exact ((alone _ left).shift _ t run).1
  | grow left run => exact ((alone _ left).grow _ t run).1
  | shrink left run => exact ((alone _ left).shrink _ t run).1
  | prod left right => exact ((paired _ left _ right).prod _ rfl).1

theorem wellFormed_of_run {given rs : List Region} (formed : ∀ r ∈ given, r.WellFormed)
    (run : Run given rs) : ∀ r ∈ rs, r.WellFormed := by
  induction run with
  | start => exact formed
  | step _ last ih =>
    intro r member
    rcases List.mem_cons.mp member with rfl | earlier
    · exact wellFormed_of_makes ih last
    · exact ih r earlier

/-- Every operation keeps regions well-formed, gathering and union even those of operands that
    break their promise; so no chain of operations ends in a false promise. Empty boxes apart, none is
    lost on the way. -/
theorem wellFormed_invariant :
    (∀ (r s : Region) (others : List Region), Assembles r s others) ∧
    (∀ (r s : Region) (others : List Region), r.WellFormed → s.WellFormed →
      (∀ o ∈ others, o.WellFormed) → Keeps r s others) ∧
    (∀ (r s : Region) (rest : List Region), 0 < r.dim →
      Yields r.dim (r.union s) ∧ Yields r.dim (gather (r :: rest) false)) ∧
    (∀ given rs : List Region, (∀ r ∈ given, r.WellFormed) → Run given rs →
      ∀ r ∈ rs, r.WellFormed ∧ (r.disjoint = true → r.parts.Pairwise Box.Apart)) := by
  refine ⟨assembles, fun r s others => keeps others, fun r s rest positive =>
    ⟨union_yields positive s, gather_yields positive rest⟩, ?_⟩
  intro given rs formed run r member
  have kept := wellFormed_of_run formed run r member
  exact ⟨kept, (wellFormed_iff.mp kept).2⟩

end Region

namespace Sample

def crossed : Region := .ofParts 2 [tile 0 0 3 2, tile 2 1 3 2] false

def forsworn : Region := .ofParts 2 [tile 0 0 3 2, tile 2 1 3 2] true

end Sample

namespace Region

theorem wellFormed_invariant_crossed : Sample.crossed.WellFormed ∧ ¬ Sample.forsworn.WellFormed ∧
    Keeps Sample.crossed Sample.crossed [Sample.crossed] ∧
    ∃ t u v, Sample.crossed.union Sample.forsworn = .ok t ∧ t.shift [1, 1] = .ok u ∧
      t.difference u = .ok v ∧ Run [Sample.crossed] [v, u, t, Sample.crossed] ∧
      t.WellFormed ∧ t.dim = 2 ∧ v.WellFormed ∧ v.disjoint = true ∧ v.parts.length = 3 ∧
      v.parts.Pairwise Box.Apart := by
  have formed : Sample.crossed.WellFormed := wellFormed_iff.mpr ⟨by decide, gathered_truthful 2 _⟩
  have broken : ¬ Sample.forsworn.WellFormed := by
    intro formed
    have apart := (wellFormed_iff.mp formed).2 rfl
    have tiles : Sample.forsworn.parts = [Sample.tile 0 0 3 2, Sample.tile 2 1 3 2] := by
      decide +kernel
    have dims : (Sample.tile 0 0 3 2).dim = (Sample.tile 2 1 3 2).dim := rfl
    rw [tiles, List.pairwise_pair, Box.apart_iff_isEmpty_inter dims] at apart
    exact absurd apart (by decide +kernel)
  have all : (do
      let t ← Sample.crossed.union Sample.forsworn
      let u ← t.shift [1, 1]
      let v ← t.difference u
      return (v.disjoint, v.parts.length)) = Except.ok (true, 3) := by decide +kernel
  obtain ⟨t, union, all⟩ := bind_eq_ok.mp all
  obtain ⟨u, shift, all⟩ := bind_eq_ok.mp all
  obtain ⟨v, difference, all⟩ := bind_eq_ok.mp all
  obtain ⟨flag, count⟩ := Prod.mk.inj (Except.ok.inj all)
  have run : Run [Sample.crossed] [v, u, t, Sample.crossed] :=
    .step (.step (.step .start (.union (by decide) union)) (.shift (by simp) shift))
      (.difference (by simp) (by simp) difference)
  obtain ⟨_, keeps, united, runs⟩ := wellFormed_invariant
  obtain ⟨formedT, dim⟩ := (united Sample.crossed Sample.forsworn [] (by decide)).1 t union
  obtain ⟨formedV, apart⟩ := runs _ _ (by simpa using formed) run v (by simp)
  exact ⟨formed, broken, keeps _ _ _ formed formed (by simpa using formed), t, u, v, union, shift,
    difference, run, formedT, dim, formedV, flag, count, apart flag⟩

end Region

end GridRegions
