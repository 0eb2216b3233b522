import GridRegions.Proofs.Gathering
import GridRegions.Region.Dispatch

/-!
Taken apart by their shapes, regions of one dimension never come to a case without a result,
neither in an operation nor in those it calls in turn, and have the result that the algebra gives
them.
-/
namespace GridRegions

section

variable {α β : Type}

theorem mapM_eq_some {f : α → Option β} {g : α → β} {as : List α} (each : ∀ a ∈ as, f a = some (g a)) :
    as.mapM f = some (as.map g) := by
  induction as with
  | nil => rfl
  | cons a as ih =>
    obtain ⟨first, rest⟩ := List.forall_mem_cons.mp each
    rw [List.mapM_cons, first, ih rest]
    rfl

theorem foldlM_eq_some {f : β → α → Option β} {g : β → α → β} {P : β → Prop} {as : List α}
    (each : ∀ b, P b → ∀ a ∈ as, f b a = some (g b a) ∧ P (g b a)) {b : β} (start : P b) :
    as.foldlM f b = some (as.foldl g b) := by
  induction as generalizing b with
  | nil => rfl
  | cons a as ih =>
    obtain ⟨first, kept⟩ := each b start a List.mem_cons_self
    rw [List.foldlM_cons, first]
    exact ih (fun b held c later => each b held c (List.mem_cons_of_mem a later)) kept

theorem findSomeM?_eq_some {f : α → Option (Option β)} {g : α → Option β} {as : List α}
    (each : ∀ a ∈ as, f a = some (g a)) : as.findSomeM? f = some (as.findSome? g) := by
  induction as with
  | nil => rfl
  | cons a as ih =>
    obtain ⟨first, rest⟩ := List.forall_mem_cons.mp each
    rw [List.findSomeM?_cons, List.findSome?_cons, first]
    cases g a with
    | none => exact ih rest
    | some b => rfl

end

namespace Box

theorem inter_comm (a b : Box) : a.inter b = b.inter a := by
  rw [inter, inter, List.zipWith_comm_of_comm Interval.inter_comm]

theorem carve_eq_nil {a b : Box} (same : a.dim = b.dim) (solid : a.isEmpty = false)
    (within : ∀ p, a.Mem p → b.Mem p) : a.carve b = [] := by
  apply List.eq_nil_iff_forall_not_mem.mpr
  intro c piece
  obtain ⟨p, inside⟩ := Axes.exists_mem (solid_of_mem_carve same solid piece)
  have left := (mem_carve same).mp ⟨c, piece, inside⟩
  exact left.2 (within p left.1)

end Box

namespace Region

variable {r s : Region} {a b : Box} {dim : Nat}

theorem isUnion_shape_iff : r.shape.isUnion = true ↔ 2 ≤ r.parts.length := by
  rw [shape_eq]
  by_cases few : r.parts.length < 2
  · rw [if_pos few]
    split <;> simp [Shape.isUnion, few]
  · rw [if_neg few]
    split <;> simp [Shape.isUnion, Nat.not_lt.mp few]

theorem ofParts_congr {boxes others : List Box} {disjoint : Bool}
    (kept : (ofParts dim boxes disjoint).parts = (ofParts dim others disjoint).parts) :
    ofParts dim boxes disjoint = ofParts dim others disjoint := by
  refine Region.ext rfl kept ?_
  change (disjoint || decide ((ofParts dim boxes disjoint).parts.length < 2)) =
    (disjoint || decide ((ofParts dim others disjoint).parts.length < 2))
  rw [kept]

theorem ofParts_filter (dim : Nat) (boxes : List Box) (disjoint : Bool) :
    ofParts dim (boxes.filter (!·.isEmpty)) disjoint = ofParts dim boxes disjoint := by
  apply ofParts_congr
  apply (List.filter_filter ..).trans
  apply List.filter_congr
  intro b _
  rw [Bool.and_assoc, Bool.and_self]

theorem flatten?_eq {rs : List Region} (positive : 0 < dim) (dims : ∀ r ∈ rs, r.dim = dim)
    (disjoint : Bool) : flatten? dim rs disjoint = some (ofParts dim (rs.flatMap parts) disjoint) := by
  have all : ∀ b ∈ rs.flatMap components, b.dim = dim := by
    intro b member
    obtain ⟨r, listed, part⟩ := List.mem_flatMap.mp member
    exact (dim_of_mem_components part).trans (dims r listed)
  rw [flatten?, assemble?_eq all]
  apply congrArg some
  apply ofParts_congr
  rw [parts_ofParts_eq_filter disjoint all, filter_flatMap_components]
  · exact (parts_gathered_of_dims dims).symm
  · exact fun r listed => dims r listed ▸ positive

theorem eachPart?_eq (positive : 0 < r.dim) {f : Box → Option Region} {g : Box → Region}
    (each : ∀ a ∈ r.parts, f a = some (g a)) (dims : ∀ a ∈ r.parts, (g a).dim = r.dim)
    (disjoint : Bool) : r.eachPart? f disjoint =
      some (ofParts r.dim (r.parts.flatMap fun a => (g a).parts) disjoint) := by
  rw [eachPart?, mapM_eq_some each, Option.bind_eq_bind, Option.bind_some,
    flatten?_eq positive (by simpa using dims), List.flatMap_map]

theorem ofBox_primitive (positive : 0 < r.dim) (few : r.parts.length < 2) :
    ofBox r.primitive = r := by
  unfold primitive
  cases parts : r.parts with
  | nil =>
    have void := eq_empty_of_parts positive parts
    rw [empty, if_neg (Nat.ne_of_gt positive)] at void
    exact void.symm
  | cons b rest =>
    rw [parts, List.length_cons] at few
    have single : rest = [] := List.length_eq_zero_iff.mp (by omega)
    exact (eq_ofBox_of_parts (single ▸ parts)).symm

theorem ofBox_primitive_of_isUnion (positive : 0 < r.dim) (single : ¬ r.shape.isUnion = true) :
    ofBox r.primitive = r :=
  ofBox_primitive positive (Nat.not_le.mp (mt isUnion_shape_iff.mpr single))

theorem dim_primitive (r : Region) : r.primitive.dim = r.dim := by
  unfold primitive
  cases parts : r.parts with
  | nil => exact Box.dim_empty r.dim
  | cons b rest => exact r.sameDim b (parts ▸ List.mem_cons_self)

theorem parts_ofBox_eq_filter (b : Box) : (ofBox b).parts = [b].filter (!·.isEmpty) :=
  parts_ofParts_eq_filter true (by simp)

theorem ofBox_inter (same : a.dim = b.dim) : (ofBox a).inter (ofBox b) = ofBox (a.inter b) := by
  have dims : (ofBox a).dim = (ofBox b).dim := same
  have void := Box.apart_iff_isEmpty_inter same
  refine Region.ext (Box.dim_inter same).symm ?_ rfl
  rw [parts_inter dims]
  cases voidA : a.isEmpty with
  | true =>
    rw [parts_ofBox_of_isEmpty voidA, parts_ofBox_of_isEmpty (void.mp (Box.apart_of_isEmpty voidA b))]
    rfl
  | false =>
    cases voidB : b.isEmpty with
    | true =>
      have apart : a.Apart b := (Box.apart_of_isEmpty voidB a).symm
      rw [parts_ofBox_of_isEmpty voidB, parts_ofBox_of_isEmpty (void.mp apart)]
      simp
    | false =>
      rw [parts_ofBox voidA, parts_ofBox voidB, parts_ofBox_eq_filter (a.inter b)]
      rfl

theorem meetBoxes?_eq (same : a.dim = b.dim) : meetBoxes? a b = some ((ofBox a).inter (ofBox b)) := by
  rw [ofBox_inter same, meetBoxes?, Box.isRange, Box.isRange, same]
  cases decide (b.dim < 2) <;> rfl

theorem inter_eq_each (same : r.dim = s.dim) : r.inter s =
    ofParts r.dim (r.parts.flatMap fun a => ((ofBox a).inter s).parts) (r.disjoint && s.disjoint) := by
  have each : ∀ a ∈ r.parts, ((ofBox a).inter s).parts =
      (s.parts.map fun b => a.inter b).filter (!·.isEmpty) := by
    intro a part
    have dims : (ofBox a).dim = s.dim := (r.sameDim a part).trans same
    rw [parts_inter dims, parts_ofBox (r.solid a part), List.flatMap_singleton]
  rw [List.flatMap_congr each, ← List.filter_flatMap, ofParts_filter]
  rfl

theorem inter_symm (same : r.dim = s.dim) (few : r.parts.length < 2) : r.inter s = s.inter r := by
  unfold inter
  rw [same, Bool.and_comm]
  apply congrArg fun boxes => ofParts s.dim boxes _
  match parts : r.parts with
  | [] => simp
  | [a] =>
    rw [List.flatMap_singleton, List.map_eq_flatMap]
    exact List.flatMap_congr fun b _ => congrArg (fun c => [c]) (Box.inter_comm a b)
  | _ :: _ :: _ =>
    rw [parts] at few
    cases Nat.not_lt.mpr (Nat.le_add_left 2 _) few

theorem length_parts_ofBox_lt (b : Box) : (ofBox b).parts.length < 2 := by
  rw [parts_ofBox_eq_filter]
  exact Nat.lt_succ_of_le (List.length_filter_le _ [b])

theorem meetPart?_eq (positive : 0 < s.dim) (same : a.dim = s.dim) :
    s.meetPart? a = some ((ofBox a).inter s) := by
  have each : ∀ b ∈ s.parts, meetBoxes? b a = some ((ofBox b).inter (ofBox a)) := fun b part =>
    meetBoxes?_eq ((s.sameDim b part).trans same.symm)
  have dims : ∀ b ∈ s.parts, ((ofBox b).inter (ofBox a)).dim = s.dim := s.sameDim
  unfold meetPart?
  split
  · have parted : s.inter (ofBox a) = ofParts s.dim _ (s.disjoint && true) := inter_eq_each same.symm
    rw [eachPart?_eq positive each dims, inter_symm same (length_parts_ofBox_lt a), parted,
      Bool.and_true]
  · rename_i single
    rw [meetBoxes?_eq (same.trans (dim_primitive s).symm),
      ofBox_primitive_of_isUnion positive single]

theorem meet?_eq (positive : 0 < r.dim) (same : r.dim = s.dim) : r.meet? s = some (r.inter s) := by
  have positive' : 0 < s.dim := same ▸ positive
  have left : r.eachPart? s.meetPart? (r.disjoint && s.disjoint) = some (r.inter s) := by
    rw [eachPart?_eq positive (fun a part => meetPart?_eq positive' ((r.sameDim a part).trans same))
      r.sameDim, inter_eq_each same]
  have right : s.eachPart? r.meetPart? (s.disjoint && r.disjoint) = some (s.inter r) := by
    rw [eachPart?_eq positive' (fun b part => meetPart?_eq positive
      ((s.sameDim b part).trans same.symm)) s.sameDim, inter_eq_each same.symm]
  have both (few : r.parts.length < 2) (fewS : s.parts.length < 2) :
      meetBoxes? r.primitive s.primitive = some (r.inter s) := by
    rw [meetBoxes?_eq ((dim_primitive r).trans (same.trans (dim_primitive s).symm)),
      ofBox_primitive positive few, ofBox_primitive positive' fewS]
  unfold meet?
  rw [shape_eq r, shape_eq s, ← same]
  by_cases line : r.dim < 2
  · by_cases few : r.parts.length < 2
    · by_cases fewS : s.parts.length < 2
      · simp only [few, fewS, line, ↓reduceIte]
        exact both few fewS
      · simp only [few, fewS, line, ↓reduceIte, right, inter_symm same few]
    · simp only [few, line, ↓reduceIte, left]
  · by_cases few : r.parts.length < 2
    · by_cases fewS : s.parts.length < 2
      · simp only [few, fewS, line, ↓reduceIte]
        exact both few fewS
      · simp only [few, fewS, line, ↓reduceIte, right, inter_symm same few]
    · by_cases fewS : s.parts.length < 2
      · simp only [few, fewS, line, ↓reduceIte, left]
      · simp only [few, fewS, line, ↓reduceIte, left]

theorem complement_eq_diff (r : Region) : r.complement = (ofBox (.whole r.dim)).diff r := by
  have dim := Box.dim_whole r.dim
  refine Region.ext ((dim_complement r).trans dim.symm) ?_ (disjoint_complement r)
  rw [parts_complement, parts_diff dim, parts_ofBox (Box.isEmpty_whole r.dim)]

theorem outside_eq (b : Box) : outside b = (ofBox b).complement := by
  rw [complement_eq_diff, dim_ofBox, diff_ofBox (Box.dim_whole b.dim), Box.dim_whole,
    ← Box.complement_eq_carve, outside]

theorem complement_inter_eq (one : s.dim = 1) (same : a.dim = s.dim) :
    s.complement.inter (ofBox a) = (ofBox a).diff s := by
  have line : (ofBox a).dim = 1 := same.trans one
  have dims : (ofBox a).dim = s.complement.dim := same.trans (dim_complement s).symm
  have swapped : ∀ c ∈ (ofBox a).parts, (s.complement.parts.map fun d => c.inter d) =
      s.complement.parts.map fun d => d.inter c := fun c _ =>
    List.map_congr_left fun d _ => Box.inter_comm c d
  rw [← inter_symm dims (length_parts_ofBox_lt a)]
  simp only [inter, diff, if_pos line, disjoint_complement, Bool.and_true]
  rw [List.flatMap_congr swapped]

theorem removePart?_eq (positive : 0 < a.dim) (same : a.dim = b.dim) :
    removePart? b a = some ((ofBox a).diff (ofBox b)) := by
  unfold removePart? Box.isRange
  rw [← same]
  by_cases line : a.dim < 2
  · have one : (ofBox b).dim = 1 := same.symm.trans (by omega)
    have dims : (outside b).dim = (ofBox a).dim := same.symm
    simp only [line, decide_true]
    rw [meet?_eq (positive.trans_eq same) dims, outside_eq, complement_inter_eq one same]
  · simp only [line, decide_false]
    rw [diff_ofBox same, assemble?_eq fun c => Box.dim_of_mem_carve same]

theorem diff_eq_each (same : r.dim = s.dim) : r.diff s =
    ofParts r.dim (r.parts.flatMap fun a => ((ofBox a).diff s).parts) r.disjoint := by
  have each : ∀ a ∈ r.parts, ((ofBox a).diff s).parts = Box.carveAll [a] s.parts := by
    intro a part
    have dims : (ofBox a).dim = s.dim := (r.sameDim a part).trans same
    rw [parts_diff dims, parts_ofBox (r.solid a part)]
  rw [List.flatMap_congr each, ← Box.carveAll_eq_flatMap, ← parts_diff same]
  exact (ofParts_congr (parts_ofParts _ (r.diff s).sameDim (r.diff s).solid)).symm

theorem diff_eq_of_each (positive : 0 < r.dim) (same : r.dim = s.dim) {f : Box → Option Region}
    (each : ∀ a, a.dim = r.dim → f a = some ((ofBox a).diff s)) :
    (if r.shape.isUnion then r.eachPart? f r.disjoint else f r.primitive) = some (r.diff s) := by
  split
  · rw [eachPart?_eq positive (fun a part => each a (r.sameDim a part)) r.sameDim, diff_eq_each same]
  · rename_i single
    rw [each r.primitive (dim_primitive r), ofBox_primitive_of_isUnion positive single]

theorem remove?_eq (positive : 0 < r.dim) (same : b.dim = r.dim) :
    r.remove? b = some (r.diff (ofBox b)) := by
  apply diff_eq_of_each positive same.symm
  intro a dim
  exact removePart?_eq (dim ▸ positive) (dim.trans same.symm)

theorem diff_ofBox_eq_remove (same : b.dim = r.dim) (solid : b.isEmpty = false) :
    r.diff (ofBox b) = r.remove b := by
  have dims : r.dim = (ofBox b).dim := same.symm
  have kept : (r.diff (ofBox b)).parts = (r.remove b).parts := by
    rw [parts_diff dims, parts_ofBox solid, parts_remove same solid, Box.carveAll_singleton]
  exact ofParts_congr kept

theorem foldlM_remove?_eq (positive : 0 < r.dim) {bs : List Box} (same : ∀ b ∈ bs, b.dim = r.dim)
    (solid : ∀ b ∈ bs, b.isEmpty = false) : bs.foldlM remove? r = some (r.removeAll bs) := by
  apply foldlM_eq_some (P := fun t => t.dim = r.dim) _ rfl
  intro t dim b member
  have sameB : b.dim = t.dim := (same b member).trans dim.symm
  rw [remove?_eq (dim ▸ positive) sameB, diff_ofBox_eq_remove sameB (solid b member)]
  exact ⟨rfl, dim⟩

theorem complement?_eq (positive : 0 < r.dim) : r.complement? = some r.complement := by
  unfold complement?
  split
  · rename_i union
    have many := isUnion_shape_iff.mp union
    have dim : (ofBox (.whole r.dim)).dim = r.dim := Box.dim_whole r.dim
    have dims : ∀ b ∈ r.parts, b.dim = (ofBox (.whole r.dim)).dim := fun b part =>
      (r.sameDim b part).trans dim.symm
    rw [whole, if_neg (Nat.ne_of_gt positive), foldlM_remove?_eq (positive.trans_eq dim.symm) dims
      r.solid]
    unfold complement
    split
    · rename_i b single
      rw [single] at many
      cases Nat.not_lt.mpr many (Nat.lt_succ_self 1)
    · rfl
  · rename_i single
    rw [outside_eq, ofBox_primitive_of_isUnion positive single]

theorem diffPart?_eq (positive : 0 < s.dim) (same : a.dim = s.dim) :
    s.diffPart? a = some ((ofBox a).diff s) := by
  have dims : (ofBox a).dim = s.dim := same
  have alone (few : s.parts.length < 2) :
      removePart? s.primitive a = some ((ofBox a).diff s) := by
    rw [removePart?_eq (same ▸ positive) (same.trans (dim_primitive s).symm),
      ofBox_primitive positive few]
  have clipped (line : s.dim < 2) : s.complement.meet? (ofBox a) = some ((ofBox a).diff s) := by
    have one : s.dim = 1 := by omega
    have back : s.complement.dim = (ofBox a).dim := (dim_complement s).trans dims.symm
    rw [meet?_eq (back ▸ dims ▸ positive) back, complement_inter_eq one same]
  have carved : s.parts.foldlM remove? (ofBox a) = some ((ofBox a).diff s) := by
    rw [foldlM_remove?_eq (dims ▸ positive) (dims ▸ s.sameDim) s.solid]
    apply congrArg some
    refine Region.ext (dim_removeAll _ _) ?_ (disjoint_removeAll rfl _)
    rw [parts_removeAll (dims ▸ s.sameDim) s.solid, parts_diff dims]
  unfold diffPart? Box.isRange
  rw [shape_eq s, same]
  by_cases few : s.parts.length < 2
  · by_cases line : s.dim < 2
    · simp only [few, line, ↓reduceIte, alone]
    · simp only [few, line, ↓reduceIte, alone]
  · by_cases line : s.dim < 2
    · simp only [few, line, ↓reduceIte, decide_true, complement?_eq positive, Option.bind_eq_bind,
        Option.bind_some, clipped]
    · simp only [few, line, ↓reduceIte, decide_false, carved]

theorem diff?_eq (positive : 0 < r.dim) (same : r.dim = s.dim) : r.diff? s = some (r.diff s) := by
  apply diff_eq_of_each positive same
  intro a dim
  exact diffPart?_eq (same ▸ positive) (dim.trans same)

theorem isWithin?_eq (positive : 0 < r.dim) (same : r.dim = s.dim) :
    r.isWithin? s = some (r.isWithin s) := by
  have positive' : 0 < s.dim := same ▸ positive
  have dims : s.complement.dim = r.dim := (dim_complement s).trans same.symm
  rw [isWithin?, complement?_eq positive', Option.bind_eq_bind, Option.bind_some,
    meet?_eq (dims ▸ positive) dims]
  rfl

theorem separate?_eq (positive : 0 < dim) {rs : List Region} (same : ∀ r ∈ rs, r.dim = dim) :
    separate? rs = some (separate rs) := by
  apply foldlM_eq_some (P := fun taken => ∀ t ∈ taken, t.dim = dim)
  · intro taken dims r listed
    have dimR := same r listed
    have cut : taken.foldlM diff? r = some (taken.foldl diff r) := by
      apply foldlM_eq_some (P := fun t => t.dim = dim) _ dimR
      intro t dimT s earlier
      exact ⟨diff?_eq (dimT ▸ positive) (dimT.trans (dims s earlier).symm), dimT⟩
    rw [cut]
    refine ⟨rfl, ?_⟩
    intro t member
    rcases List.mem_append.mp member with earlier | last
    · exact dims t earlier
    · rw [List.mem_singleton.mp last, dim_foldl_diff, dimR]
  · exact fun t none => (List.not_mem_nil none).elim

theorem separated?_eq (positive : 0 < r.dim) : r.separated? = some r.separated := by
  have same : ∀ s ∈ r.parts.map ofBox, s.dim = r.dim := by simpa using r.sameDim
  unfold separated? separated
  split
  · rfl
  · rw [separate?_eq positive same, Option.bind_eq_bind, Option.bind_some,
      flatten?_eq positive (dim_of_mem_separate same)]

theorem isWithin_of_isEmpty_diff (same : r.dim = s.dim) (void : (r.diff s).isEmpty = true) :
    r.isWithin s = true := by
  apply (isWithin_iff same).mpr
  intro p inside
  apply Classical.byContradiction
  intro away
  exact (isEmpty_iff_forall_not_mem _).mp void p ((mem_diff same).mpr ⟨inside, away⟩)

theorem makeRoom?_eq (positive : 0 < a.dim) (same : a.dim = b.dim) (solid : a.isEmpty = false) :
    makeRoom? b a = some (a.carve b) := by
  have dims : (ofBox a).dim = (ofBox b).dim := same
  have pieces : ((ofBox a).diff (ofBox b)).parts = a.carve b := by
    rw [diff_ofBox same, parts_carved same solid]
  rw [makeRoom?, isWithin?_eq positive dims, diff?_eq positive dims]
  cases within : (ofBox a).isWithin (ofBox b) with
  | true =>
    have inside := (isWithin_iff dims).mp within
    simp only [mem_ofBox] at inside
    rw [Box.carve_eq_nil same solid inside]
    rfl
  | false =>
    have left : ¬ ((ofBox a).diff (ofBox b)).parts.isEmpty = true := fun void =>
      Bool.false_ne_true (within.symm.trans (isWithin_of_isEmpty_diff dims void))
    change some ((ofBox a).diff (ofBox b)).components = _
    rw [components, if_neg left, pieces]

theorem mapM_makeRoom?_eq {bs : List Box} (positive : 0 < b.dim) (same : ∀ c ∈ bs, c.dim = b.dim)
    (solid : ∀ c ∈ bs, c.isEmpty = false) :
    bs.mapM (makeRoom? b) = some (bs.map (·.carve b)) := by
  apply mapM_eq_some
  intro c member
  have dim := same c member
  exact makeRoom?_eq (dim ▸ positive) dim (solid c member)

/- The box around the two is there in any case, so the fused parts are never replaced by an empty one. -/
theorem length_components_merge {rest : List Box} (dims : ∀ c ∈ a.merge b rest, c.dim = dim)
    (solid : ∀ c ∈ a.merge b rest, c.isEmpty = false) :
    (ofParts dim (a.merge b rest) true).components.length = (a.merge b rest).length := by
  have some : 1 ≤ (a.merge b rest).length := by simp [Box.merge]
  rw [length_components, parts_ofParts true dims solid, Nat.max_eq_right some]

theorem fusePair?_eq (positive : 0 < r.dim) {rest : List Box}
    (pick : (a, b, rest) ∈ pairPicks r.parts) : r.fusePair? a b rest =
      some (if a.touches b && (a.hull b).isCovered r.parts &&
          decide ((a.merge b rest).length < r.parts.length)
        then some (ofParts r.dim (a.merge b rest) true) else none) := by
  have perm := perm_of_mem_pairPicks pick
  have dims : ∀ c ∈ a :: b :: rest, c.dim = r.dim := fun c member =>
    r.sameDim c (perm.mem_iff.mp member)
  have solid : ∀ c ∈ a :: b :: rest, c.isEmpty = false := fun c member =>
    r.solid c (perm.mem_iff.mp member)
  have around : (a.hull b).dim = r.dim := by
    rw [Box.dim_hull ((dims a (by simp)).trans (dims b (by simp)).symm), dims a (by simp)]
  have left : rest.mapM (makeRoom? (a.hull b)) = some (rest.map (·.carve (a.hull b))) :=
    mapM_makeRoom?_eq (positive.trans_eq around.symm)
      (fun c member => (dims c (by simp [member])).trans around.symm)
      fun c member => solid c (by simp [member])
  rw [fusePair?, isWithin?_eq (positive.trans_eq around.symm) around, isWithin_ofBox around, left]
  cases touch : a.touches b with
  | false => rfl
  | true =>
    cases covered : (a.hull b).isCovered r.parts with
    | false => rfl
    | true =>
      have merged : (rest.map (·.carve (a.hull b))).flatten ++ [a.hull b] = a.merge b rest := by
        rw [Box.merge, Box.carveAll_singleton, List.flatMap_def]
      have dimsM := (Box.recut_merge r.sameDim perm covered).dims
      have count := length_components_merge dimsM (Box.solid_merge dims solid)
      simp only [Option.bind_eq_bind, Option.bind_some, ↓reduceIte, merged,
        assemble?_eq dimsM, count, Bool.and_self, Bool.true_and, decide_eq_true_eq]
      rfl

theorem fuseOnce?_eq (positive : 0 < r.dim) : r.fuseOnce? =
    some ((Box.fuse? r.parts).map fun parts => ofParts r.dim parts true) := by
  rw [fuseOnce?, findSomeM?_eq_some fun pick member => fusePair?_eq positive member, Box.fuse?,
    List.map_findSome?]
  apply congrArg fun found => some (List.findSome? found (pairPicks r.parts))
  funext pick
  simp only [Function.comp_apply, apply_ite (Option.map _), Option.map_some, Option.map_none]

/-- All boxes that the algebra of `r` and `s` brings together have one number of axes: parts that
    are met, parts that are clipped to a complement, and pieces that a part is carved out of. -/
structure Matched (r s : Region) : Prop where
  shapes : r.shape.IsLinear ↔ s.shape.IsLinear
  met : ∀ a ∈ r.parts, ∀ b ∈ s.parts, a.dim = b.dim
  clipped : ∀ a ∈ r.parts, ∀ c ∈ s.complement.parts, c.dim = a.dim
  carved : ∀ a ∈ r.parts, ∀ taken b later, s.parts = taken ++ b :: later →
    ∀ c ∈ ((ofBox a).removeAll taken).parts, c.dim = b.dim

/-- Taken apart by their shapes, the regions have the result of every operation, and of those that it
    calls in turn. -/
structure Dispatched (r s : Region) : Prop where
  meet : r.meet? s = some (r.inter s)
  complement : r.complement? = some r.complement
  diff : r.diff? s = some (r.diff s)
  isWithin : r.isWithin? s = some (r.isWithin s)
  separated : r.separated? = some r.separated
  fuse : r.fuseOnce? = some ((Box.fuse? r.parts).map fun parts => ofParts r.dim parts true)

theorem matched {r s : Region} (same : r.dim = s.dim) : Matched r s where
  shapes := by rw [isLinear_shape_iff, isLinear_shape_iff, same]
  met a left b right := dim_eq_of_parts same left right
  clipped a part c := dim_of_mem_complement same part
  carved a part taken b later split c piece := by
    have left : c.dim = a.dim := by
      rw [((ofBox a).removeAll taken).sameDim c piece, dim_removeAll, dim_ofBox]
    exact left.trans (dim_eq_of_parts same part (by simp [split]))

theorem dispatched (positive : 0 < r.dim) (same : r.dim = s.dim) : Dispatched r s where
  meet := meet?_eq positive same
  complement := complement?_eq positive
  diff := diff?_eq positive same
  isWithin := isWithin?_eq positive same
  separated := separated?_eq positive
  fuse := fuseOnce?_eq positive

/-- Every operation of the algebra is exact, for regions of any shape with any promise. Lists may
    come in any order. Taken apart by their shapes, regions of one dimension come to a result in
    every case, and to this one. -/
theorem algebra_exact (r s : Region) : (∀ p, r.Mem p → p.length = r.dim) ∧
    (∀ c : Cell, r.contains c = true ↔ r.Mem (c.map Coord.val)) ∧
    (r.complement.dim = r.dim ∧ ∀ p, r.complement.Mem p ↔ p.length = r.dim ∧ ¬ r.Mem p) ∧
    (Answers r [s] (r.intersection s) fun p => r.Mem p ∧ s.Mem p) ∧
    (Answers r [s] (r.difference s) fun p => r.Mem p ∧ ¬ s.Mem p) ∧
    (Answers r [s] (r.complementIn s) fun p => s.Mem p ∧ ¬ r.Mem p) ∧
    (Answers r [s] (r.union s) fun p => r.Mem p ∨ s.Mem p) ∧
    (∀ rest, Answers r rest (gather (r :: rest) false) fun p => ∃ t ∈ r :: rest, t.Mem p) ∧
    (∀ others order, order.Perm others →
      Answers r order (r.differenceAll order) fun p => r.Mem p ∧ ∀ t ∈ others, ¬ t.Mem p) ∧
    (∀ others first order, (first :: order).Perm (r :: others) →
      Answers first order (first.intersectionAll order) fun p => ∀ t ∈ r :: others, t.Mem p) ∧
    (r.dim = s.dim → Matched r s ∧ (0 < r.dim → Dispatched r s)) := by
  refine ⟨fun p => length_of_mem, fun c => contains_iff, ⟨dim_complement r, fun p => mem_complement⟩,
    intersection_answers r s, difference_answers r s, complementIn_answers r s, union_answers r s,
    fun rest => gather_answers r rest false, ?_, ?_,
    fun same => ⟨matched same, fun positive => dispatched positive same⟩⟩
  · intro others order perm
    have answers := differenceAll_answers r order
    simp only [perm.mem_iff] at answers
    exact answers
  · intro others first order perm
    have answers := intersectionAll_answers first order
    simp only [perm.mem_iff] at answers
    exact answers

theorem algebra_exact_corner :
    (∃ t, Sample.corner.differenceAll [Sample.stairs, Sample.crossed] = .ok t ∧
      t.contains [Sample.coord 3, Sample.coord 0] = true ∧
      ∀ p, t.Mem p ↔ Sample.corner.Mem p ∧ ∀ s ∈ [Sample.crossed, Sample.stairs], ¬ s.Mem p) ∧
    (∃ t, Sample.stairs.intersectionAll [Sample.crossed, Sample.corner] = .ok t ∧
      t.contains [Sample.coord 2, Sample.coord 1] = true ∧
      ∀ p, t.Mem p ↔ ∀ s ∈ [Sample.corner, Sample.stairs, Sample.crossed], s.Mem p) ∧
    Sample.corner.differenceAll [Sample.stairs, ofBox Sample.pillar, Sample.crossed] =
      .error (.dimensionMismatch 2 3) ∧
    Matched Sample.corner Sample.stairs ∧ Dispatched Sample.corner Sample.stairs ∧
    Sample.islands.meet? (ofBox Sample.pillar) = none := by
  have outside : (Sample.corner.differenceAll [Sample.stairs, Sample.crossed]).map
      (·.contains [Sample.coord 3, Sample.coord 0]) = .ok true := by decide +kernel
  have shared : (Sample.stairs.intersectionAll [Sample.crossed, Sample.corner]).map
      (·.contains [Sample.coord 2, Sample.coord 1]) = .ok true := by decide +kernel
  have swap : [Sample.stairs, Sample.crossed].Perm [Sample.crossed, Sample.stairs] := .swap ..
  have rotate : [Sample.stairs, Sample.crossed, Sample.corner].Perm
      [Sample.corner, Sample.stairs, Sample.crossed] :=
    .trans (.cons _ (.swap ..)) (.swap ..)
  obtain ⟨_, _, _, _, _, _, _, _, without, common, dispatch⟩ :=
    algebra_exact Sample.corner Sample.stairs
  obtain ⟨matched, dispatched⟩ := dispatch rfl
  obtain ⟨t, run, _, points⟩ := (without _ _ swap).of_dims (by decide +kernel)
  obtain ⟨u, run', _, points'⟩ := (common _ _ _ rotate).of_dims (by decide +kernel)
  rw [run] at outside
  rw [run'] at shared
  have differ := (without _ _ (.refl [Sample.stairs, ofBox Sample.pillar, Sample.crossed])).of_differ
    (s := ofBox Sample.pillar) (by decide +kernel)
  exact ⟨⟨t, run, Except.ok.inj outside, points⟩, ⟨u, run', Except.ok.inj shared, points'⟩, differ,
    matched, dispatched (by decide), by decide +kernel⟩

end Region

end GridRegions
