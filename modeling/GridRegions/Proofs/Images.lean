import GridRegions.Proofs.Comparison
import GridRegions.Halo.Grid

/-!
A periodic grid and its images. The images lie side by side and fill the horizon, and a cell of an
image is the cell of the grid that many periods away.
-/
namespace GridRegions

namespace Interval

/-- An axis of a grid has `n` numbers, and where it repeats itself the margin reaches no further
    than one period. -/
structure Fits (g : Interval) (m : Margin) (wraps : Bool) (n : Coord) : Prop where
  ends : ∃ lo hi : Coord, g.start = .finite lo ∧ g.stop = .finite hi ∧ lo.val < hi.val ∧
    n.val = hi.val - lo.val
  near : wraps = true → m.before.val ≤ n.val ∧ m.after.val ≤ n.val

/-- The number lies within the margin around `d`, and in `g` unless that repeats itself. -/
def Reaches (d g : Interval) (m : Margin) (wraps : Bool) (x : Int) : Prop :=
  d.Around m x ∧ (wraps = false → g.Mem x)

/-- The number of `g` that is a whole number of periods away from `x`. -/
def wrap (g : Interval) (wraps : Bool) (x : Int) : Int :=
  match g.start with
  | .finite lo => if wraps then lo.val + (x - lo.val) % g.size else x
  | _ => x

theorem Fits.period {g : Interval} {m : Margin} {wraps : Bool} {n : Coord}
    (fits : g.Fits m wraps n) : 0 < n.val := by
  obtain ⟨lo, hi, _, _, ordered, extent⟩ := fits.ends
  omega

theorem Fits.size {g : Interval} {m : Margin} {wraps : Bool} {n : Coord}
    (fits : g.Fits m wraps n) : (g.size : Int) = n.val := by
  obtain ⟨lo, hi, start, stop, ordered, extent⟩ := fits.ends
  rw [Interval.size, start, stop, Endpoint.gap_finite]
  omega

theorem around_symmetric {g : Interval} {lo hi width : Coord} (start : g.start = .finite lo)
    (stop : g.stop = .finite hi) {x : Int} :
    g.Around (.symmetric width) x ↔ lo.val ≤ x + width.val ∧ x - width.val < hi.val := by
  rw [Around, start, stop]
  exact and_congr_right fun _ => Int.not_le

theorem around_period_iff {g : Interval} {m : Margin} {wraps : Bool} {n : Coord}
    (fits : g.Fits m wraps n) {x : Int} :
    g.Around (.symmetric (if wraps then n else .zero)) x ↔
      ∃ k ∈ (if wraps then [-1, 0, 1] else [0] : List Int), ∃ q, g.Mem q ∧ x = q + k * n.val := by
  obtain ⟨lo, hi, start, stop, ordered, extent⟩ := fits.ends
  simp only [around_symmetric start stop, mem_of_ends start stop]
  cases wraps with
  | false =>
    simp only [Bool.false_eq_true, ↓reduceIte, List.mem_singleton, exists_eq_left, Int.zero_mul,
      Int.add_zero, Coord.zero, Int.sub_zero]
    constructor
    · intro inside
      exact ⟨x, inside, rfl⟩
    · intro image
      obtain ⟨q, inside, eq⟩ := image
      omega
  | true =>
    simp only [↓reduceIte]
    constructor
    · intro near
      by_cases before : x < lo.val
      · exact ⟨-1, by simp, x + n.val, by omega, by omega⟩
      · by_cases inside : x < hi.val
        · exact ⟨0, by simp, x, by omega, by omega⟩
        · exact ⟨1, by simp, x - n.val, by omega, by omega⟩
    · intro image
      obtain ⟨k, period, q, inside, eq⟩ := image
      simp only [List.mem_cons, List.not_mem_nil, or_false] at period
      rcases period with rfl | rfl | rfl
      · omega
      · omega
      · omega

theorem wrap_eq_iff {g : Interval} {m : Margin} {wraps : Bool} {n : Coord}
    (fits : g.Fits m wraps n) {x q : Int} (inside : g.Mem q) :
    g.wrap wraps x = q ↔ ∃ k : Int, (wraps = false → k = 0) ∧ x = q + k * n.val := by
  obtain ⟨lo, hi, start, stop, ordered, extent⟩ := fits.ends
  have within := (mem_of_ends start stop).mp inside
  unfold wrap
  rw [start]
  cases wraps with
  | false => simp
  | true =>
    simp only [↓reduceIte, fits.size, reduceCtorEq, false_imp_iff, true_and]
    constructor
    · intro found
      have periods := Int.emod_add_mul_ediv (x - lo.val) n.val
      rw [Int.mul_comm] at periods
      exact ⟨(x - lo.val) / n.val, by omega⟩
    · rintro ⟨k, eq⟩
      have way : x - lo.val = q - lo.val + k * n.val := by omega
      have rest : (q - lo.val) % n.val = q - lo.val := Int.emod_eq_of_lt (by omega) (by omega)
      rw [way, Int.add_mul_emod_self_right, rest]
      omega

theorem wrap_image {g : Interval} {m : Margin} {wraps : Bool} {n : Coord} (fits : g.Fits m wraps n)
    {k q : Int} (period : k ∈ (if wraps then [-1, 0, 1] else [0] : List Int)) (inside : g.Mem q) :
    g.wrap wraps (q + k * n.val) = q := by
  apply (wrap_eq_iff fits inside).mpr
  refine ⟨k, fun flag => ?_, rfl⟩
  simpa [flag] using period

theorem around_and_around_iff {d g : Interval} {m : Margin} {wraps : Bool} {n : Coord}
    (fits : g.Fits m wraps n) (solid : d.isEmpty = false) (inside : d.inter g = d) {x : Int} :
    d.Around m x ∧ g.Around (.symmetric (if wraps then n else .zero)) x ↔
      d.Reaches g m wraps x := by
  obtain ⟨lo, hi, start, stop, ordered, extent⟩ := fits.ends
  obtain ⟨above, below⟩ := (forall_mem_iff_ends solid).mp fun _ => mem_of_inter_eq inside
  rw [Reaches, around_symmetric start stop, mem_of_ends start stop]
  apply and_congr_right
  intro near
  have low : lo.val ≤ x + m.before.val := by
    have reached := near.1.of_le above
    rw [start] at reached
    exact reached
  have high : x - m.after.val < hi.val := by
    have short : ¬ g.stop.AtMost (x - m.after.val) := fun past => near.2 (past.of_le below)
    rw [stop] at short
    exact Int.not_le.mp short
  cases wraps with
  | false => simp [Coord.zero]
  | true =>
    have widths := fits.near rfl
    simp only [↓reduceIte, reduceCtorEq, false_imp_iff, iff_true]
    omega

end Interval

namespace Axes

/-- Every axis fits its margin, its flag and its period. -/
inductive Fits : List Interval → List Margin → List Bool → List Coord → Prop where
  | nil : Fits [] [] [] []
  | cons {g : Interval} {gs : List Interval} {m : Margin} {ms : List Margin} {wraps : Bool}
      {ws : List Bool} {n : Coord} {ns : List Coord} (first : g.Fits m wraps n)
      (rest : Fits gs ms ws ns) : Fits (g :: gs) (m :: ms) (wraps :: ws) (n :: ns)

/-- The point lies within the margins around `ds`, and in `gs` on the axes that do not repeat
    themselves. -/
def Reaches : List Interval → List Interval → List Margin → List Bool → List Int → Prop
  | [], [], [], [], [] => True
  | d :: ds, g :: gs, m :: ms, wraps :: ws, x :: xs =>
    d.Reaches g m wraps x ∧ Reaches ds gs ms ws xs
  | _, _, _, _, _ => False

/-- The point of `gs` that is a whole number of periods away on each periodic axis. -/
def wrap : List Interval → List Bool → List Int → List Int
  | g :: gs, wraps :: ws, x :: xs => g.wrap wraps x :: wrap gs ws xs
  | _, _, _ => []

def offsets (image : List Int) (ns : List Coord) : List Int :=
  List.zipWith (fun k (n : Coord) => k * n.val) image ns

def widths (ws : List Bool) (ns : List Coord) : List Margin :=
  List.zipWith (fun wraps n => .symmetric (if wraps then n else .zero)) ws ns

theorem mem_imagesOf_cons {wraps : Bool} {ws : List Bool} {image : List Int} :
    image ∈ Grid.imagesOf (wraps :: ws) ↔
      ∃ k ∈ (if wraps then [-1, 0, 1] else [0] : List Int), ∃ rest ∈ Grid.imagesOf ws,
        image = k :: rest := by
  simp only [Grid.imagesOf, List.mem_flatMap, List.mem_map, eq_comm]

section

variable {gs : List Interval} {ms : List Margin} {ws : List Bool} {ns : List Coord}

theorem mem_horizon (fits : Fits gs ms ws ns) {p : List Int} : Around gs (widths ws ns) p ↔
    ∃ image ∈ Grid.imagesOf ws, ∃ q, Mem gs q ∧ p = List.zipWith (· + ·) q (offsets image ns) := by
  induction fits generalizing p with
  | nil =>
    cases p with
    | nil => exact ⟨fun _ => ⟨[], by simp [Grid.imagesOf], [], trivial, rfl⟩, fun _ => trivial⟩
    | cons x xs => simp [Around, widths, Grid.imagesOf, offsets]
  | cons first _ ih =>
    have head := fun x => Interval.around_period_iff first (x := x)
    constructor
    · intro near
      cases p with
      | nil => exact near.elim
      | cons x xs =>
        obtain ⟨k, period, q, inside, rfl⟩ := (head x).mp near.1
        obtain ⟨image, listed, qs, within, rfl⟩ := ih.mp near.2
        exact ⟨k :: image, mem_imagesOf_cons.mpr ⟨k, period, image, listed, rfl⟩, q :: qs,
          ⟨inside, within⟩, rfl⟩
    · intro seen
      obtain ⟨images, listed, q, within, eq⟩ := seen
      obtain ⟨k, period, image, later, rfl⟩ := mem_imagesOf_cons.mp listed
      cases q with
      | nil => exact within.elim
      | cons y ys =>
        rw [eq]
        constructor
        · exact (head _).mpr ⟨k, period, y, within.1, rfl⟩
        · exact ih.mpr ⟨image, later, ys, within.2, rfl⟩

theorem wrap_image (fits : Fits gs ms ws ns) {image q : List Int}
    (listed : image ∈ Grid.imagesOf ws) (inside : Mem gs q) :
    wrap gs ws (List.zipWith (· + ·) q (offsets image ns)) = q := by
  induction fits generalizing image q with
  | nil =>
    cases q with
    | nil => rfl
    | cons x xs => exact inside.elim
  | cons first _ ih =>
    obtain ⟨k, period, rest, later, rfl⟩ := mem_imagesOf_cons.mp listed
    cases q with
    | nil => exact inside.elim
    | cons y ys =>
      simp only [offsets, List.zipWith_cons_cons, wrap]
      rw [Interval.wrap_image first period inside.1]
      exact congrArg (y :: ·) (ih later inside.2)

theorem length_of_mem_imagesOf {image : List Int} (listed : image ∈ Grid.imagesOf ws) :
    image.length = ws.length := by
  induction ws generalizing image with
  | nil => simp_all [Grid.imagesOf]
  | cons wraps ws ih =>
    obtain ⟨k, _, rest, later, rfl⟩ := mem_imagesOf_cons.mp listed
    exact congrArg (· + 1) (ih later)

theorem Fits.lengths (fits : Fits gs ms ws ns) :
    ws.length = gs.length ∧ ns.length = gs.length := by
  induction fits with
  | nil => exact ⟨rfl, rfl⟩
  | cons _ _ ih => exact ⟨congrArg (· + 1) ih.1, congrArg (· + 1) ih.2⟩

theorem offsets_inj (fits : Fits gs ms ws ns) {image other : List Int}
    (left : image.length = ws.length) (right : other.length = ws.length)
    (same : offsets image ns = offsets other ns) : image = other := by
  induction fits generalizing image other with
  | nil => rw [List.length_eq_zero_iff.mp left, List.length_eq_zero_iff.mp right]
  | cons first _ ih =>
    cases image with
    | nil => simp at left
    | cons k image =>
      cases other with
      | nil => simp at right
      | cons l other =>
        obtain ⟨heads, tails⟩ := List.cons.inj same
        rw [Int.eq_of_mul_eq_mul_right (Int.ne_of_gt first.period) heads,
          ih (Nat.succ.inj left) (Nat.succ.inj right) tails]

theorem imagesOf_nodup (ws : List Bool) : (Grid.imagesOf ws).Nodup := by
  induction ws with
  | nil => exact List.pairwise_singleton _ _
  | cons wraps ws ih =>
    apply List.pairwise_flatMap.mpr
    constructor
    · intro k _
      apply List.pairwise_map.mpr
      exact ih.imp fun differ eq => differ (List.cons.inj eq).2
    · have distinct : (if wraps then [-1, 0, 1] else [0] : List Int).Nodup := by
        cases wraps <;> decide
      refine distinct.imp fun {k l} differ first left second right eq => ?_
      obtain ⟨a, _, rfl⟩ := List.mem_map.mp left
      obtain ⟨b, _, rfl⟩ := List.mem_map.mp right
      exact differ (List.cons.inj eq).1

theorem around_and_around_iff (fits : Fits gs ms ws ns) {ds : List Interval}
    (solid : ds.any Interval.isEmpty = false) (inside : List.zipWith Interval.inter ds gs = ds)
    (same : ds.length = gs.length) {p : List Int} :
    Around ds ms p ∧ Around gs (widths ws ns) p ↔ Reaches ds gs ms ws p := by
  induction fits generalizing ds p with
  | nil =>
    rw [List.length_eq_zero_iff.mp same]
    cases p <;> simp [Around, Reaches, widths]
  | cons first _ ih =>
    cases ds with
    | nil => simp at same
    | cons d ds =>
      rw [List.any_cons, Bool.or_eq_false_iff] at solid
      obtain ⟨heads, tails⟩ := List.cons.inj inside
      cases p with
      | nil => exact ⟨And.left, fun reach => reach.elim⟩
      | cons x xs =>
        have head := Interval.around_and_around_iff first solid.1 heads (x := x)
        have tail := ih solid.2 tails (Nat.succ.inj same) (p := xs)
        rw [Reaches, ← head, ← tail]
        constructor
        · intro both
          obtain ⟨near, clip⟩ := both
          exact ⟨⟨near.1, clip.1⟩, near.2, clip.2⟩
        · intro reach
          obtain ⟨here, later⟩ := reach
          exact ⟨⟨here.1, later.1⟩, here.2, later.2⟩

end

end Axes

namespace Margin

theorem le_widest (m : Margin) : m.before.val ≤ m.widest ∧ m.after.val ≤ m.widest := by
  unfold widest
  split <;> omega

end Margin

namespace Grid

theorem checkMargins_eq_ok {axis : Nat} {m : Margin} {ms : List Margin} {wraps : Bool}
    {ws : List Bool} {n : Coord} {ns : List Coord}
    (run : checkMargins axis (m :: ms) (wraps :: ws) (n :: ns) = .ok ()) :
    (wraps = true → m.widest ≤ n.val) ∧ checkMargins (axis + 1) ms ws ns = .ok () := by
  rw [checkMargins] at run
  split at run
  · cases run
  · rename_i near
    exact ⟨fun flag => Int.not_lt.mp fun wide => near ⟨flag, wide⟩, run⟩

theorem fits_of_checks {gs : List Interval} {ms : List Margin} {ws : List Bool} {ns : List Coord}
    {axis : Nat} (sameM : gs.length = ms.length) (sameW : gs.length = ws.length)
    (solid : gs.any Interval.isEmpty = false) (bounded : gs.all Interval.isBounded = true)
    (extents : List.Forall₂
      (fun (n : Nat) c => Fault.orOverflow (Coord.ofInt? (Int.ofNat n)) = .ok c)
      (gs.map Interval.size) ns)
    (margins : checkMargins axis ms ws ns = .ok ()) : Axes.Fits gs ms ws ns := by
  induction gs generalizing ms ws ns axis with
  | nil =>
    cases extents
    rw [List.length_eq_zero_iff.mp sameM.symm, List.length_eq_zero_iff.mp sameW.symm]
    exact .nil
  | cons g gs ih =>
    match ms, ws, extents with
    | m :: ms, wraps :: ws, .cons fits rest =>
      rename_i n ns
      obtain ⟨near, margins⟩ := checkMargins_eq_ok margins
      rw [List.any_cons, Bool.or_eq_false_iff] at solid
      rw [List.all_cons, Bool.and_eq_true] at bounded
      refine .cons ?_ (ih (Nat.succ.inj sameM) (Nat.succ.inj sameW) solid.2 bounded.2 rest margins)
      obtain ⟨lo, hi, start, stop⟩ := Interval.ends_of_isBounded bounded.1
      have ordered := (Interval.isEmpty_eq_false_iff g).mp solid.1
      rw [start, stop, Endpoint.lt_iff_rank] at ordered
      simp only [Endpoint.rank] at ordered
      have extent : (g.size : Int) = n.val := Coord.ofInt?_eq_some_iff.mp (orOverflow_eq_ok.mp fits)
      rw [Interval.size, start, stop, Endpoint.gap_finite] at extent
      constructor
      · exact ⟨lo, hi, start, stop, ordered, by omega⟩
      · intro flag
        have widths := m.le_widest
        have reach := near flag
        omega

def Fits (g : Grid) : Prop := Axes.Fits g.box.axes g.margins g.periodic g.extents

theorem ofBox_eq_ok {box : Box} {margins : List Margin} {periodic : List Bool} {g : Grid}
    (run : ofBox box margins periodic = .ok g) : g.box = box ∧ g.margins = margins ∧
      g.periodic = periodic ∧ box.isBounded = true ∧ g.Fits := by
  obtain ⟨_, sameM, run⟩ := bind_eq_ok.mp run
  obtain ⟨_, sameW, run⟩ := bind_eq_ok.mp run
  obtain ⟨solid, run⟩ := guard_eq_ok.mp run
  obtain ⟨bounded, run⟩ := guard_eq_ok.mp run
  obtain ⟨extents, sizes, run⟩ := bind_eq_ok.mp run
  obtain ⟨_, near, run⟩ := bind_eq_ok.mp run
  cases run
  have full : box.isEmpty = false := Bool.not_eq_true _ ▸ solid
  have ends : box.isBounded = true := by simpa using bounded
  exact ⟨rfl, rfl, rfl, ends, fits_of_checks (checkDim_eq_ok.mp sameM) (checkDim_eq_ok.mp sameW)
    full ends (mapM_eq_ok.mp sizes) near⟩

/-- The point lies in the image. -/
def Sees (g : Grid) (image p : List Int) : Prop :=
  ∃ q, g.box.Mem q ∧ p = List.zipWith (· + ·) q (g.offsets image)

theorem wrap_of_sees {g : Grid} (fits : g.Fits) {image q : List Int} (listed : image ∈ g.images)
    (inside : g.box.Mem q) :
    Axes.wrap g.box.axes g.periodic (List.zipWith (· + ·) q (g.offsets image)) = q :=
  Axes.wrap_image fits listed inside

theorem length_offsets {g : Grid} (fits : g.Fits) {image : List Int} (listed : image ∈ g.images) :
    (g.offsets image).length = g.box.dim := by
  have flags := Axes.length_of_mem_imagesOf listed
  obtain ⟨periods, extents⟩ := Axes.Fits.lengths fits
  rw [offsets, List.length_zipWith, flags, periods, extents, Nat.min_self]
  rfl

/- A point of two images is seen from one cell of the grid, so both lie at the same offset. -/
theorem sees_unique {g : Grid} (fits : g.Fits) {image other p : List Int} (left : image ∈ g.images)
    (right : other ∈ g.images) (here : g.Sees image p) (there : g.Sees other p) :
    image = other := by
  obtain ⟨q, inside, rfl⟩ := here
  obtain ⟨r, within, eq⟩ := there
  have cells : q = r := by
    rw [← wrap_of_sees fits left inside, eq, wrap_of_sees fits right within]
  rw [← cells, List.zipWith_comm_of_comm Int.add_comm, List.zipWith_comm_of_comm Int.add_comm
    (l := q)] at eq
  have cell : q.length = g.box.dim := Box.length_of_mem inside
  have same := Box.zipWith_add_inj ((length_offsets fits left).trans cell.symm)
    ((length_offsets fits right).trans cell.symm) eq
  exact Axes.offsets_inj fits (Axes.length_of_mem_imagesOf left)
    (Axes.length_of_mem_imagesOf right) same

theorem mem_horizon {g : Grid} (fits : g.Fits) {b : Box} (run : g.horizon = .ok b) {p : List Int} :
    b.Mem p ↔ ∃ image ∈ g.images, g.Sees image p := by
  rw [Box.mem_grow run]
  exact Axes.mem_horizon fits

end Grid

end GridRegions
