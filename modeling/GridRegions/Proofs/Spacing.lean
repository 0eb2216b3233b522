import GridRegions.Proofs.HaloCover
import GridRegions.Proofs.Reciprocity

/-!
A grid that is long enough along its periodic axes: if a subdomain with its margins is no longer
than one period, no two cells around it are images of the same cell of the grid, and none is an
image of a cell of the subdomain.
-/
namespace GridRegions

namespace Interval

/-- On an axis that repeats itself, `d` with its margin is no longer than one period. -/
def Spaced (d g : Interval) (m : Margin) (wraps : Bool) : Prop :=
  wraps = true → d.size + m.before.val + m.after.val ≤ g.size

variable {d g : Interval} {m : Margin} {wraps : Bool} {n : Coord}

/- Two numbers within the margin are less than a period apart, so wrapping tells them apart. -/
theorem wrap_inj (fits : g.Fits m wraps n) (solid : d.isEmpty = false) (bounded : d.isBounded = true)
    (spaced : d.Spaced g m wraps) {x y : Int} (left : d.Reaches g m wraps x)
    (right : d.Reaches g m wraps y) (same : g.wrap wraps x = g.wrap wraps y) : x = y := by
  obtain ⟨lo, hi, start, stop, _, _⟩ := fits.ends
  unfold wrap at same
  rw [start] at same
  cases wraps with
  | false => exact same
  | true =>
    obtain ⟨first, last, startD, stopD⟩ := ends_of_isBounded bounded
    have ordered := (isEmpty_eq_false_iff d).mp solid
    have room := spaced rfl
    have nearX := left.1
    have nearY := right.1
    rw [startD, stopD, Endpoint.lt_iff_rank] at ordered
    simp only [Around, startD, stopD, Endpoint.AtMost, Endpoint.rank] at ordered nearX nearY
    rw [Interval.size, startD, stopD, Endpoint.gap_finite, fits.size] at room
    simp only [↓reduceIte, fits.size] at same
    have remainders : x - lo.val ≡ y - lo.val [ZMOD n.val] := by
      change (x - lo.val) % n.val = (y - lo.val) % n.val
      omega
    have close : |y - lo.val - (x - lo.val)| < n.val := abs_lt.mpr ⟨by omega, by omega⟩
    have none := Int.eq_zero_of_abs_lt_dvd remainders.dvd close
    omega

theorem reaches_of_mem (outward : m.Outward) (inside : d.inter g = d) {x : Int} (held : d.Mem x) :
    d.Reaches g m wraps x := by
  have := outward.1
  have := outward.2
  exact ⟨around_of_near held (by omega) (by omega), fun _ => mem_of_inter_eq inside held⟩

end Interval

namespace Axes

/-- Every periodic axis is long enough for `ds` with its margins. -/
def Spaced : List Interval → List Interval → List Margin → List Bool → Prop
  | d :: ds, g :: gs, m :: ms, wraps :: ws => d.Spaced g m wraps ∧ Spaced ds gs ms ws
  | _, _, _, _ => True

section

variable {ds gs : List Interval} {ms : List Margin} {ws : List Bool} {ns : List Coord}

theorem wrap_inj (fits : Fits gs ms ws ns) (solid : ds.any Interval.isEmpty = false)
    (bounded : ds.all Interval.isBounded = true) (spaced : Spaced ds gs ms ws) {p q : List Int}
    (left : Reaches ds gs ms ws p) (right : Reaches ds gs ms ws q)
    (same : wrap gs ws p = wrap gs ws q) : p = q := by
  induction fits generalizing ds p q with
  | nil =>
    cases ds with
    | nil =>
      cases p with
      | nil =>
        cases q with
        | nil => rfl
        | cons y ys => exact right.elim
      | cons x xs => exact left.elim
    | cons d ds => exact left.elim
  | cons first _ ih =>
    cases ds with
    | nil => exact left.elim
    | cons d ds =>
      rw [List.any_cons, Bool.or_eq_false_iff] at solid
      rw [List.all_cons, Bool.and_eq_true] at bounded
      cases p with
      | nil => exact left.elim
      | cons x xs =>
        cases q with
        | nil => exact right.elim
        | cons y ys =>
          obtain ⟨heads, tails⟩ := List.cons.inj same
          rw [Interval.wrap_inj first solid.1 bounded.1 spaced.1 left.1 right.1 heads,
            ih solid.2 bounded.2 spaced.2 left.2 right.2 tails]

theorem reaches_of_mem (fits : Fits gs ms ws ns) (outward : ∀ m ∈ ms, m.Outward)
    (inside : List.zipWith Interval.inter ds gs = ds) (same : ds.length = gs.length) {p : List Int}
    (held : Mem ds p) : Reaches ds gs ms ws p := by
  induction fits generalizing ds p with
  | nil =>
    rw [List.length_eq_zero_iff.mp same] at held ⊢
    cases p with
    | nil => trivial
    | cons x xs => exact held.elim
  | cons _ _ ih =>
    cases ds with
    | nil => simp at same
    | cons d ds =>
      cases p with
      | nil => exact held.elim
      | cons x xs =>
        obtain ⟨head, tail⟩ := List.cons.inj inside
        exact ⟨Interval.reaches_of_mem (outward _ List.mem_cons_self) head held.1,
          ih (fun m member => outward m (List.mem_cons_of_mem _ member)) tail (Nat.succ.inj same) held.2⟩

end

end Axes

namespace Grid

variable {g : Grid} {origin : Cell} {cuts : List (List Int × Box)} {fragments : List Fragment}

theorem absolutes_apart (fits : g.Fits)
    (cut : List.Forall₂ (fun c f => g.Cut origin c.1 c.2 f) cuts fragments)
    (apart : cuts.Pairwise fun a b => a.2.Apart b.2)
    (injective : Set.InjOn (Axes.wrap g.box.axes g.periodic) {x | ∃ c ∈ cuts, c.2.Mem x}) :
    (fragments.map Fragment.absolute).Pairwise Box.Apart := by
  apply List.pairwise_map.mpr
  apply pairwise_of_forall₂ cut _ apart
  intro a left b right f e first second away p both
  obtain ⟨x, inA, wrapA⟩ := (first.mem_absolute fits p).mp both.1
  obtain ⟨y, inB, wrapB⟩ := (second.mem_absolute fits p).mp both.2
  have same : x = y := injective ⟨a, left, inA⟩ ⟨b, right, inB⟩ (wrapA.symm.trans wrapB)
  exact away x ⟨inA, same ▸ inB⟩

theorem encard_absolutes (fits : g.Fits)
    (cut : List.Forall₂ (fun c f => g.Cut origin c.1 c.2 f) cuts fragments)
    (injective : Set.InjOn (Axes.wrap g.box.axes g.periodic) {x | ∃ c ∈ cuts, c.2.Mem x}) :
    {p | ∃ f ∈ fragments, f.absolute.Mem p}.encard = {x | ∃ c ∈ cuts, c.2.Mem x}.encard := by
  rw [← injective.encard_image]
  congr 1
  apply Set.ext
  intro p
  simp only [Set.mem_image, Set.mem_ofPred_eq,
    mem_fields cut fun _ _ _ source => source.mem_absolute fits, eq_comm]

end Grid

/-- If a subdomain with its margins is no longer than the grid along any periodic axis, the fragments
    of its halo share no cell in the grid, and none of them meets the subdomain. So as many cells are
    counted in the grid as seen from the subdomain. -/
theorem halo_spaced {id : Int} {box cells : Box} {margins : List Margin} {periodic : List Bool}
    {g : Grid} {d : Subdomain} {h : Halo} (positive : 0 < box.dim)
    (outward : ∀ m ∈ margins, m.Outward) (grid : Grid.ofBox box margins periodic = .ok g)
    (domain : Subdomain.ofBox id cells = .ok d) (run : g.haloOf d = .ok h)
    (spaced : Axes.Spaced cells.axes box.axes margins periodic) :
    (h.fragments.map Fragment.absolute).Pairwise Box.Apart ∧
      (∀ f ∈ h.fragments, f.absolute.Apart cells) ∧ h.absolute.size = h.relative.size := by
  obtain ⟨rfl, rfl, rfl, bounded, fits⟩ := Grid.ofBox_eq_ok grid
  obtain ⟨rfl, solid, ends⟩ := Subdomain.ofBox_eq_ok domain
  obtain ⟨same, inside, _⟩ := Grid.haloOf_eq_ok run
  obtain ⟨origin, _, dim, cuts, cut, apart, points⟩ :=
    Grid.cuts_of_haloOf fits positive bounded solid run
  have injective : Set.InjOn (Axes.wrap g.box.axes g.periodic) {x | ∃ c ∈ cuts, c.2.Mem x} := by
    intro x left y right
    have reachX := ((points x).mp left).1
    have reachY := ((points y).mp right).1
    exact Axes.wrap_inj fits solid ends spaced reachX reachY
  have absolutes := Grid.absolutes_apart fits cut apart injective
  refine ⟨absolutes, ?_, ?_⟩
  · intro f listed p both
    obtain ⟨c, member, source⟩ := exists_of_forall₂ cut listed
    obtain ⟨x, held, rfl⟩ := (source.mem_absolute fits p).mp both.1
    obtain ⟨reach, away⟩ := (points x).mp ⟨c, member, held⟩
    -- The cell of the subdomain lies within its own margins, and in the grid it is where it is seen.
    have own := Axes.reaches_of_mem fits outward (Box.zipWith_inter_of_inter_eq solid inside)
      same.symm both.2
    have still := Axes.wrap_of_mem fits ((Box.inter_eq_left_iff same.symm).mp inside _ both.2)
    have seen := Axes.wrap_inj fits solid ends spaced own reach still
    exact away (seen ▸ both.2)
  · have relatives := Grid.relatives_apart cut apart
    have dims := Grid.dims_of_cuts cut
    have first : h.absolute.Truthful := fun _ => Region.parts_ofParts_apart false absolutes
    have second : h.relative.Truthful := fun _ => Region.parts_ofParts_apart true relatives
    have inAbsolute : ∀ p, h.absolute.Mem p ↔ ∃ f ∈ h.fragments, f.absolute.Mem p := fun p =>
      Halo.mem_ofFragments fun f listed => dim ▸ (dims f listed).2
    have inRelative : ∀ l, h.relative.Mem l ↔ ∃ f ∈ h.fragments, f.relative.Mem l := fun l =>
      Halo.mem_ofFragments fun f listed => dim ▸ (dims f listed).1
    have counts : (h.absolute.size : ℕ∞) = h.relative.size := by
      simp only [Region.size_eq_encard first, Region.size_eq_encard second, inAbsolute, inRelative,
        Grid.encard_absolutes fits cut injective, Grid.encard_relatives cut]
    exact_mod_cast counts

namespace Sample

def filled : Except Fault Halo := do
  let g ← Grid.ofBox box oneWay [true, true]
  let d ← Subdomain.ofBox 0 southWest
  g.haloOf d

end Sample

theorem halo_spaced_filled : ∃ g d h, Grid.ofBox Sample.box Sample.oneWay [true, true] = .ok g ∧
    Subdomain.ofBox 0 Sample.southWest = .ok d ∧ g.haloOf d = .ok h ∧
    (∀ m ∈ Sample.oneWay, m.Outward) ∧
    Axes.Spaced Sample.southWest.axes Sample.box.axes Sample.oneWay [true, true] ∧
    (h.fragments.map Fragment.absolute).Pairwise Box.Apart ∧
    (∀ f ∈ h.fragments, f.absolute.Apart Sample.southWest) ∧ h.absolute.size = 12 := by
  have counted : Sample.filled.map (fun h => h.relative.size) = .ok 12 := by decide +kernel
  have outward : ∀ m ∈ Sample.oneWay, m.Outward := by
    simp [Sample.oneWay, Margin.Outward, Sample.two, Coord.zero]
  have spaced : Axes.Spaced Sample.southWest.axes Sample.box.axes Sample.oneWay [true, true] :=
    ⟨fun _ => by decide, fun _ => by decide, trivial⟩
  obtain ⟨h, run, size⟩ := map_eq_ok.mp counted
  obtain ⟨g, grid, run⟩ := bind_eq_ok.mp run
  obtain ⟨d, domain, run⟩ := bind_eq_ok.mp run
  obtain ⟨apart, away, same⟩ := halo_spaced (by decide) outward grid domain run spaced
  exact ⟨g, d, h, grid, domain, run, outward, spaced, apart, away, same.trans size⟩

end GridRegions
