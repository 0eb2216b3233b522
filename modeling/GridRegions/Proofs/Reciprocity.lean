import GridRegions.Proofs.Comparison
import GridRegions.Proofs.HaloWrap
import GridRegions.Proofs.Resizing

/-!
Halos are reciprocal: a subdomain reaches cells of another exactly when that one, with its margins
turned round, reaches cells of the first. A cell of the other that is seen at some place lies as
far from a cell of the first as that cell, moved by the same periods, lies from the other.
-/
namespace GridRegions

namespace Margin

/-- The margin as seen from the other side. -/
def swap (m : Margin) : Margin := ⟨m.after, m.before⟩

theorem map_swap_swap (ms : List Margin) : (ms.map swap).map swap = ms := by
  rw [List.map_map]
  exact List.map_id ms

theorem outward_swap {ms : List Margin} (outward : ∀ m ∈ ms, m.Outward) :
    ∀ m ∈ ms.map swap, m.Outward := by
  intro m member
  obtain ⟨source, old, rfl⟩ := List.mem_map.mp member
  exact (outward source old).symm

end Margin

namespace Interval

theorem wrap_of_mem {g : Interval} {m : Margin} {wraps : Bool} {n : Coord}
    (fits : g.Fits m wraps n) {x : Int} (inside : g.Mem x) : g.wrap wraps x = x :=
  (wrap_eq_iff fits inside).mpr ⟨0, fun _ => rfl, by omega⟩

/- From `x` the number of `b` lies `k` periods back, so the number of `a` next to `x` is brought next
   to `b` by the same periods. -/
theorem reaches_back {a b g : Interval} {m : Margin} {wraps : Bool} {n : Coord}
    (fits : g.Fits m wraps n) (outward : m.Outward) (solid : a.isEmpty = false)
    (insideA : a.inter g = a) (insideB : b.inter g = b) {x : Int} (reach : a.Reaches g m wraps x)
    (held : b.Mem (g.wrap wraps x)) :
    ∃ y, b.Reaches g m.swap wraps y ∧ a.Mem (g.wrap wraps y) := by
  obtain ⟨z, inA, low, high⟩ := exists_near solid outward reach.1
  obtain ⟨k, still, away⟩ := (wrap_eq_iff fits (mem_of_inter_eq insideB held)).mp rfl
  have back : g.wrap wraps (z - k * n.val) = z := by
    apply (wrap_eq_iff fits (mem_of_inter_eq insideA inA)).mpr
    exact ⟨-k, fun flag => by rw [still flag, Int.neg_zero], by rw [Int.neg_mul]; rfl⟩
  refine ⟨z - k * n.val, ⟨?_, fun flag => ?_⟩, back.symm ▸ inA⟩
  · apply around_of_near held
    · change g.wrap wraps x ≤ z - k * n.val + m.after.val
      omega
    · change z - k * n.val - m.before.val ≤ g.wrap wraps x
      omega
  · rw [still flag, Int.zero_mul, Int.sub_zero]
    exact mem_of_inter_eq insideA inA

end Interval

namespace Axes

section

variable {gs : List Interval} {ms : List Margin} {ws : List Bool} {ns : List Coord}

theorem wrap_of_mem (fits : Fits gs ms ws ns) {p : List Int} (inside : Mem gs p) :
    wrap gs ws p = p := by
  induction fits generalizing p with
  | nil =>
    cases p with
    | nil => rfl
    | cons x xs => exact inside.elim
  | cons first _ ih =>
    cases p with
    | nil => exact inside.elim
    | cons x xs => rw [wrap, Interval.wrap_of_mem first inside.1, ih inside.2]

theorem reaches_back (fits : Fits gs ms ws ns) (outward : ∀ m ∈ ms, m.Outward)
    {as bs : List Interval} (solid : as.any Interval.isEmpty = false)
    (insideA : List.zipWith Interval.inter as gs = as)
    (insideB : List.zipWith Interval.inter bs gs = bs) {p : List Int}
    (reach : Reaches as gs ms ws p) (held : Mem bs (wrap gs ws p)) :
    ∃ q, Reaches bs gs (ms.map Margin.swap) ws q ∧ Mem as (wrap gs ws q) := by
  induction fits generalizing as bs p with
  | nil =>
    rw [List.zipWith_nil_right] at insideA insideB
    subst insideA insideB
    cases p with
    | nil => exact ⟨[], trivial, trivial⟩
    | cons x xs => exact reach.elim
  | cons first _ ih =>
    cases as with
    | nil => cases p <;> exact reach.elim
    | cons a as =>
      cases p with
      | nil => exact reach.elim
      | cons x xs =>
        cases bs with
        | nil => exact held.elim
        | cons b bs =>
          rw [List.any_cons, Bool.or_eq_false_iff] at solid
          obtain ⟨headA, tailA⟩ := List.cons.inj insideA
          obtain ⟨headB, tailB⟩ := List.cons.inj insideB
          obtain ⟨y, here, there⟩ := Interval.reaches_back first (outward _ List.mem_cons_self)
            solid.1 headA headB reach.1 held.1
          obtain ⟨ys, later, rest⟩ := ih (fun m old => outward m (List.mem_cons_of_mem _ old))
            solid.2 tailA tailB reach.2 held.2
          exact ⟨y :: ys, ⟨here, later⟩, there, rest⟩

end

end Axes

namespace Box

/- A cell of `other` lies in the grid and is seen where it is, so it can not be seen in `cells`. -/
theorem inHalo_back {box cells other : Box} {margins : List Margin} {periodic : List Bool}
    {extents : List Coord} (fits : Axes.Fits box.axes margins periodic extents)
    (outward : ∀ m ∈ margins, m.Outward) (solid : cells.isEmpty = false)
    (solid' : other.isEmpty = false) (dims : other.dim = box.dim) (inside : cells.inter box = cells)
    (inside' : other.inter box = other) (apart : cells.Apart other) {x : List Int}
    (halo : cells.InHalo box margins periodic x)
    (held : other.Mem (Axes.wrap box.axes periodic x)) :
    ∃ y, other.InHalo box (margins.map Margin.swap) periodic y ∧
      cells.Mem (Axes.wrap box.axes periodic y) := by
  obtain ⟨y, reach, seen⟩ := Axes.reaches_back fits outward solid
    (zipWith_inter_of_inter_eq solid inside) (zipWith_inter_of_inter_eq solid' inside') halo.1 held
  refine ⟨y, ⟨reach, fun own => ?_⟩, seen⟩
  have within : box.Mem y := (inter_eq_left_iff dims).mp inside' y own
  rw [Axes.wrap_of_mem fits within] at seen
  exact apart y ⟨seen, own⟩

end Box

/-- The halo holds cells of the box. -/
def Halo.Meets (h : Halo) (b : Box) : Prop := ∃ p, h.absolute.Mem p ∧ b.Mem p

theorem Grid.meets_iff {g : Grid} {d : Subdomain} {h : Halo} (fits : g.Fits)
    (positive : 0 < g.box.dim) (bounded : g.box.isBounded = true) (solid : d.box.isEmpty = false)
    (run : g.haloOf d = .ok h) {b : Box} : h.Meets b ↔ ∃ x,
      d.box.InHalo g.box g.margins g.periodic x ∧ b.Mem (Axes.wrap g.box.axes g.periodic x) := by
  obtain ⟨_, _, dim, cuts, cut, _, points⟩ := cuts_of_haloOf fits positive bounded solid run
  have dims : ∀ f ∈ h.fragments, f.absolute.dim = h.dim := fun f listed =>
    dim ▸ (dims_of_cuts cut f listed).2
  have cells : ∀ p, h.absolute.Mem p ↔ ∃ x, d.box.InHalo g.box g.margins g.periodic x ∧
      p = Axes.wrap g.box.axes g.periodic x := by
    intro p
    rw [Halo.absolute, Halo.mem_ofFragments dims,
      mem_fields cut fun _ _ _ source => source.mem_absolute fits]
    simp only [points]
  simp only [Halo.Meets, cells]
  constructor
  · rintro ⟨_, ⟨x, halo, rfl⟩, held⟩
    exact ⟨x, halo, held⟩
  · rintro ⟨x, halo, held⟩
    exact ⟨_, ⟨x, halo, rfl⟩, held⟩

/-- One subdomain needs cells of another exactly when that one, with the margins turned round, needs
    cells of the first; with the same margins on both sides, within one grid. -/
theorem halo_reciprocal {id id' : Int} {box cells other : Box} {margins : List Margin}
    {periodic : List Bool} {g g' : Grid} {d e : Subdomain} {h h' : Halo} (positive : 0 < box.dim)
    (outward : ∀ m ∈ margins, m.Outward) (grid : Grid.ofBox box margins periodic = .ok g)
    (grid' : Grid.ofBox box (margins.map Margin.swap) periodic = .ok g')
    (domain : Subdomain.ofBox id cells = .ok d) (domain' : Subdomain.ofBox id' other = .ok e)
    (apart : cells.Apart other) (run : g.haloOf d = .ok h) (run' : g'.haloOf e = .ok h') :
    (h.Meets other ↔ h'.Meets cells) ∧
      (margins.map Margin.swap = margins → ∀ back, g.haloOf e = .ok back →
        (h.Meets other ↔ back.Meets cells)) := by
  have both : h.Meets other ↔ h'.Meets cells := by
    obtain ⟨rfl, rfl, rfl, bounded, fits⟩ := Grid.ofBox_eq_ok grid
    obtain ⟨boxes, turned, flags, _, fits'⟩ := Grid.ofBox_eq_ok grid'
    obtain ⟨rfl, solid, _⟩ := Subdomain.ofBox_eq_ok domain
    obtain ⟨rfl, solid', _⟩ := Subdomain.ofBox_eq_ok domain'
    obtain ⟨dims, inside, _⟩ := Grid.haloOf_eq_ok run
    obtain ⟨dims', inside', _⟩ := Grid.haloOf_eq_ok run'
    rw [Grid.meets_iff fits positive bounded solid run,
      Grid.meets_iff fits' (boxes ▸ positive) (boxes ▸ bounded) solid' run']
    rw [Grid.Fits] at fits'
    rw [boxes] at inside' dims' fits' ⊢
    rw [turned, flags] at fits' ⊢
    constructor
    · intro ⟨x, halo, held⟩
      exact Box.inHalo_back fits outward solid solid' dims'.symm inside inside' apart halo held
    · intro ⟨x, halo, held⟩
      have back := Box.inHalo_back fits' (Margin.outward_swap outward) solid' solid dims.symm inside'
        inside apart.symm halo held
      rwa [Margin.map_swap_swap] at back
  refine ⟨both, fun symmetric back again => ?_⟩
  rw [symmetric, grid] at grid'
  cases grid'
  rw [run'] at again
  cases again
  exact both

/- Cells at opposite corners of a grid that repeats itself along its first axis: those of the first
   reach back along this axis and on along the other, and those of the second the other way. -/
namespace Sample

def two : Coord := ⟨2, by decide, by decide⟩

def three : Coord := ⟨3, by decide, by decide⟩

def southWest : Box := .ofAxes (List.replicate 2 (.span .zero (.finite two)))

def northEast : Box :=
  .ofAxes [.span (.finite three) (.finite four), .span (.finite two) (.finite four)]

def oneWay : List Margin := [⟨two, .zero⟩, ⟨.zero, two⟩]

def haloAround (margins : List Margin) (cells : Box) : Except Fault Halo := do
  let g ← Grid.ofBox box margins [true, false]
  let d ← Subdomain.ofBox 0 cells
  g.haloOf d

end Sample

theorem halo_reciprocal_corners : ∃ g g' d e h h',
    Grid.ofBox Sample.box Sample.oneWay [true, false] = .ok g ∧
    Grid.ofBox Sample.box (Sample.oneWay.map Margin.swap) [true, false] = .ok g' ∧
    Subdomain.ofBox 0 Sample.southWest = .ok d ∧ Subdomain.ofBox 0 Sample.northEast = .ok e ∧
    (∀ m ∈ Sample.oneWay, m.Outward) ∧ Sample.southWest.Apart Sample.northEast ∧
    g.haloOf d = .ok h ∧ g'.haloOf e = .ok h' ∧
    h.Meets Sample.northEast ∧ h'.Meets Sample.southWest := by
  have outward : ∀ m ∈ Sample.oneWay, m.Outward := by
    simp [Sample.oneWay, Margin.Outward, Sample.two, Coord.zero]
  have dims : Sample.southWest.dim = Sample.northEast.dim := rfl
  have apart := (Box.apart_iff_isEmpty_inter dims).mpr (by decide)
  have there : (Sample.haloAround Sample.oneWay Sample.southWest).map
      (fun h => h.absolute.contains [Sample.three, Sample.two]) = .ok true := by decide +kernel
  have back : (Sample.haloAround (Sample.oneWay.map Margin.swap) Sample.northEast).map
      (fun h => h.fragments.length) = .ok 2 := by decide +kernel
  obtain ⟨h, run, held⟩ := map_eq_ok.mp there
  obtain ⟨g, grid, run⟩ := bind_eq_ok.mp run
  obtain ⟨d, domain, run⟩ := bind_eq_ok.mp run
  obtain ⟨h', run', _⟩ := map_eq_ok.mp back
  obtain ⟨g', grid', run'⟩ := bind_eq_ok.mp run'
  obtain ⟨e, domain', run'⟩ := bind_eq_ok.mp run'
  have meets : h.Meets Sample.northEast :=
    ⟨_, Region.contains_iff.mp held, Box.contains_iff.mp (by decide)⟩
  have reciprocal := halo_reciprocal (by decide) outward grid grid' domain domain' apart run run'
  exact ⟨g, g', d, e, h, h', grid, grid', domain, domain', outward, apart, run, run', meets,
    reciprocal.1.mp meets⟩

end GridRegions
