import GridRegions.Proofs.Fragments

/-!
Where the cells of a halo are in the grid: every fragment is one shift away from its place, and
each of its cells is the cell of the grid that is a whole number of periods away.
-/
namespace GridRegions

theorem zipWith_add_sub (p ms ns : List Int) (left : p.length = ms.length)
    (right : p.length = ns.length) :
    List.zipWith (· + ·) (List.zipWith (· + ·) p ms) (List.zipWith (· - ·) ns ms) =
      List.zipWith (· + ·) p ns := by
  induction p generalizing ms ns with
  | nil => rfl
  | cons x p ih =>
    cases ms with
    | nil => simp at left
    | cons m ms =>
      cases ns with
      | nil => simp at right
      | cons n ns =>
        have there : x + m + (n - m) = x + n := by omega
        simp only [List.zipWith_cons_cons, there, ih ms ns (Nat.succ.inj left) (Nat.succ.inj right)]

theorem zipWith_add_neg_cancel (p ms : List Int) (same : p.length = ms.length) :
    List.zipWith (· + ·) (List.zipWith (· + ·) p ms) (ms.map fun m => -m) = p := by
  induction p generalizing ms with
  | nil => rfl
  | cons x p ih =>
    cases ms with
    | nil => simp at same
    | cons m ms =>
      have back : x + m + -m = x := by omega
      simp only [List.zipWith_cons_cons, List.map_cons, back, ih ms (Nat.succ.inj same)]

namespace Grid

section

variable {g : Grid} {origin : Cell} {image : List Int} {shared : Box} {f : Fragment}

theorem Cut.wrap_eq (cut : g.Cut origin image shared f) (fits : g.Fits) {x : List Int}
    (inside : shared.Mem x) : g.box.Mem (Axes.wrap g.box.axes g.periodic x) ∧
      List.zipWith (· + ·) x ((g.offsets image).map fun delta => -delta) =
        Axes.wrap g.box.axes g.periodic x := by
  obtain ⟨q, within, rfl⟩ := cut.sees x inside
  rw [wrap_of_sees fits cut.listed within]
  have lengths := (Box.length_of_mem within).trans (length_offsets fits cut.listed).symm
  exact ⟨within, zipWith_add_neg_cancel q (g.offsets image) lengths⟩

theorem Cut.mem_absolute (cut : g.Cut origin image shared f) (fits : g.Fits) (p : List Int) :
    f.absolute.Mem p ↔ ∃ x, shared.Mem x ∧ p = Axes.wrap g.box.axes g.periodic x := by
  rw [Box.mem_shift cut.absolute]
  constructor
  · intro ⟨x, inside, eq⟩
    exact ⟨x, inside, eq.trans (cut.wrap_eq fits inside).2⟩
  · intro ⟨x, inside, eq⟩
    exact ⟨x, inside, eq.trans (cut.wrap_eq fits inside).2.symm⟩

theorem Cut.way (cut : g.Cut origin image shared f) (fits : g.Fits) :
    ∃ way, f.relative.shift way = .ok f.absolute ∧ ∀ l, f.relative.Mem l →
      List.zipWith (· + ·) l way = Axes.wrap g.box.axes g.periodic
        (List.zipWith (· + ·) (origin.map Coord.val) l) := by
  refine ⟨_, Box.shift_shift cut.relative cut.absolute, fun l member => ?_⟩
  obtain ⟨x, inside, rfl⟩ := (Box.mem_shift cut.relative).mp member
  have left := (Box.length_of_mem inside).trans (Box.move_eq_ok cut.relative).2.1
  have right := (Box.length_of_mem inside).trans (Box.move_eq_ok cut.absolute).2.1
  have back : List.zipWith (· + ·) (origin.map Coord.val)
      (List.zipWith (· + ·) x (origin.map fun c => -c.val)) = x := by
    have negated : origin.map Coord.val = (origin.map fun c => -c.val).map fun m => -m := by simp
    rw [List.zipWith_comm_of_comm Int.add_comm, negated]
    exact zipWith_add_neg_cancel x _ left
  rw [zipWith_add_sub x _ _ left right, back, (cut.wrap_eq fits inside).2]

end

end Grid

/-- Every fragment is one shift away from its place inside the grid. Its cells go to the cells of
    the grid that they are images of, and it has both corners in either view. -/
theorem halo_wrap {id : Int} {box cells : Box} {margins : List Margin} {periodic : List Bool}
    {g : Grid} {d : Subdomain} {h : Halo} (positive : 0 < box.dim)
    (grid : Grid.ofBox box margins periodic = .ok g) (domain : Subdomain.ofBox id cells = .ok d)
    (run : g.haloOf d = .ok h) : ∃ origin, cells.first = .ok origin ∧
      (∀ f ∈ h.fragments,
        (∃ way, f.relative.shift way = .ok f.absolute ∧ ∀ l, f.relative.Mem l →
          List.zipWith (· + ·) l way = Axes.wrap box.axes periodic
            (List.zipWith (· + ·) (origin.map Coord.val) l)) ∧
        f.absolute.shape = f.relative.shape ∧ (∀ p, f.absolute.Mem p → box.Mem p) ∧
        (∃ corners, f.relative.corners = .ok corners) ∧
        ∃ corners, f.absolute.corners = .ok corners) ∧
      ∀ p, h.absolute.Mem p ↔
        ∃ x, cells.InHalo box margins periodic x ∧ p = Axes.wrap box.axes periodic x := by
  obtain ⟨rfl, rfl, rfl, bounded, fits⟩ := Grid.ofBox_eq_ok grid
  obtain ⟨rfl, solid, _⟩ := Subdomain.ofBox_eq_ok domain
  obtain ⟨origin, corner, dim, cuts, cut, _, points⟩ :=
    Grid.cuts_of_haloOf fits positive bounded solid run
  refine ⟨origin, corner, ?_, fun p => ?_⟩
  · intro f listed
    obtain ⟨c, _, source⟩ := exists_of_forall₂ cut listed
    obtain ⟨way, moved, ways⟩ := source.way fits
    obtain ⟨_, last, _, relative⟩ := Box.exists_corners (Box.isEmpty_shift source.relative)
      (Box.isBounded_shift source.relative source.bounded)
    obtain ⟨_, last', _, absolute⟩ := Box.exists_corners (Box.isEmpty_shift source.absolute)
      (Box.isBounded_shift source.absolute source.bounded)
    refine ⟨⟨way, moved, ways⟩, Box.shape_shift moved, ?_, ⟨_, relative⟩, _, absolute⟩
    intro p inside
    obtain ⟨x, held, rfl⟩ := (source.mem_absolute fits p).mp inside
    exact (source.wrap_eq fits held).1
  · have dims : ∀ f ∈ h.fragments, f.absolute.dim = h.dim := by
      intro f listed
      obtain ⟨c, _, source⟩ := exists_of_forall₂ cut listed
      rw [Box.dim_move source.absolute, source.dim, dim]
    rw [Halo.absolute, Halo.mem_ofFragments dims,
      Grid.mem_fields cut fun _ _ _ source => source.mem_absolute fits]
    simp only [points]

theorem halo_wrap_torus : ∃ g d h, Grid.ofBox Sample.box Sample.margins [true, true] = .ok g ∧
    Subdomain.ofBox 0 Sample.box = .ok d ∧ g.haloOf d = .ok h ∧ h.fragments.length = 8 ∧
    h.absolute.Mem [0, 0] ∧
    (∃ x, Sample.box.InHalo Sample.box Sample.margins [true, true] x ∧
      [0, 0] = Axes.wrap Sample.box.axes [true, true] x) ∧
    ∀ f ∈ h.fragments, ∃ corners, f.absolute.corners = .ok corners := by
  have held : Sample.torus.map (fun h => (h.fragments.length, h.absolute.contains [.zero, .zero])) =
      .ok (8, true) := by decide +kernel
  obtain ⟨h, run, corner⟩ := map_eq_ok.mp held
  obtain ⟨g, grid, run⟩ := bind_eq_ok.mp run
  obtain ⟨d, domain, run⟩ := bind_eq_ok.mp run
  obtain ⟨many, inside⟩ := Prod.mk.inj corner
  obtain ⟨_, _, each, points⟩ := halo_wrap (by decide) grid domain run
  have member : h.absolute.Mem [0, 0] := Region.contains_iff.mp inside
  exact ⟨g, d, h, grid, domain, run, many, member, (points _).mp member,
    fun f listed => (each f listed).2.2.2.2⟩

end GridRegions
