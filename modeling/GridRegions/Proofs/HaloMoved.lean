import GridRegions.Proofs.HaloCover
import GridRegions.Proofs.Moved
import GridRegions.Proofs.Peeling
import GridRegions.Proofs.Reciprocity

/-!
Where a grid stands makes no difference to its halos. If a grid and its subdomain are moved along
the same way, every step of cutting the halo gives the boxes that it gave before, moved likewise:
the reach, the pieces peeled off it, and the part of each piece in each image.
-/
namespace GridRegions

theorem forall₂_product {α β γ : Type} {R : α → β → Prop} {as : List α} {bs : List β}
    (related : List.Forall₂ R as bs) (cs : List γ) :
    List.Forall₂ (fun p q => R p.1 q.1 ∧ p.2 = q.2) (as ×ˢ cs) (bs ×ˢ cs) := by
  induction related with
  | nil => exact .nil
  | cons first _ ih =>
    rw [List.product_cons, List.product_cons]
    apply List.rel_append _ ih
    apply List.forall₂_map_left_iff.mpr
    apply List.forall₂_map_right_iff.mpr
    exact List.forall₂_same.mpr fun c _ => ⟨first, rfl⟩

namespace Region

variable {deltas : List Int} {a b c d : Box}

theorem components_moved {r s : Region} (parts : List.Forall₂ (Box.Moved deltas) r.parts s.parts)
    (void : (Box.empty r.dim).Moved deltas (.empty s.dim)) :
    List.Forall₂ (Box.Moved deltas) r.components s.components := by
  unfold components
  generalize r.parts = ps at parts
  generalize s.parts = qs at parts
  cases parts with
  | nil => exact .cons void .nil
  | cons first rest => exact .cons first rest

/- Simplifying leaves peeled pieces as they are, so it does not depend on where they lie either. -/
theorem peeled_moved (same : a.dim = b.dim) (first : a.Moved deltas c) (second : b.Moved deltas d) :
    List.Forall₂ (Box.Moved deltas) ((ofBox a).diff (ofBox b)).simplified.components
      ((ofBox c).diff (ofBox d)).simplified.components := by
  have same' : c.dim = d.dim := first.dim.symm.trans (same.trans second.dim)
  rw [simplified_diff_ofBox same, simplified_diff_ofBox same', diff_ofBox same, diff_ofBox same']
  apply components_moved
  · apply List.rel_filter _ (first.carve second)
    intro e f moved
    simp only [moved.dim, moved.isEmpty, first.dim]
  · exact first.empty

end Region

/-- The fragments look alike from their subdomains, and in the grid one is moved from the other. -/
structure Fragment.Moved (deltas : List Int) (f f' : Fragment) : Prop where
  relative : f'.relative = f.relative
  absolute : f.absolute.shift deltas = .ok f'.absolute

namespace Grid

variable {g : Grid} {box box' : Box} {deltas : List Int} {d d' : Subdomain}

theorem ofBox_shift {margins : List Margin} {periodic : List Bool}
    (moved : box.shift deltas = .ok box') (run : ofBox box margins periodic = .ok g) :
    ofBox box' margins periodic = .ok { g with box := box' } := by
  obtain ⟨_, _, _, ends, _⟩ := ofBox_eq_ok run
  unfold ofBox at run ⊢
  rw [Box.dim_move moved, Box.isEmpty_shift moved, Box.isBounded_shift moved ends,
    Box.shape_shift moved]
  obtain ⟨_, sameM, run⟩ := bind_eq_ok.mp run
  obtain ⟨_, sameW, run⟩ := bind_eq_ok.mp run
  obtain ⟨_, run⟩ := guard_eq_ok.mp run
  obtain ⟨_, run⟩ := guard_eq_ok.mp run
  obtain ⟨extents, sizes, run⟩ := bind_eq_ok.mp run
  obtain ⟨_, near, run⟩ := bind_eq_ok.mp run
  cases run
  refine bind_eq_ok.mpr ⟨_, sameM, bind_eq_ok.mpr ⟨_, sameW, ?_⟩⟩
  exact bind_eq_ok.mpr ⟨extents, sizes, bind_eq_ok.mpr ⟨_, near, rfl⟩⟩

theorem reach_moved (grids : g.box.Moved deltas box') (domains : d.box.Moved deltas d'.box)
    {b b' : Box} (first : g.reach d = .ok b)
    (second : { g with box := box' }.reach d' = .ok b') : b.Moved deltas b' := by
  obtain ⟨grown, near, first⟩ := bind_eq_ok.mp first
  obtain ⟨limit, far, first⟩ := bind_eq_ok.mp first
  obtain ⟨grown', near', second⟩ := bind_eq_ok.mp second
  obtain ⟨limit', far', second⟩ := bind_eq_ok.mp second
  cases first
  cases second
  exact (domains.grow near near').inter (grids.grow far far')

theorem fragmentIn_moved (grids : g.box.Moved deltas box') {origin origin' : Cell}
    (back : origin'.map (fun c => -c.val) = List.zipWith (· - ·) (origin.map fun c => -c.val) deltas)
    {piece piece' : Box} (pieces : piece.Moved deltas piece') {image : List Int}
    {found found' : Option Fragment} (first : g.fragmentIn origin piece image = .ok found)
    (second : { g with box := box' }.fragmentIn origin' piece' image = .ok found') :
    Option.Rel (Fragment.Moved deltas) found found' := by
  obtain ⟨shown, shifted, first⟩ := bind_eq_ok.mp first
  obtain ⟨shown', shifted', second⟩ := bind_eq_ok.mp second
  have shared : (piece.inter shown).Moved deltas (piece'.inter shown') :=
    pieces.inter (grids.shifted shifted shifted')
  dsimp only at first second
  rw [← shared.isEmpty] at second
  split at first
  · rename_i void
    rw [if_pos void] at second
    cases first
    cases second
    exact .none
  · rename_i solid
    rw [if_neg solid] at second
    obtain ⟨relative, here, first⟩ := bind_eq_ok.mp first
    obtain ⟨absolute, there, first⟩ := bind_eq_ok.mp first
    obtain ⟨relative', here', second⟩ := bind_eq_ok.mp second
    obtain ⟨absolute', there', second⟩ := bind_eq_ok.mp second
    cases first
    cases second
    have moved := shared.shift (Bool.eq_false_iff.mpr solid)
    have seen := Box.shift_shift moved here
    rw [← back, here'] at seen
    refine .some ⟨Except.ok.inj seen, ?_⟩
    exact (shared.shifted there there').shift (Box.isEmpty_shift there)

theorem fragments_moved {h h' : Halo} (movedBox : g.box.shift deltas = .ok box')
    (movedCells : d.box.shift deltas = .ok d'.box) (run : g.haloOf d = .ok h)
    (run' : { g with box := box' }.haloOf d' = .ok h') :
    List.Forall₂ (Fragment.Moved deltas) h.fragments h'.fragments := by
  obtain ⟨same, _, reach, origin, found, near, corner, related, rfl⟩ := haloOf_eq_ok run
  obtain ⟨_, _, reach', origin', found', near', corner', related', rfl⟩ := haloOf_eq_ok run'
  have grids := Box.moved_of_shift movedBox
  have reaches := reach_moved grids (Box.moved_of_shift movedCells) near near'
  have back := Box.back_of_shift movedCells corner corner'
  have pieces := Region.peeled_moved (dim_reach same near) reaches (Box.moved_of_shift movedCells)
  have pairs := forall₂_product pieces g.images
  have founds : List.Forall₂ (Option.Rel (Fragment.Moved deltas)) found found' := by
    refine forall₂_of_runs ?_ pairs related related'
    rintro ⟨piece, image⟩ ⟨piece', _⟩ o o' ⟨moved, rfl⟩ first second
    exact fragmentIn_moved grids back moved first second
  exact List.rel_filterMap (fun _ _ both => both) founds

end Grid

theorem exists_relative_iff {deltas : List Int} {fragments fragments' : List Fragment}
    (moved : List.Forall₂ (Fragment.Moved deltas) fragments fragments') {l : List Int} :
    (∃ f ∈ fragments', f.relative.Mem l) ↔ ∃ f ∈ fragments, f.relative.Mem l := by
  constructor
  · intro ⟨f', listed, held⟩
    obtain ⟨f, before, same⟩ := exists_of_forall₂ moved listed
    exact ⟨f, before, same.relative ▸ held⟩
  · intro ⟨f, listed, held⟩
    obtain ⟨f', after, same⟩ := exists_of_forall₂ moved.flip listed
    exact ⟨f', after, same.relative ▸ held⟩

/-- If a grid and a subdomain of it are both shifted by the same deltas, and have a halo before and
    after, then the two halos have their fragments in the same order. Seen from the subdomain the
    fragments are the same, and hold the cells around the subdomain as it was before; in the grid
    each is shifted by the deltas. -/
theorem halo_moved {id id' : Int} {box box' cells cells' : Box} {margins : List Margin}
    {periodic : List Bool} {deltas : List Int} {g g' : Grid} {d d' : Subdomain} {h h' : Halo}
    (movedBox : box.shift deltas = .ok box') (movedCells : cells.shift deltas = .ok cells')
    (grid : Grid.ofBox box margins periodic = .ok g)
    (grid' : Grid.ofBox box' margins periodic = .ok g')
    (domain : Subdomain.ofBox id cells = .ok d) (domain' : Subdomain.ofBox id' cells' = .ok d')
    (run : g.haloOf d = .ok h) (run' : g'.haloOf d' = .ok h') :
    List.Forall₂ (Fragment.Moved deltas) h.fragments h'.fragments ∧
      (0 < box.dim → ∃ origin, cells.first = .ok origin ∧
        ∀ l, (∃ f ∈ h'.fragments, f.relative.Mem l) ↔ ∃ x, cells.InHalo box margins periodic x ∧
          l = List.zipWith (· - ·) x (origin.map Coord.val)) := by
  rw [Grid.ofBox_shift movedBox grid] at grid'
  cases grid'
  obtain ⟨rfl, rfl, rfl, bounded, fits⟩ := Grid.ofBox_eq_ok grid
  obtain ⟨rfl, solid, _⟩ := Subdomain.ofBox_eq_ok domain
  obtain ⟨rfl, _⟩ := Subdomain.ofBox_eq_ok domain'
  have moved := Grid.fragments_moved movedBox movedCells run run'
  refine ⟨moved, fun positive => ?_⟩
  obtain ⟨origin, corner, _, cuts, cut, _, points⟩ :=
    Grid.cuts_of_haloOf fits positive bounded solid run
  refine ⟨origin, corner, fun l => ?_⟩
  simp only [exists_relative_iff moved, Grid.mem_relatives cut, points]

namespace Sample

def away : List Int := [10, -3]

def haloAway : Except Fault Halo := do
  let moved ← box.shift away
  let cells ← southWest.shift away
  let g ← Grid.ofBox moved oneWay [true, false]
  let d ← Subdomain.ofBox 0 cells
  g.haloOf d

end Sample

theorem halo_moved_away : ∃ box cells g g' d d' h h',
    Sample.box.shift Sample.away = .ok box ∧ Sample.southWest.shift Sample.away = .ok cells ∧
    Grid.ofBox Sample.box Sample.oneWay [true, false] = .ok g ∧
    Grid.ofBox box Sample.oneWay [true, false] = .ok g' ∧
    Subdomain.ofBox 0 Sample.southWest = .ok d ∧ Subdomain.ofBox 0 cells = .ok d' ∧
    g.haloOf d = .ok h ∧ g'.haloOf d' = .ok h' ∧ h.fragments.length = 2 ∧
    List.Forall₂ (Fragment.Moved Sample.away) h.fragments h'.fragments ∧
    ∃ origin, Sample.southWest.first = .ok origin ∧ ∀ l, (∃ f ∈ h'.fragments, f.relative.Mem l) ↔
      ∃ x, Sample.southWest.InHalo Sample.box Sample.oneWay [true, false] x ∧
        l = List.zipWith (· - ·) x (origin.map Coord.val) := by
  have here : (Sample.haloAround Sample.oneWay Sample.southWest).map
      (fun h => h.fragments.length) = .ok 2 := by decide +kernel
  have there : Sample.haloAway.map (fun h => h.fragments.length) = .ok 2 := by decide +kernel
  obtain ⟨h, run, two⟩ := map_eq_ok.mp here
  obtain ⟨g, grid, run⟩ := bind_eq_ok.mp run
  obtain ⟨d, domain, run⟩ := bind_eq_ok.mp run
  obtain ⟨h', run', _⟩ := map_eq_ok.mp there
  obtain ⟨box, movedBox, run'⟩ := bind_eq_ok.mp run'
  obtain ⟨cells, movedCells, run'⟩ := bind_eq_ok.mp run'
  obtain ⟨g', grid', run'⟩ := bind_eq_ok.mp run'
  obtain ⟨d', domain', run'⟩ := bind_eq_ok.mp run'
  obtain ⟨moved, points⟩ := halo_moved movedBox movedCells grid grid' domain domain' run run'
  exact ⟨box, cells, g, g', d, d', h, h', movedBox, movedCells, grid, grid', domain, domain', run,
    run', two, moved, points (by decide)⟩

end GridRegions
