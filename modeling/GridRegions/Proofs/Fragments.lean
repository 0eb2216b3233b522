import GridRegions.Proofs.Images
import GridRegions.Proofs.Simplification
import GridRegions.Halo.Fragment
import Mathlib.Data.List.ProdSigma

/-!
What a halo is cut from: boxes that lie in one image each, share no point and make up the cells
around the subdomain. Every fragment is one of them, shifted in two ways.
-/
namespace GridRegions

/-- The point lies within the margins around `d`, and in `g` on the axes that do not repeat
    themselves, but not in `d`. -/
def Box.InHalo (d g : Box) (margins : List Margin) (periodic : List Bool) (p : List Int) : Prop :=
  Axes.Reaches d.axes g.axes margins periodic p ∧ ¬ d.Mem p

theorem Subdomain.ofBox_eq_ok {id : Int} {box : Box} {d : Subdomain}
    (run : Subdomain.ofBox id box = .ok d) :
    d.box = box ∧ box.isEmpty = false ∧ box.isBounded = true := by
  unfold ofBox at run
  split at run
  · cases run
  · rename_i solid
    split at run
    · rename_i bounded
      cases run
      exact ⟨rfl, Bool.not_eq_true _ ▸ solid, bounded⟩
    · cases run

theorem forall₂_flatten {α β γ : Type} {R : α → β → γ → Prop} {as : List α} {bs : List β}
    {table : List (List γ)}
    (rows : List.Forall₂ (fun a row => List.Forall₂ (R a) bs row) as table) :
    List.Forall₂ (fun pair c => R pair.1 pair.2 c) (as ×ˢ bs) table.flatten := by
  apply List.rel_flatten
  apply List.forall₂_map_left_iff.mpr
  exact rows.imp fun a row related =>
    (List.forall₂_map_left_iff (f := Prod.mk a)).mpr related

namespace Grid

/-- The shared part lies in one image, and the fragment holds it as seen from the origin and as
    seen from that image. -/
structure Cut (g : Grid) (origin : Cell) (image : List Int) (shared : Box) (f : Fragment) :
    Prop where
  listed : image ∈ g.images
  dim : shared.dim = g.box.dim
  sees : ∀ p, shared.Mem p → g.Sees image p
  bounded : shared.isBounded = true
  relative : shared.shift (origin.map fun c => -c.val) = .ok f.relative
  absolute : shared.shift ((g.offsets image).map fun delta => -delta) = .ok f.absolute

theorem fragmentIn_eq_ok {g : Grid} {origin : Cell} {piece : Box} {image : List Int}
    {found : Option Fragment} (same : piece.dim = g.box.dim) (bounded : g.box.isBounded = true)
    (listed : image ∈ g.images) (run : g.fragmentIn origin piece image = .ok found) :
    (found = none ∧ ∀ p, ¬ (piece.Mem p ∧ g.Sees image p)) ∨
      ∃ f shared, found = some f ∧ g.Cut origin image shared f ∧
        ∀ p, shared.Mem p ↔ piece.Mem p ∧ g.Sees image p := by
  obtain ⟨moved, shifted, run⟩ := bind_eq_ok.mp run
  have dims : piece.dim = moved.dim := same.trans (Box.dim_move shifted).symm
  have points : ∀ p, (piece.inter moved).Mem p ↔ piece.Mem p ∧ g.Sees image p := by
    intro p
    rw [Box.mem_inter dims, Box.mem_shift shifted]
    rfl
  dsimp only at run
  split at run
  · rename_i void
    cases run
    left
    refine ⟨rfl, fun p both => ?_⟩
    exact (Box.isEmpty_iff_forall_not_mem _).mp void p ((points p).mpr both)
  · obtain ⟨relative, first, run⟩ := bind_eq_ok.mp run
    obtain ⟨absolute, second, run⟩ := bind_eq_ok.mp run
    cases run
    right
    refine ⟨_, _, rfl, ?_, points⟩
    constructor
    · exact listed
    · exact (Box.dim_inter dims).trans same
    · exact fun p inside => ((points p).mp inside).2
    · exact Box.isBounded_inter (Box.isBounded_shift shifted bounded)
    · exact first
    · exact second

/-- A pair of a piece and an image holds the points of the piece in that image. -/
def Holds (g : Grid) (pair : Box × List Int) (p : List Int) : Prop :=
  pair.1.Mem p ∧ g.Sees pair.2 p

/- The cuts are as far apart as the pairs that they come from; a pair without a common part leaves
   no cut, and no point either. -/
theorem cuts_of_fragments {g : Grid} {origin : Cell} (bounded : g.box.isBounded = true)
    {pairs : List (Box × List Int)} {found : List (Option Fragment)}
    (related : List.Forall₂ (fun pair o => g.fragmentIn origin pair.1 pair.2 = .ok o) pairs found)
    (dims : ∀ pair ∈ pairs, pair.1.dim = g.box.dim) (listed : ∀ pair ∈ pairs, pair.2 ∈ g.images)
    (apart : pairs.Pairwise fun a b => ∀ p, ¬ (g.Holds a p ∧ g.Holds b p)) :
    ∃ cuts : List (List Int × Box),
      List.Forall₂ (fun cut f => g.Cut origin cut.1 cut.2 f) cuts (found.filterMap id) ∧
      cuts.Pairwise (fun a b => a.2.Apart b.2) ∧
      ∀ p, (∃ cut ∈ cuts, cut.2.Mem p) ↔ ∃ pair ∈ pairs, g.Holds pair p := by
  induction related with
  | nil => exact ⟨[], .nil, .nil, by simp⟩
  | @cons pair o pairs found first rest ih =>
    obtain ⟨away, apart⟩ := List.pairwise_cons.mp apart
    obtain ⟨cuts, related, parted, points⟩ := ih
      (fun p member => dims p (List.mem_cons_of_mem _ member))
      (fun p member => listed p (List.mem_cons_of_mem _ member)) apart
    have here := fragmentIn_eq_ok (dims pair List.mem_cons_self) bounded
      (listed pair List.mem_cons_self) first
    rcases here with ⟨rfl, none⟩ | ⟨f, shared, rfl, cut, inside⟩
    · refine ⟨cuts, related, parted, fun p => ?_⟩
      rw [points, List.exists_mem_cons_iff]
      exact (or_iff_right (none p)).symm
    · refine ⟨(pair.2, shared) :: cuts, .cons cut related, ?_, fun p => ?_⟩
      · apply List.pairwise_cons.mpr
        refine ⟨fun other later p both => ?_, parted⟩
        obtain ⟨source, old, held⟩ := (points p).mp ⟨other, later, both.2⟩
        exact away source old p ⟨(inside p).mp both.1, held⟩
      · rw [List.exists_mem_cons_iff, List.exists_mem_cons_iff, points, inside]
        rfl

theorem dim_reach {g : Grid} {d : Subdomain} (same : g.box.dim = d.box.dim) {b : Box}
    (run : g.reach d = .ok b) : b.dim = d.box.dim := by
  obtain ⟨grown, near, run⟩ := bind_eq_ok.mp run
  obtain ⟨limit, far, run⟩ := bind_eq_ok.mp run
  cases run
  have left : grown.dim = d.box.dim := Box.dim_move near
  exact (Box.dim_inter (left.trans (same.symm.trans (Box.dim_move far).symm))).trans left

theorem mem_reach {g : Grid} (fits : g.Fits) {d : Subdomain} (solid : d.box.isEmpty = false)
    (same : g.box.dim = d.box.dim) (inside : d.box.inter g.box = d.box) {b : Box}
    (run : g.reach d = .ok b) : b.dim = g.box.dim ∧ ∀ p,
      (b.Mem p ↔ Axes.Reaches d.box.axes g.box.axes g.margins g.periodic p) ∧
      (b.Mem p → ∃ image ∈ g.images, g.Sees image p) := by
  refine ⟨(dim_reach same run).trans same.symm, fun p => ?_⟩
  obtain ⟨grown, near, run⟩ := bind_eq_ok.mp run
  obtain ⟨limit, far, run⟩ := bind_eq_ok.mp run
  cases run
  have dims : grown.dim = limit.dim :=
    (Box.dim_move near).trans (same.symm.trans (Box.dim_move far).symm)
  have axes := Box.zipWith_inter_of_inter_eq solid inside
  rw [Box.mem_inter dims]
  constructor
  · rw [Box.mem_grow near, Box.mem_grow far]
    exact Axes.around_and_around_iff fits solid axes same.symm
  · exact fun both => (mem_horizon fits far).mp both.2

theorem haloOf_eq_ok {g : Grid} {d : Subdomain} {h : Halo} (run : g.haloOf d = .ok h) :
    g.box.dim = d.box.dim ∧ d.box.inter g.box = d.box ∧ ∃ reach origin found,
      g.reach d = .ok reach ∧ d.box.first = .ok origin ∧
      List.Forall₂ (fun pair o => g.fragmentIn origin pair.1 pair.2 = .ok o)
        (((Region.ofBox reach).diff (.ofBox d.box)).simplified.components ×ˢ g.images) found ∧
      h = ⟨g.box.dim, found.filterMap id⟩ := by
  obtain ⟨_, same, run⟩ := bind_eq_ok.mp run
  obtain ⟨inside, run⟩ := guard_eq_ok.mp run
  obtain ⟨reach, near, run⟩ := bind_eq_ok.mp run
  obtain ⟨origin, corner, run⟩ := bind_eq_ok.mp run
  obtain ⟨table, rows, run⟩ := bind_eq_ok.mp run
  cases run
  refine ⟨checkDim_eq_ok.mp same, Decidable.not_not.mp inside, reach, origin, table.flatten, near,
    corner, ?_, rfl⟩
  apply forall₂_flatten (R := fun piece image o => g.fragmentIn origin piece image = .ok o)
  exact (mapM_eq_ok.mp rows).imp fun piece row => mapM_eq_ok.mp

theorem pairs_apart {g : Grid} (fits : g.Fits) {pieces : List Box}
    (apart : pieces.Pairwise Box.Apart) :
    (pieces ×ˢ g.images).Pairwise fun a b => ∀ p, ¬ (g.Holds a p ∧ g.Holds b p) := by
  apply List.pairwise_flatMap.mpr
  constructor
  · intro piece _
    apply List.pairwise_map.mpr
    refine (Axes.imagesOf_nodup g.periodic).imp_of_mem fun left right differ p both => ?_
    exact differ (sees_unique fits left right both.1.2 both.2.2)
  · refine apart.imp fun {a b} away pair left other right p both => ?_
    obtain ⟨_, _, rfl⟩ := List.mem_map.mp left
    obtain ⟨_, _, rfl⟩ := List.mem_map.mp right
    exact away p ⟨both.1.1, both.2.1⟩

theorem rest_pieces {reach box : Box} (same : reach.dim = box.dim) (positive : 0 < reach.dim) :
    let pieces := ((Region.ofBox reach).diff (.ofBox box)).simplified.components
    (∀ b ∈ pieces, b.dim = reach.dim) ∧ pieces.Pairwise Box.Apart ∧
      ∀ p, (∃ b ∈ pieces, b.Mem p) ↔ reach.Mem p ∧ ¬ box.Mem p := by
  have dims : (Region.ofBox reach).dim = (Region.ofBox box).dim := same
  have truthful : ((Region.ofBox reach).diff (.ofBox box)).Truthful :=
    fun _ => Region.diff_apart dims (Region.ofBox_apart reach)
  refine ⟨fun b => Region.dim_of_mem_components,
    Region.components_apart (Region.simplified_apart truthful), fun p => ?_⟩
  have rest : 0 < ((Region.ofBox reach).diff (.ofBox box)).simplified.dim := positive
  rw [Region.mem_components rest, Region.mem_simplified, Region.mem_diff dims, Region.mem_ofBox,
    Region.mem_ofBox]

/-- A halo is cut into boxes that share no point and hold the cells around the subdomain, each box
    in one image. -/
theorem cuts_of_haloOf {g : Grid} {d : Subdomain} {h : Halo} (fits : g.Fits)
    (positive : 0 < g.box.dim) (bounded : g.box.isBounded = true) (solid : d.box.isEmpty = false)
    (run : g.haloOf d = .ok h) : ∃ origin, d.box.first = .ok origin ∧ h.dim = g.box.dim ∧
      ∃ cuts : List (List Int × Box),
        List.Forall₂ (fun cut f => g.Cut origin cut.1 cut.2 f) cuts h.fragments ∧
        cuts.Pairwise (fun a b => a.2.Apart b.2) ∧
        ∀ p, (∃ cut ∈ cuts, cut.2.Mem p) ↔ d.box.InHalo g.box g.margins g.periodic p := by
  obtain ⟨same, inside, reach, origin, found, near, corner, related, rfl⟩ := haloOf_eq_ok run
  obtain ⟨dim, reached⟩ := mem_reach fits solid same inside near
  obtain ⟨dims, apart, pieces⟩ := rest_pieces (dim.trans same) (dim ▸ positive)
  obtain ⟨cuts, cut, parted, points⟩ := cuts_of_fragments bounded related
    (fun pair member => (dims pair.1 (List.mem_product.mp member).1).trans dim)
    (fun pair member => (List.mem_product.mp member).2) (pairs_apart fits apart)
  refine ⟨origin, corner, rfl, cuts, cut, parted, fun p => ?_⟩
  rw [points, Box.InHalo, ← (reached p).1, ← pieces]
  constructor
  · intro ⟨pair, member, held⟩
    exact ⟨pair.1, (List.mem_product.mp member).1, held.1⟩
  · intro ⟨piece, part, held⟩
    obtain ⟨image, listed, seen⟩ := (reached p).2 ((pieces p).mp ⟨piece, part, held⟩).1
    exact ⟨(piece, image), List.mem_product.mpr ⟨part, listed⟩, held, seen⟩

theorem dims_of_cuts {g : Grid} {origin : Cell} {cuts : List (List Int × Box)}
    {fragments : List Fragment}
    (cut : List.Forall₂ (fun c f => g.Cut origin c.1 c.2 f) cuts fragments) :
    ∀ f ∈ fragments, f.relative.dim = g.box.dim ∧ f.absolute.dim = g.box.dim := by
  intro f listed
  obtain ⟨c, _, source⟩ := exists_of_forall₂ cut listed
  exact ⟨(Box.dim_move source.relative).trans source.dim,
    (Box.dim_move source.absolute).trans source.dim⟩

theorem mem_fields {g : Grid} {origin : Cell} {cuts : List (List Int × Box)}
    {fragments : List Fragment} {field : Fragment → Box} {seen : List Int → List Int}
    (cut : List.Forall₂ (fun c f => g.Cut origin c.1 c.2 f) cuts fragments)
    (each : ∀ image shared f, g.Cut origin image shared f → ∀ p, (field f).Mem p ↔
      ∃ x, shared.Mem x ∧ p = seen x) {p : List Int} :
    (∃ f ∈ fragments, (field f).Mem p) ↔ ∃ x, (∃ c ∈ cuts, c.2.Mem x) ∧ p = seen x := by
  constructor
  · intro ⟨f, listed, inside⟩
    obtain ⟨c, member, source⟩ := exists_of_forall₂ cut listed
    obtain ⟨x, held, eq⟩ := (each _ _ f source p).mp inside
    exact ⟨x, ⟨c, member, held⟩, eq⟩
  · intro ⟨x, ⟨c, member, held⟩, eq⟩
    obtain ⟨f, listed, source⟩ := exists_of_forall₂ cut.flip member
    exact ⟨f, listed, (each _ _ f source p).mpr ⟨x, held, eq⟩⟩

end Grid

theorem Halo.mem_ofFragments {h : Halo} {field : Fragment → Box} {disjoint : Bool}
    (dims : ∀ f ∈ h.fragments, (field f).dim = h.dim) {p : List Int} :
    (Region.ofParts h.dim (h.fragments.map field) disjoint).Mem p ↔
      ∃ f ∈ h.fragments, (field f).Mem p := by
  rw [Region.mem_ofParts (by simpa using dims)]
  simp

namespace Sample

def four : Coord := ⟨4, by decide, by decide⟩

def box : Box := .ofAxes (List.replicate 2 (.span .zero (.finite four)))

def margins : List Margin := List.replicate 2 (.symmetric four)

def torus : Except Fault Halo := do
  let g ← Grid.ofBox box margins [true, true]
  let d ← Subdomain.ofBox 0 box
  g.haloOf d

end Sample

end GridRegions
