import GridRegions.Proofs.Cardinality
import GridRegions.Proofs.Fragments

/-!
The fragments of a halo cover it exactly: seen from the subdomain no cell is lost and none is held
twice.
-/
namespace GridRegions

theorem zipWith_add_map_neg (p : List Int) (origin : Cell) :
    List.zipWith (· + ·) p (origin.map fun c => -c.val) =
      List.zipWith (· - ·) p (origin.map Coord.val) := by
  simp only [List.zipWith_map_right, Int.sub_eq_add_neg]

namespace Grid

theorem Cut.mem_relative {g : Grid} {origin : Cell} {image : List Int} {shared : Box} {f : Fragment}
    (cut : g.Cut origin image shared f) (l : List Int) : f.relative.Mem l ↔
      ∃ x, shared.Mem x ∧ l = List.zipWith (· - ·) x (origin.map Coord.val) := by
  simp only [Box.mem_shift cut.relative, zipWith_add_map_neg]

section

variable {g : Grid} {origin : Cell} {cuts : List (List Int × Box)} {fragments : List Fragment}

theorem mem_relatives (cut : List.Forall₂ (fun c f => g.Cut origin c.1 c.2 f) cuts fragments)
    {l : List Int} : (∃ f ∈ fragments, f.relative.Mem l) ↔
      ∃ x, (∃ c ∈ cuts, c.2.Mem x) ∧ l = List.zipWith (· - ·) x (origin.map Coord.val) :=
  mem_fields cut fun _ _ _ source => source.mem_relative

theorem relatives_apart (cut : List.Forall₂ (fun c f => g.Cut origin c.1 c.2 f) cuts fragments)
    (apart : cuts.Pairwise fun a b => a.2.Apart b.2) :
    (fragments.map Fragment.relative).Pairwise Box.Apart := by
  apply List.pairwise_map.mpr
  apply pairwise_of_forall₂ cut _ apart
  intro a _ b _ f e first second away
  exact Box.shift_apart first.relative second.relative away

theorem encard_relatives (cut : List.Forall₂ (fun c f => g.Cut origin c.1 c.2 f) cuts fragments) :
    {l | ∃ f ∈ fragments, f.relative.Mem l}.encard = {x | ∃ c ∈ cuts, c.2.Mem x}.encard := by
  have image : {l | ∃ f ∈ fragments, f.relative.Mem l} =
      (fun x => List.zipWith (· + ·) x (origin.map fun c => -c.val)) ''
        {x | ∃ c ∈ cuts, c.2.Mem x} := by
    apply Set.ext
    intro l
    simp only [Set.mem_image, Set.mem_ofPred_eq, mem_relatives cut, zipWith_add_map_neg, eq_comm]
  have lengths : ∀ x ∈ {x | ∃ c ∈ cuts, c.2.Mem x},
      x.length = (origin.map fun c => -c.val).length := by
    intro x ⟨c, member, held⟩
    obtain ⟨f, _, source⟩ := exists_of_forall₂ cut.flip member
    exact (Box.length_of_mem held).trans (Box.move_eq_ok source.relative).2.1
  rw [image, Set.InjOn.encard_image]
  intro x left y right same
  exact Box.zipWith_add_inj (lengths x left) (lengths y right) same

end

end Grid

/-- The fragments are bounded boxes that share no point. Seen from the subdomain they hold the cells
    around it, each once, and so many are counted. -/
theorem halo_cover {id : Int} {box cells : Box} {margins : List Margin} {periodic : List Bool}
    {g : Grid} {d : Subdomain} {h : Halo} (positive : 0 < box.dim)
    (grid : Grid.ofBox box margins periodic = .ok g) (domain : Subdomain.ofBox id cells = .ok d)
    (run : g.haloOf d = .ok h) : ∃ origin, cells.first = .ok origin ∧
      (∀ f ∈ h.fragments, f.relative.isBounded = true ∧ f.relative.isEmpty = false) ∧
      (h.fragments.map Fragment.relative).Pairwise Box.Apart ∧
      (∀ l, (∃ f ∈ h.fragments, f.relative.Mem l) ↔ ∃ x, cells.InHalo box margins periodic x ∧
        l = List.zipWith (· - ·) x (origin.map Coord.val)) ∧
      h.relative.disjoint = true ∧ h.relative.Truthful ∧
      (∀ l, h.relative.Mem l ↔ ∃ f ∈ h.fragments, f.relative.Mem l) ∧
      (h.relative.size : ℕ∞) = min {x | cells.InHalo box margins periodic x}.encard Count.cap := by
  obtain ⟨rfl, rfl, rfl, bounded, fits⟩ := Grid.ofBox_eq_ok grid
  obtain ⟨rfl, solid, _⟩ := Subdomain.ofBox_eq_ok domain
  obtain ⟨origin, corner, dim, cuts, cut, apart, points⟩ :=
    Grid.cuts_of_haloOf fits positive bounded solid run
  have relatives := Grid.relatives_apart cut apart
  have dims : ∀ f ∈ h.fragments, f.relative.dim = h.dim := by
    intro f listed
    obtain ⟨c, _, source⟩ := exists_of_forall₂ cut listed
    rw [Box.dim_move source.relative, source.dim, dim]
  have truthful : h.relative.Truthful := fun _ => Region.parts_ofParts_apart true relatives
  refine ⟨origin, corner, ?_, relatives, ?_, rfl, truthful, fun l => Halo.mem_ofFragments dims, ?_⟩
  · intro f listed
    obtain ⟨c, _, source⟩ := exists_of_forall₂ cut listed
    exact ⟨Box.isBounded_shift source.relative source.bounded, Box.isEmpty_shift source.relative⟩
  · intro l
    simp only [Grid.mem_relatives cut, points]
  · have same : ∀ l, h.relative.Mem l ↔ ∃ f ∈ h.fragments, f.relative.Mem l :=
      fun l => Halo.mem_ofFragments dims
    simp only [Region.size_eq_encard truthful, same, Grid.encard_relatives cut, points]

theorem halo_cover_torus : ∃ g d h, Grid.ofBox Sample.box Sample.margins [true, true] = .ok g ∧
    Subdomain.ofBox 0 Sample.box = .ok d ∧ g.haloOf d = .ok h ∧ h.relative.size = 128 ∧
    {x | Sample.box.InHalo Sample.box Sample.margins [true, true] x}.encard = 128 := by
  have counted : Sample.torus.map (fun h => h.relative.size) = .ok 128 := by decide +kernel
  obtain ⟨h, run, size⟩ := map_eq_ok.mp counted
  obtain ⟨g, grid, run⟩ := bind_eq_ok.mp run
  obtain ⟨d, domain, run⟩ := bind_eq_ok.mp run
  obtain ⟨_, _, _, _, _, _, _, _, count⟩ := halo_cover (by decide) grid domain run
  rw [size] at count
  exact ⟨g, d, h, grid, domain, run, size, Count.eq_of_lt_cap (by decide) count⟩

end GridRegions
