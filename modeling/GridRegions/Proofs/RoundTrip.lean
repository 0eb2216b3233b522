import GridRegions.Proofs.Comparison
import GridRegions.Stored.Codec

/-!
Stored values are read back as they were, and what is read keeps the rules of its kind: a stored
interval is a pair of ends in order, a stored box a list of two or more intervals.
-/
namespace GridRegions

theorem Unreadable.unlessFault_eq_ok {α : Type} {x : Except Fault α} {a : α} :
    unlessFault x = .ok a ↔ x = .ok a := by
  cases x <;> simp [unlessFault]

namespace Doc

theorem coord_eq_ok {d : Doc} {c : Coord} : d.coord = .ok c ↔ d = .int c.val := by
  cases d with
  | int n =>
    rw [Doc.int.injEq, ← Coord.ofInt?_eq_some_iff, coord]
    cases Coord.ofInt? n <;> simp
  | _ => simp [coord]

theorem items_eq_ok {α : Type} {read : Doc → Except Unreadable α} {d : Doc} {as : List α} :
    d.items read = .ok as ↔
      ∃ ds, d = .list ds ∧ List.Forall₂ (fun d a => read d = .ok a) ds as := by
  cases d with
  | list ds => simp [items, mapM_eq_ok]
  | _ => simp [items]

theorem items_map {α : Type} {read : Doc → Except Unreadable α} (write : α → Doc)
    (back : ∀ a, read (write a) = .ok a) (as : List α) :
    (Doc.list (as.map write)).items read = .ok as := by
  rw [items_eq_ok]
  refine ⟨_, rfl, ?_⟩
  rw [List.forall₂_map_left_iff, List.forall₂_same]
  exact fun a _ => back a

end Doc

namespace Endpoint

theorem load_store (e : Endpoint) : load e.store = .ok e := by
  cases e with
  | negInf => rfl
  | finite c => simp [store, load, Doc.coord_eq_ok.mpr rfl, Except.map]
  | posInf => rfl

/-- An infinite end may also be written as a record that holds nothing. -/
def storeAsRecord? : Endpoint → Option Doc
  | .negInf => some (.record [("NegInf", .null)])
  | .finite _ => none
  | .posInf => some (.record [("PosInf", .null)])

theorem load_eq_ok {d : Doc} {e : Endpoint} :
    load d = .ok e ↔ d = e.store ∨ e.storeAsRecord? = some d := by
  constructor
  · intro run
    unfold load at run
    split at run
    · split at run
      · rename_i name
        cases run
        exact .inl (congrArg Doc.text name)
      · split at run
        · rename_i name
          cases run
          exact .inl (congrArg Doc.text name)
        · cases run
    · split at run
      · rename_i name
        obtain ⟨c, content, rfl⟩ := map_eq_ok.mp run
        rw [name, Doc.coord_eq_ok.mp content]
        exact .inl rfl
      · split at run
        · split at run
          · rename_i name
            cases run
            rw [name]
            exact .inr rfl
          · split at run
            · rename_i name
              cases run
              rw [name]
              exact .inr rfl
            · cases run
        · cases run
    · cases run
  · intro form
    rcases form with rfl | record
    · exact load_store e
    · cases e with
      | negInf => cases record; rfl
      | finite c => cases record
      | posInf => cases record; rfl

end Endpoint

namespace Interval

theorem ofEnds_eq_ok {start stop : Endpoint} {i : Interval} :
    ofEnds start stop = .ok i ↔ start ≤ stop ∧ i = span start stop := by
  unfold ofEnds
  split
  · rename_i reversed
    simp [← Endpoint.not_lt, reversed]
  · rename_i ordered
    simp [Endpoint.not_lt.mp ordered, eq_comm]

theorem load_eq_ok {d : Doc} {i : Interval} : load d = .ok i ↔
    ∃ first second start stop, d = .list [first, second] ∧ Endpoint.load first = .ok start ∧
      Endpoint.load second = .ok stop ∧ start ≤ stop ∧ i = span start stop := by
  unfold load
  split
  · rename_i first second
    constructor
    · intro run
      obtain ⟨start, one, run⟩ := bind_eq_ok.mp run
      obtain ⟨stop, two, run⟩ := bind_eq_ok.mp run
      exact ⟨first, second, start, stop, rfl, one, two,
        ofEnds_eq_ok.mp (Unreadable.unlessFault_eq_ok.mp run)⟩
    · intro ⟨_, _, start, stop, pair, one, two, ends⟩
      cases pair
      exact bind_eq_ok.mpr ⟨start, one, bind_eq_ok.mpr ⟨stop, two,
        Unreadable.unlessFault_eq_ok.mpr (ofEnds_eq_ok.mpr ends)⟩⟩
  · rename_i other
    constructor
    · intro run
      cases run
    · intro ⟨first, second, _, _, pair, _⟩
      exact absurd pair (other first second)

theorem load_store (i : Interval) : load i.store = .ok i :=
  load_eq_ok.mpr ⟨_, _, i.start, i.stop, rfl, Endpoint.load_store _, Endpoint.load_store _,
    start_le_stop i, (span_start_stop i).symm⟩

end Interval

namespace Box

theorem ofAxes_axes (b : Box) : ofAxes b.axes = b := by
  apply Box.ext
  cases void : b.isEmpty with
  | true => rw [ofAxes_of_empty void, List.map_const', axes_of_isEmpty void, List.length_replicate]
  | false => exact ofAxes_of_nonempty void

theorem ofIntervals_eq_ok {axes : List Interval} {b : Box} :
    ofIntervals axes = .ok b ↔ 2 ≤ axes.length ∧ b = ofAxes axes := by
  unfold ofIntervals
  split
  · rename_i few
    simp [Nat.not_le.mpr few]
  · rename_i enough
    simp [Nat.not_lt.mp enough, eq_comm]

theorem load_eq_ok {d : Doc} {b : Box} : load d = .ok b ↔ ∃ ds axes, d = .list ds ∧
    List.Forall₂ (fun d i => Interval.load d = .ok i) ds axes ∧ 2 ≤ axes.length ∧
      b = ofAxes axes := by
  rw [load, bind_eq_ok]
  simp only [Doc.items_eq_ok, Unreadable.unlessFault_eq_ok, ofIntervals_eq_ok]
  constructor
  · intro ⟨axes, ⟨ds, list, items⟩, built⟩
    exact ⟨ds, axes, list, items, built⟩
  · intro ⟨ds, axes, list, items, built⟩
    exact ⟨axes, ⟨ds, list, items⟩, built⟩

theorem load_store {b : Box} (many : 2 ≤ b.dim) : load b.store = .ok b := by
  rw [load, bind_eq_ok]
  refine ⟨b.axes, Doc.items_map Interval.store Interval.load_store b.axes, ?_⟩
  rw [Unreadable.unlessFault_eq_ok, ofIntervals_eq_ok, ofAxes_axes]
  exact ⟨many, rfl⟩

theorem two_le_dim_of_load {d : Doc} {b : Box} (run : load d = .ok b) : 2 ≤ b.dim := by
  obtain ⟨ds, axes, _, _, many, rfl⟩ := load_eq_ok.mp run
  rwa [dim_ofAxes]

end Box

theorem Margin.load_store (m : Margin) : load m.store = .ok m := by
  unfold store
  split
  · rename_i same
    have both : symmetric m.before = m := Margin.ext rfl same
    exact map_eq_ok.mpr ⟨m.before, Doc.coord_eq_ok.mpr rfl, both⟩
  · exact bind_eq_ok.mpr ⟨m.before, Doc.coord_eq_ok.mpr rfl,
      bind_eq_ok.mpr ⟨m.after, Doc.coord_eq_ok.mpr rfl, rfl⟩⟩

namespace Settings

theorem load_store (s : Settings) : load s.store = .ok s := by
  have flags : (Doc.list (s.periodic.map Doc.bool)).items Doc.flag = .ok s.periodic :=
    Doc.items_map Doc.bool (fun _ => rfl) s.periodic
  change loadParts (.list (s.margins.map Margin.store)) (some (.list (s.periodic.map .bool))) = .ok s
  exact bind_eq_ok.mpr ⟨_, Doc.items_map Margin.store Margin.load_store s.margins,
    bind_eq_ok.mpr ⟨_, flags, rfl⟩⟩

theorem load_without_flags (margins : List Margin) :
    load (.record [("halos", .list (margins.map Margin.store))]) = .ok ⟨margins, []⟩ := by
  change loadParts (.list (margins.map Margin.store)) none = .ok ⟨margins, []⟩
  exact bind_eq_ok.mpr ⟨_, Doc.items_map Margin.store Margin.load_store margins, rfl⟩

end Settings

/-- Every value is read back as it was stored. What is read is canonical, and is read exactly from
    the forms of its kind: of an end, of a pair of ends in order, of two or more intervals. -/
theorem stored_forms :
    (∀ e : Endpoint, Endpoint.load e.store = .ok e) ∧
    (∀ i : Interval, Interval.load i.store = .ok i) ∧
    (∀ b : Box, 2 ≤ b.dim → Box.load b.store = .ok b) ∧
    (∀ m : Margin, Margin.load m.store = .ok m) ∧
    (∀ s : Settings, Settings.load s.store = .ok s) ∧
    (∀ margins : List Margin, Settings.load
      (.record [("halos", .list (margins.map Margin.store))]) = .ok ⟨margins, []⟩) ∧
    (∀ (d : Doc) (e : Endpoint),
      Endpoint.load d = .ok e ↔ d = e.store ∨ e.storeAsRecord? = some d) ∧
    (∀ (d : Doc) (i : Interval), Interval.load d = .ok i ↔
      ∃ first second start stop, d = .list [first, second] ∧ Endpoint.load first = .ok start ∧
        Endpoint.load second = .ok stop ∧ start ≤ stop ∧ i = .span start stop) ∧
    (∀ (d : Doc) (b : Box), Box.load d = .ok b ↔ ∃ ds axes, d = .list ds ∧
      List.Forall₂ (fun d i => Interval.load d = .ok i) ds axes ∧ 2 ≤ axes.length ∧
        b = .ofAxes axes) ∧
    (∀ (d : Doc) (i : Interval), Interval.load d = .ok i →
      (i.start < i.stop ∨ i.start = .zero ∧ i.stop = .zero) ∧ Interval.load i.store = .ok i) ∧
    ∀ (d : Doc) (b : Box), Box.load d = .ok b → 2 ≤ b.dim ∧
      ((∀ i ∈ b.axes, i.isEmpty = false) ∨ ∀ i ∈ b.axes, i.start = .zero ∧ i.stop = .zero) ∧
      Box.load b.store = .ok b := by
  refine ⟨Endpoint.load_store, Interval.load_store, fun b => Box.load_store, Margin.load_store,
    Settings.load_store, Settings.load_without_flags, fun d e => Endpoint.load_eq_ok,
    fun d i => Interval.load_eq_ok, fun d b => Box.load_eq_ok,
    fun d i _ => ⟨i.proper, Interval.load_store i⟩, fun d b run => ?_⟩
  have many := Box.two_le_dim_of_load run
  refine ⟨many, b.canonical.imp id fun void i axis => ?_, Box.load_store many⟩
  rw [void i axis]
  exact ⟨rfl, rfl⟩

namespace Sample

def quadrant : Box := .ofAxes [.span .negInf (.finite (coord 3)), .span .zero .posInf]

def hollow : Doc := .list [.list [Endpoint.store (.finite (coord 5)), Endpoint.store (.finite (coord 5))],
  (side 0 2).store]

end Sample

theorem stored_forms_quadrant : 2 ≤ Sample.quadrant.dim ∧
    Box.load Sample.quadrant.store = .ok Sample.quadrant ∧
    ∃ b, Box.load Sample.hollow = .ok b ∧ b.isEmpty = true ∧ 2 ≤ b.dim ∧
      ((∀ i ∈ b.axes, i.isEmpty = false) ∨ ∀ i ∈ b.axes, i.start = .zero ∧ i.stop = .zero) ∧
      Box.load b.store = .ok b := by
  have planar : 2 ≤ Sample.quadrant.dim := by decide +kernel
  have read : (Box.load Sample.hollow).map Box.isEmpty = .ok true := by decide +kernel
  obtain ⟨b, run, void⟩ := map_eq_ok.mp read
  obtain ⟨_, _, boxes, _, _, _, _, _, _, _, loaded⟩ := stored_forms
  exact ⟨planar, boxes Sample.quadrant planar, b, run, void, loaded Sample.hollow b run⟩

end GridRegions
