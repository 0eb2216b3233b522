import GridRegions.Box.Motion
import Mathlib.Data.List.Forall2

/-!
What a computation that succeeds has passed through.
-/
namespace GridRegions

theorem bind_eq_ok {ε α β : Type} {x : Except ε α} {f : α → Except ε β} {b : β} :
    (x >>= f) = .ok b ↔ ∃ a, x = .ok a ∧ f a = .ok b := by
  cases x with
  | error fault => simp [bind, Except.bind]
  | ok a => simp [bind, Except.bind]

theorem orOverflow_eq_ok {α : Type} {x : Option α} {a : α} :
    Fault.orOverflow x = .ok a ↔ x = some a := by
  cases x with
  | none => simp [Fault.orOverflow]
  | some b => simp [Fault.orOverflow]

theorem Endpoint.value_eq_ok {e : Endpoint} {c : Coord} : e.value = .ok c ↔ e = .finite c := by
  cases e <;> simp [value]

theorem checkDim_eq_ok {expected found : Nat} {u : Unit} :
    Fault.checkDim expected found = .ok u ↔ expected = found := by
  unfold Fault.checkDim
  split <;> simp_all

theorem guard_eq_ok {β : Type} {fails : Prop} [Decidable fails] {fault : Fault}
    {next : Unit → Except Fault β} {b : β} :
    (if fails then throw fault >>= next else next ()) = .ok b ↔ ¬ fails ∧ next () = .ok b := by
  split
  · rename_i failed
    constructor
    · intro run
      cases run
    · intro passed
      exact absurd failed passed.1
  · rename_i passed
    exact ⟨fun run => ⟨passed, run⟩, And.right⟩

theorem map_eq_ok {ε α β : Type} {x : Except ε α} {f : α → β} {b : β} :
    x.map f = .ok b ↔ ∃ a, x = .ok a ∧ f a = b := by
  cases x with
  | error fault => simp [Except.map]
  | ok a => simp [Except.map]

theorem mapM_eq_ok {ε α β : Type} {f : α → Except ε β} {as : List α} {bs : List β} :
    as.mapM f = .ok bs ↔ List.Forall₂ (fun a b => f a = .ok b) as bs := by
  constructor
  · intro run
    induction as generalizing bs with
    | nil =>
      cases run
      exact .nil
    | cons a as ih =>
      rw [List.mapM_cons] at run
      obtain ⟨b, first, run⟩ := bind_eq_ok.mp run
      obtain ⟨rest, later, run⟩ := bind_eq_ok.mp run
      cases run
      exact .cons first (ih later)
  · intro related
    induction related with
    | nil => rfl
    | cons first _ ih =>
      rw [List.mapM_cons]
      exact bind_eq_ok.mpr ⟨_, first, bind_eq_ok.mpr ⟨_, ih, rfl⟩⟩

theorem exists_mapM {ε α β : Type} {f : α → Except ε β} {as : List α}
    (each : ∀ a ∈ as, ∃ b, f a = .ok b) : ∃ bs, as.mapM f = .ok bs := by
  induction as with
  | nil => exact ⟨[], rfl⟩
  | cons a as ih =>
    obtain ⟨b, first⟩ := each a List.mem_cons_self
    obtain ⟨bs, later⟩ := ih fun c member => each c (List.mem_cons_of_mem a member)
    rw [List.mapM_cons]
    exact ⟨b :: bs, bind_eq_ok.mpr ⟨b, first, bind_eq_ok.mpr ⟨bs, later, rfl⟩⟩⟩

theorem exists_of_mapM_eq_error {ε α β : Type} {f : α → Except ε β} {as : List α} {fault : ε}
    (run : as.mapM f = .error fault) : ∃ a ∈ as, f a = .error fault := by
  induction as with
  | nil => cases run
  | cons a as ih =>
    rw [List.mapM_cons] at run
    cases first : f a with
    | error cause =>
      rw [first] at run
      cases run
      exact ⟨a, List.mem_cons_self, first⟩
    | ok b =>
      cases later : as.mapM f with
      | error cause =>
        rw [first, later] at run
        cases run
        obtain ⟨c, member, failed⟩ := ih later
        exact ⟨c, List.mem_cons_of_mem a member, failed⟩
      | ok bs =>
        rw [first, later] at run
        cases run

theorem alongAxes_cons_eq_ok {α β γ : Type} {f : α → β → Except Fault γ} {a : α} {as : List α}
    {b : β} {bs : List β} {cs : List γ} : alongAxes f (a :: as) (b :: bs) = .ok cs ↔
      ∃ c rest, f a b = .ok c ∧ alongAxes f as bs = .ok rest ∧ cs = c :: rest := by
  rw [alongAxes, bind_eq_ok]
  constructor
  · intro ⟨c, first, run⟩
    obtain ⟨rest, later, run⟩ := bind_eq_ok.mp run
    cases run
    exact ⟨c, rest, first, later, rfl⟩
  · intro ⟨c, rest, first, later, eq⟩
    exact ⟨c, first, bind_eq_ok.mpr ⟨rest, later, by rw [eq]; rfl⟩⟩

theorem exists_of_alongAxes_eq_error {α β γ : Type} {f : α → β → Except Fault γ} {as : List α}
    {bs : List β} {fault : Fault} (run : alongAxes f as bs = .error fault) :
    ∃ a ∈ as, ∃ b ∈ bs, f a b = .error fault := by
  induction as generalizing bs with
  | nil => cases run
  | cons a as ih =>
    cases bs with
    | nil => cases run
    | cons b bs =>
      rw [alongAxes] at run
      cases first : f a b with
      | error cause =>
        rw [first] at run
        cases run
        exact ⟨a, List.mem_cons_self, b, List.mem_cons_self, first⟩
      | ok c =>
        cases later : alongAxes f as bs with
        | error cause =>
          rw [first, later] at run
          cases run
          obtain ⟨d, member, e, member', failed⟩ := ih later
          exact ⟨d, List.mem_cons_of_mem a member, e, List.mem_cons_of_mem b member', failed⟩
        | ok cs =>
          rw [first, later] at run
          cases run

theorem forall₂_replicate_iff {α β : Type} {R : α → β → Prop} {as : List α} {b : β} :
    List.Forall₂ R as (List.replicate as.length b) ↔ ∀ a ∈ as, R a b := by
  rw [← List.map_const', List.forall₂_map_right_iff, List.forall₂_same]

theorem exists_alongAxes_iff {α β γ : Type} {f : α → β → Except Fault γ} {room : α → β → Prop}
    {as : List α} {bs : List β} (each : ∀ a ∈ as, ∀ b, (∃ c, f a b = .ok c) ↔ room a b)
    (same : as.length = bs.length) :
    (∃ cs, alongAxes f as bs = .ok cs) ↔ List.Forall₂ room as bs := by
  induction as generalizing bs with
  | nil =>
    rw [List.length_eq_zero_iff.mp same.symm]
    exact iff_of_true ⟨[], rfl⟩ .nil
  | cons a as ih =>
    cases bs with
    | nil => simp at same
    | cons b bs =>
      have rest := ih (fun c member => each c (List.mem_cons_of_mem a member)) (Nat.succ.inj same)
      rw [List.forall₂_cons, ← each a List.mem_cons_self, ← rest]
      simp only [alongAxes_cons_eq_ok]
      constructor
      · intro ⟨_, c, cs, first, later, _⟩
        exact ⟨⟨c, first⟩, cs, later⟩
      · intro ⟨⟨c, first⟩, cs, later⟩
        exact ⟨c :: cs, c, cs, first, later, rfl⟩

theorem length_of_alongAxes {α β γ : Type} {f : α → β → Except Fault γ} {as : List α}
    {bs : List β} {cs : List γ} (same : as.length = bs.length)
    (run : alongAxes f as bs = .ok cs) : cs.length = as.length := by
  induction as generalizing bs cs with
  | nil =>
    cases run
    rfl
  | cons a as ih =>
    cases bs with
    | nil => simp at same
    | cons b bs =>
      obtain ⟨c, rest, _, later, rfl⟩ := alongAxes_cons_eq_ok.mp run
      exact congrArg (· + 1) (ih (Nat.succ.inj same) later)

theorem exists_of_forall₂ {α β : Type} {R : α → β → Prop} {as : List α} {bs : List β}
    (related : List.Forall₂ R as bs) {b : β} (member : b ∈ bs) : ∃ a ∈ as, R a b := by
  induction related with
  | nil => simp at member
  | cons head _ ih =>
    rcases List.mem_cons.mp member with rfl | later
    · exact ⟨_, List.mem_cons_self, head⟩
    · obtain ⟨a, old, rel⟩ := ih later
      exact ⟨a, List.mem_cons_of_mem _ old, rel⟩

theorem pairwise_of_forall₂ {α β : Type} {R : α → β → Prop} {S : α → α → Prop}
    {T : β → β → Prop} {as : List α} {bs : List β} (related : List.Forall₂ R as bs)
    (carry : ∀ a ∈ as, ∀ a' ∈ as, ∀ b b', R a b → R a' b' → S a a' → T b b')
    (pairs : as.Pairwise S) : bs.Pairwise T := by
  induction related with
  | nil => exact .nil
  | cons head tail ih =>
    obtain ⟨first, rest⟩ := List.pairwise_cons.mp pairs
    apply List.pairwise_cons.mpr
    constructor
    · intro b member
      obtain ⟨a, old, rel⟩ := exists_of_forall₂ tail member
      exact carry _ List.mem_cons_self a (List.mem_cons_of_mem _ old) _ b head rel (first a old)
    · apply ih _ rest
      intro a old a' old'
      exact carry a (List.mem_cons_of_mem _ old) a' (List.mem_cons_of_mem _ old')

theorem forall₂_of_runs {α β γ δ : Type} {R : α → β → Prop} {P : α → γ → Prop} {Q : β → δ → Prop}
    {S : γ → δ → Prop} {as : List α} {bs : List β} {cs : List γ} {ds : List δ}
    (step : ∀ a b c d, R a b → P a c → Q b d → S c d) (related : List.Forall₂ R as bs)
    (first : List.Forall₂ P as cs) (second : List.Forall₂ Q bs ds) : List.Forall₂ S cs ds := by
  induction related generalizing cs ds with
  | nil =>
    cases first
    cases second
    exact .nil
  | cons head _ ih =>
    cases first with
    | cons headP tailP =>
      cases second with
      | cons headQ tailQ => exact .cons (step _ _ _ _ head headP headQ) (ih tailP tailQ)

end GridRegions
