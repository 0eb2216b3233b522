import GridRegions.Endpoint.Basic

/-!
The order of ends against whole numbers: an end below another is also at most every number that
the other is at most, and between two different ends there is a number.
-/
namespace GridRegions.Endpoint

theorem le_iff_rank {a b : Endpoint} : a ≤ b ↔ a.rank ≤ b.rank := Iff.rfl

theorem lt_iff_rank {a b : Endpoint} : a < b ↔ a.rank < b.rank := Iff.rfl

theorem not_lt {a b : Endpoint} : ¬ a < b ↔ b ≤ a := by
  rw [lt_iff_rank, le_iff_rank]
  omega

theorem not_le {a b : Endpoint} : ¬ a ≤ b ↔ b < a := by
  rw [lt_iff_rank, le_iff_rank]
  omega

theorem le_of_lt {a b : Endpoint} (lt : a < b) : a ≤ b := by
  rw [lt_iff_rank] at lt
  rw [le_iff_rank]
  omega

theorem max_eq_of_le {a b : Endpoint} (le : a ≤ b) : max a b = b := if_pos le

theorem max_eq_of_lt {a b : Endpoint} (lt : b < a) : max a b = a := if_neg (not_le.mpr lt)

theorem min_eq_of_le {a b : Endpoint} (le : a ≤ b) : min a b = a := if_pos le

theorem min_eq_of_lt {a b : Endpoint} (lt : b < a) : min a b = b := if_neg (not_le.mpr lt)

theorem AtMost.of_le {a b : Endpoint} {x : Int} (le : a ≤ b) (h : b.AtMost x) : a.AtMost x := by
  rw [le_iff_rank] at le
  cases a with
  | negInf => trivial
  | finite c =>
    cases b with
    | negInf => have := c.lower; simp only [rank] at le; omega
    | finite d => simp only [rank, AtMost] at *; omega
    | posInf => exact h.elim
  | posInf =>
    cases b with
    | negInf => simp [rank] at le
    | finite d => have := d.upper; simp only [rank] at le; omega
    | posInf => exact h

theorem AtMost.mono {e : Endpoint} {x y : Int} (h : e.AtMost x) (le : x ≤ y) : e.AtMost y := by
  cases e with
  | negInf => trivial
  | finite c => exact Int.le_trans h le
  | posInf => exact h

/-- There is a whole number from `a` on that comes before `b`. -/
theorem exists_between {a b : Endpoint} (lt : a < b) : ∃ x, a.AtMost x ∧ ¬ b.AtMost x := by
  rw [lt_iff_rank] at lt
  cases a with
  | negInf =>
    cases b with
    | negInf => omega
    | finite d => exact ⟨d.val - 1, trivial, by simp only [AtMost]; omega⟩
    | posInf => exact ⟨0, trivial, id⟩
  | finite c =>
    cases b with
    | negInf => have := c.lower; simp only [rank] at lt; omega
    | finite d => exact ⟨c.val, Int.le_refl _, by simp only [rank, AtMost] at *; omega⟩
    | posInf => exact ⟨c.val, Int.le_refl _, id⟩
  | posInf =>
    cases b with
    | negInf => simp [rank] at lt
    | finite d => have := d.upper; simp only [rank] at lt; omega
    | posInf => omega

theorem atMost_max {a b : Endpoint} {x : Int} : (max a b).AtMost x ↔ a.AtMost x ∧ b.AtMost x := by
  by_cases le : a ≤ b
  · rw [max_eq_of_le le]
    exact ⟨fun h => ⟨h.of_le le, h⟩, And.right⟩
  · have lt := not_le.mp le
    rw [max_eq_of_lt lt]
    exact ⟨fun h => ⟨h, h.of_le (Int.le_of_lt lt)⟩, And.left⟩

theorem atMost_min {a b : Endpoint} {x : Int} : (min a b).AtMost x ↔ a.AtMost x ∨ b.AtMost x := by
  by_cases le : a ≤ b
  · rw [min_eq_of_le le]
    exact ⟨Or.inl, fun h => h.elim id fun hb => hb.of_le le⟩
  · have lt := not_le.mp le
    rw [min_eq_of_lt lt]
    exact ⟨Or.inr, fun h => h.elim (fun ha => ha.of_le (Int.le_of_lt lt)) id⟩

theorem finite_le_iff_atMost {e : Endpoint} {c : Coord} : e ≤ .finite c ↔ e.AtMost c.val := by
  rw [le_iff_rank]
  cases e with
  | negInf =>
    have := c.lower
    exact ⟨fun _ => trivial, fun _ => by simp only [rank]; omega⟩
  | finite d => rfl
  | posInf =>
    have := c.upper
    exact ⟨fun le => by simp only [rank] at le; omega, False.elim⟩

end GridRegions.Endpoint
