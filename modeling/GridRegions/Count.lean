/-!
Counts of cells. A count that no longer fits an unsigned 64-bit word, or that is infinite, is
given as the largest such word.
-/
namespace GridRegions.Count

def cap : Nat := 18446744073709551615

def saturate (n : Nat) : Nat := if n ≤ cap then n else cap

/-- The product of the counts, saturated at each step. -/
def product (ns : List Nat) : Nat := ns.foldl (fun acc n => saturate (acc * n)) 1

/-- The sum of the counts, saturated at each step. -/
def total (ns : List Nat) : Nat := ns.foldl (fun acc n => saturate (acc + n)) 0

theorem saturate_of_le {n : Nat} (h : n ≤ cap) : saturate n = n := by
  simp [saturate, h]

theorem saturate_of_cap_le {n : Nat} (h : cap ≤ n) : saturate n = cap := by
  unfold saturate
  split <;> omega

theorem saturate_mul (acc n : Nat) : saturate (saturate acc * n) = saturate (acc * n) := by
  by_cases small : acc ≤ cap
  · rw [saturate_of_le small]
  · have large : cap ≤ acc := Nat.le_of_not_le small
    rw [saturate_of_cap_le large]
    cases n with
    | zero => rfl
    | succ n =>
      have wide : cap ≤ cap * (n + 1) := Nat.le_mul_of_pos_right cap n.succ_pos
      have wider : cap * (n + 1) ≤ acc * (n + 1) := Nat.mul_le_mul_right (n + 1) large
      rw [saturate_of_cap_le wide, saturate_of_cap_le (Nat.le_trans wide wider)]

theorem saturate_add (acc n : Nat) : saturate (saturate acc + n) = saturate (acc + n) := by
  by_cases small : acc ≤ cap
  · rw [saturate_of_le small]
  · have large : cap ≤ acc := Nat.le_of_not_le small
    rw [saturate_of_cap_le large, saturate_of_cap_le (Nat.le_add_right cap n),
      saturate_of_cap_le (Nat.le_trans large (Nat.le_add_right acc n))]

/- Saturating at each step is no different from saturating once: a product that has passed the largest
   count stays there unless a zero follows, which makes it zero either way. -/
theorem foldl_saturate {op : Nat → Nat → Nat} (assoc : ∀ a b c, op (op a b) c = op a (op b c))
    (absorb : ∀ acc n, saturate (op (saturate acc) n) = saturate (op acc n)) {unit : Nat}
    (right : ∀ a, op a unit = a) (ns : List Nat) (acc : Nat) :
    ns.foldl (fun acc n => saturate (op acc n)) (saturate acc) =
      saturate (op acc (ns.foldr op unit)) := by
  induction ns generalizing acc with
  | nil => rw [List.foldl_nil, List.foldr_nil, right]
  | cons n ns ih => rw [List.foldl_cons, List.foldr_cons, absorb, ih, assoc]

theorem product_eq (ns : List Nat) : product ns = saturate (ns.foldr (· * ·) 1) := by
  have once := foldl_saturate Nat.mul_assoc saturate_mul Nat.mul_one ns 1
  rwa [Nat.one_mul] at once

theorem total_eq (ns : List Nat) : total ns = saturate (ns.foldr (· + ·) 0) := by
  have once := foldl_saturate Nat.add_assoc saturate_add Nat.add_zero ns 0
  rwa [Nat.zero_add] at once

end GridRegions.Count
