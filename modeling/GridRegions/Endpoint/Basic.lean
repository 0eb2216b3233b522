import GridRegions.Coord
import GridRegions.Count

/-!
The end of a range along one axis: a coordinate, or one of the two infinite ends.
-/
namespace GridRegions

inductive Endpoint where
  | negInf
  | finite (x : Coord)
  | posInf
  deriving DecidableEq, Repr

namespace Endpoint

def zero : Endpoint := .finite .zero

def isFinite : Endpoint → Bool
  | .finite _ => true
  | _ => false

/- Ends are compared on one line, where the infinite ends stand one step outside the coordinates. -/
def rank : Endpoint → Int
  | .negInf => -9223372036854775809
  | .finite x => x.val
  | .posInf => 9223372036854775808

instance : LE Endpoint := ⟨fun a b => a.rank ≤ b.rank⟩

instance : LT Endpoint := ⟨fun a b => a.rank < b.rank⟩

instance (a b : Endpoint) : Decidable (a ≤ b) := inferInstanceAs (Decidable (a.rank ≤ b.rank))

instance (a b : Endpoint) : Decidable (a < b) := inferInstanceAs (Decidable (a.rank < b.rank))

instance : Max Endpoint := ⟨fun a b => if a ≤ b then b else a⟩

instance : Min Endpoint := ⟨fun a b => if a ≤ b then a else b⟩

instance : Ord Endpoint := ⟨fun a b => if a < b then .lt else if a = b then .eq else .gt⟩

/-- The end lies at or below the whole number. -/
def AtMost : Endpoint → Int → Prop
  | .negInf, _ => True
  | .finite c, x => c.val ≤ x
  | .posInf, _ => False

instance (e : Endpoint) (x : Int) : Decidable (e.AtMost x) :=
  match e with
  | .negInf => isTrue trivial
  | .finite c => inferInstanceAs (Decidable (c.val ≤ x))
  | .posInf => isFalse id

/-- Count of the whole numbers from `lower` up to and without `upper`. -/
def gap (lower upper : Endpoint) : Nat :=
  if upper ≤ lower then 0
  else
    match lower, upper with
    | .finite l, .finite u => (u.val - l.val).toNat
    | _, _ => Count.cap

def text : Endpoint → String
  | .negInf => "-inf"
  | .finite x => toString x.val
  | .posInf => "inf"

/-- The name of the case, with the coordinate of a finite end. -/
def caseText : Endpoint → String
  | .negInf => "NegInf"
  | .finite x => "Finite(" ++ toString x.val ++ ")"
  | .posInf => "PosInf"

theorem rank_inj {a b : Endpoint} (same : a.rank = b.rank) : a = b := by
  cases a with
  | negInf =>
    cases b with
    | negInf => rfl
    | finite y => have := y.lower; simp only [rank] at same; omega
    | posInf => simp [rank] at same
  | finite x =>
    have := x.lower
    have := x.upper
    cases b with
    | negInf => simp only [rank] at same; omega
    | finite y => exact congrArg finite (Coord.ext same)
    | posInf => simp only [rank] at same; omega
  | posInf =>
    cases b with
    | negInf => simp [rank] at same
    | finite y => have := y.upper; simp only [rank] at same; omega
    | posInf => rfl

theorem gap_le_cap (lower upper : Endpoint) : gap lower upper ≤ Count.cap := by
  unfold gap
  split
  · exact Nat.zero_le _
  · split
    · rename_i l u _
      have := l.lower
      have := u.upper
      simp only [Count.cap]
      omega
    · exact Nat.le_refl _

end Endpoint

end GridRegions
