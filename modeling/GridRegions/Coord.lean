/-!
A coordinate is a whole number that fits a signed 64-bit word. Sums are taken over all whole
numbers and brought back by `ofInt?`, so that a coordinate never wraps.
-/
namespace GridRegions

@[ext] structure Coord where
  val : Int
  lower : -9223372036854775808 ≤ val
  upper : val < 9223372036854775808
  deriving DecidableEq, Repr

/-- One whole coordinate per axis. -/
abbrev Cell := List Coord

namespace Coord

def zero : Coord := ⟨0, by decide, by decide⟩

/-- The whole number as a coordinate, if it fits. -/
def ofInt? (x : Int) : Option Coord :=
  if fits : -9223372036854775808 ≤ x ∧ x < 9223372036854775808 then
    some ⟨x, fits.1, fits.2⟩
  else none

def shift? (c : Coord) (delta : Int) : Option Coord := ofInt? (c.val + delta)

def neg? (c : Coord) : Option Coord := ofInt? (-c.val)

theorem ofInt?_eq_some_iff {x : Int} {c : Coord} : ofInt? x = some c ↔ x = c.val := by
  unfold ofInt?
  constructor
  · intro h
    split at h
    · exact congrArg val (Option.some.inj h)
    · exact absurd h (by simp)
  · intro h
    subst h
    simp [c.lower, c.upper]

@[simp] theorem ofInt?_val (c : Coord) : ofInt? c.val = some c :=
  ofInt?_eq_some_iff.mpr rfl

end Coord

end GridRegions
