import GridRegions.Box.Carve
import GridRegions.Walk

/-!
Regions: finite unions of boxes of one dimension. A region of one dimension is made of boxes with
one axis. `disjoint` is a promise that no two parts share a point; whoever builds the region makes
it, and with fewer than two parts there is nothing to promise.
-/
namespace GridRegions

@[ext] structure Region where
  dim : Nat
  parts : List Box
  disjoint : Bool
  sameDim : ∀ b ∈ parts, b.dim = dim
  solid : ∀ b ∈ parts, b.isEmpty = false
  settled : parts.length < 2 → disjoint = true
  deriving DecidableEq, Repr

namespace Region

/-- The point lies in some part. -/
def Mem (r : Region) (p : List Int) : Prop := ∃ b ∈ r.parts, b.Mem p

/-- The promise is kept. -/
def Truthful (r : Region) : Prop := r.disjoint = true → r.parts.Pairwise Box.Apart

/-- The region of the boxes that have this dimension and are not empty, in order. -/
def ofParts (dim : Nat) (boxes : List Box) (disjoint : Bool) : Region :=
  let parts := boxes.filter fun b => b.dim == dim && !b.isEmpty
  { dim, parts
    disjoint := disjoint || decide (parts.length < 2)
    sameDim := fun b member => by
      have kept := (List.mem_filter.mp member).2
      simp only [Bool.and_eq_true, beq_iff_eq] at kept
      exact kept.1
    solid := fun b member => by
      have kept := (List.mem_filter.mp member).2
      simp only [Bool.and_eq_true, Bool.not_eq_true'] at kept
      exact kept.2
    settled := fun few => by simp [few] }

/-- The region of the boxes that are not empty, in order, if all of them have this dimension. -/
def assemble? (dim : Nat) (boxes : List Box) (disjoint : Bool) : Option Region :=
  if boxes.all (·.dim == dim) then some (ofParts dim boxes disjoint) else none

def ofBox (b : Box) : Region := ofParts b.dim [b] true

def ofInterval (i : Interval) : Region := ofBox (.line i)

/- No region has fewer than one axis. -/
def empty (dim : Nat) : Region := ofBox (.empty (if dim = 0 then 1 else dim))

def whole (dim : Nat) : Region := ofBox (.whole (if dim = 0 then 1 else dim))

def isEmpty (r : Region) : Bool := r.parts.isEmpty

def shape (r : Region) : Shape :=
  match r.parts, decide (r.dim < 2) with
  | _ :: _ :: _, true => .intervalUnion
  | _ :: _ :: _, false => .boxUnion
  | _, true => .interval
  | _, false => .box

/-- The parts, or the empty box if there are none. -/
def components (r : Region) : List Box :=
  if r.parts.isEmpty then [.empty r.dim] else r.parts

/-- The smallest box around all parts. -/
def hull (r : Region) : Box := r.parts.foldl Box.hull (.empty r.dim)

def contains (r : Region) (c : Cell) : Bool := r.parts.any (·.contains c)

/-- A walk over the parts in order; a point of several parts is met in each. -/
def walk (r : Region) : Except Fault Walk := Walk.ofBoxes r.parts

def text (r : Region) : String :=
  match r.parts with
  | [] => (Box.empty r.dim).text
  | [b] => b.text
  | parts => "union(" ++ String.intercalate ", " (parts.map Box.text) ++ ")"

end Region

end GridRegions
