import GridRegions.Endpoint.Basic

/-!
What can go wrong, by cause. The wording of every cause stands in `Fault.message`.
-/
namespace GridRegions

/-- The four shapes of a region: one range, one box, or two and more of either. -/
inductive Shape where
  | interval
  | box
  | intervalUnion
  | boxUnion
  deriving DecidableEq, Repr

def Shape.name : Shape → String
  | .interval => "Interval"
  | .box => "Box"
  | .intervalUnion => "IntervalUnion"
  | .boxUnion => "BoxUnion"

/-- What an operand was needed for. -/
inductive Use where
  | extended
  | shrunk
  | shifted
  | subdomain
  | globalDomain
  deriving DecidableEq, Repr

def Use.text : Use → String
  | .extended => "extended"
  | .shrunk => "shrunk"
  | .shifted => "translated"
  | .subdomain => "used as a domain"
  | .globalDomain => "used as the global domain"

/-- The two ways to move the ends of a range apart or together. -/
inductive Resizing where
  | extend
  | shrink
  deriving DecidableEq, Repr

def Resizing.name : Resizing → String
  | .extend => "extend"
  | .shrink => "shrink"

def Resizing.use : Resizing → Use
  | .extend => .extended
  | .shrink => .shrunk

inductive Fault where
  | reversedEnds (start stop : Endpoint)
  | tooFewParts (count : Nat)
  | emptyPart
  | tooFewAxes (count : Nat)
  | dimensionMismatch (expected found : Nat)
  | emptyOperand (use : Use)
  | indexOutOfRange (index : Int) (size : Nat)
  | unsupportedStep (step : Int)
  | unresizableUnion (how : Resizing) (shape : Shape)
  | unbounded
  | overflow
  | haloTooWide (axis : Nat) (width : Int) (extent : Nat)
  | outsideGlobal (id : Int)
  deriving DecidableEq, Repr

namespace Fault

def message : Fault → String
  | .reversedEnds start stop =>
    s!"malformed interval: stop {stop.text} is below start {start.text}"
  | .tooFewParts count => s!"a union needs at least two components, got {count}; use `union` instead"
  | .emptyPart => "empty set given as a union component; use `union` instead"
  | .tooFewAxes count => s!"a box needs at least two axes, got {count}"
  | .dimensionMismatch expected found =>
    s!"dimension mismatch: expected {expected}, found {found}"
  | .emptyOperand use => s!"the empty set can not be {use.text}"
  | .indexOutOfRange index size => s!"index {index} out of range for an axis of size {size}"
  | .unsupportedStep step => s!"slice step {step} is not supported, only unit steps are"
  | .unresizableUnion how shape =>
    s!"unsupported operand combination: {how.name} on {shape.name}"
  | .unbounded => "operation requires a bounded set"
  | .overflow => "coordinate overflow"
  | .haloTooWide axis width extent =>
    s!"halo width {width} on periodic axis {axis} exceeds the global extent {extent}"
  | .outsideGlobal id => s!"domain {id} is not inside the global domain"

/-- A value that left the coordinates is an overflow. -/
def orOverflow {α : Type} : Option α → Except Fault α
  | some a => .ok a
  | none => .error .overflow

/-- Both counts of axes must agree. -/
def checkDim (expected found : Nat) : Except Fault Unit :=
  if expected = found then .ok () else .error (.dimensionMismatch expected found)

end Fault

end GridRegions
