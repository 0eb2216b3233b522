import GridRegions.Halo.Fragment
import GridRegions.Stored.Doc

/-!
The stored form of each kind of value: `store` writes it and `load` reads it back, with the checks
that the value needs.
-/
namespace GridRegions

/-- Why a document holds no value: it has another shape, or it breaks a rule of the value. -/
inductive Unreadable where
  | shape
  | fault (cause : Fault)
  deriving DecidableEq, Repr

namespace Doc

def coord : Doc → Except Unreadable Coord
  | .int n =>
    match Coord.ofInt? n with
    | some c => .ok c
    | none => .error .shape
  | _ => .error .shape

def flag : Doc → Except Unreadable Bool
  | .bool b => .ok b
  | _ => .error .shape

/-- The items of a list, each read by `read`; the first that can not be read decides. -/
def items {α : Type} (read : Doc → Except Unreadable α) : Doc → Except Unreadable (List α)
  | .list ds => ds.mapM read
  | _ => .error .shape

end Doc

/-- A value that was read, if it keeps the rules. -/
def Unreadable.unlessFault {α : Type} : Except Fault α → Except Unreadable α
  | .ok a => .ok a
  | .error cause => .error (.fault cause)

namespace Endpoint

def store : Endpoint → Doc
  | .negInf => .text "NegInf"
  | .finite c => .record [("Finite", .int c.val)]
  | .posInf => .text "PosInf"

/- An infinite end may also be written as a record, with nothing in it. -/
def load : Doc → Except Unreadable Endpoint
  | .text s =>
    if s = "NegInf" then .ok .negInf else if s = "PosInf" then .ok .posInf else .error .shape
  | .record [(name, content)] =>
    if name = "Finite" then content.coord.map .finite
    else
      match content with
      | .null =>
        if name = "NegInf" then .ok .negInf
        else if name = "PosInf" then .ok .posInf
        else .error .shape
      | _ => .error .shape
  | _ => .error .shape

end Endpoint

namespace Interval

def store (i : Interval) : Doc := .list [i.start.store, i.stop.store]

def load : Doc → Except Unreadable Interval
  | .list [first, second] => do
    let start ← Endpoint.load first
    let stop ← Endpoint.load second
    Unreadable.unlessFault (ofEnds start stop)
  | _ => .error .shape

end Interval

namespace Box

def store (b : Box) : Doc := .list (b.axes.map Interval.store)

def load (d : Doc) : Except Unreadable Box := do
  Unreadable.unlessFault (ofIntervals (← d.items Interval.load))

end Box

namespace Margin

def store (m : Margin) : Doc :=
  if m.before = m.after then .int m.before.val
  else .list [.int m.before.val, .int m.after.val]

def load : Doc → Except Unreadable Margin
  | .list [first, second] => do
    let before ← first.coord
    let after ← second.coord
    return ⟨before, after⟩
  | .list _ => .error .shape
  | d => d.coord.map symmetric

end Margin

namespace Settings

def store (s : Settings) : Doc :=
  .record [("halos", .list (s.margins.map Margin.store)),
    ("periodic", .list (s.periodic.map Doc.bool))]

def loadParts (margins : Doc) (periodic : Option Doc) : Except Unreadable Settings := do
  let margins ← margins.items Margin.load
  let periodic ← match periodic with
    | some flags => flags.items Doc.flag
    | none => .ok []
  return ⟨margins, periodic⟩

/- Fields by name, or in order; the flags may be left out. -/
def load : Doc → Except Unreadable Settings
  | .list [margins] => loadParts margins none
  | .list [margins, periodic] => loadParts margins (some periodic)
  | d =>
    match d.field? "halos" with
    | some margins => loadParts margins (d.field? "periodic")
    | none => .error .shape

end Settings

def Fragment.store (f : Fragment) : Doc :=
  .record [("local", f.relative.store), ("global", f.absolute.store)]

end GridRegions
