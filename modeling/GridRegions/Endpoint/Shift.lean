import GridRegions.Fault

/-!
Moving an end, and reading its coordinate. Infinite ends stay where they are and have none.
-/
namespace GridRegions.Endpoint

def value : Endpoint → Except Fault Coord
  | .finite x => .ok x
  | _ => .error .unbounded

def shift (e : Endpoint) (delta : Int) : Except Fault Endpoint :=
  match e with
  | .finite x => (Fault.orOverflow (x.shift? delta)).map .finite
  | unmoved => .ok unmoved

end GridRegions.Endpoint
