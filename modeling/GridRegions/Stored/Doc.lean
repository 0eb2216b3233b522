/-!
Documents in which values are stored: nested lists and records of plain data.
-/
namespace GridRegions

inductive Doc where
  | null
  | bool (b : Bool)
  | int (n : Int)
  | real (literal : String)
  | text (s : String)
  | list (items : List Doc)
  | record (fields : List (String × Doc))

namespace Doc

/-- The content of a field; only a record has any. -/
def field? (name : String) : Doc → Option Doc
  | .record fields => fields.lookup name
  | _ => none

end Doc

end GridRegions
