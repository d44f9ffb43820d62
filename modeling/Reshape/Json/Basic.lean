import Reshape.Entries

/-!
# JSON documents

Documents with ordered keys, in which whole numbers and floating numbers are kept apart.
-/

namespace Reshape

inductive Json where
  | null
  | bool (b : Bool)
  | int (n : Int)
  | float (x : Float)
  | str (s : String)
  | arr (items : List Json)
  | obj (entries : List (String × Json))
deriving Inhabited

namespace Json

def get? : Json → String → Option Json
  | obj es, key => Entries.get? es key
  | _, _ => none

def str? : Json → Option String
  | str s => some s
  | _ => none

/-- Is this the literal `true`? -/
def isTrue : Json → Bool
  | bool b => b
  | _ => false

end Json

end Reshape
