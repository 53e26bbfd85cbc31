import Mathlib.Data.Rat.Init

/-! JSON as Python reads it: a column's value, or a document. -/

namespace OmniSense

inductive Json
  | null
  | bool (b : Bool)
  | number (q : ℚ)
  | str (s : String)
  | array (items : List Json)
  | object (fields : List (String × Json))

namespace Json

def truthy : Json → Bool
  | .null => false
  | .bool b => b
  | .number q => q ≠ 0
  | .str s => s ≠ ""
  | .array items => !items.isEmpty
  | .object fields => !fields.isEmpty

variable (fields : List (String × Json))

/-- `mapping.get(key)`. -/
def get (key : String) : Option Json :=
  (fields.find? fun field => field.1 = key).map Prod.snd

/-- `mapping.get(key) or ..`: a falsy value counts as none. -/
def getTrue (key : String) : Option Json :=
  (get fields key).filter truthy

/-- `mapping.get(key) or mapping.get(other)`. -/
def getOr (key other : String) : Option Json :=
  (getTrue fields key).or (get fields other)

def asString : Json → Option String
  | .str s => some s
  | _ => none

def asMapping : Json → Option (List (String × Json))
  | .object fields => some fields
  | _ => none

/-- What `len` counts and `for` goes through; numbers have neither. -/
def elements : Json → Option (List Json)
  | .array items => some items
  | .object fields => some (fields.map fun field => .str field.1)
  | .str s => some (s.toList.map fun ch => .str ch.toString)
  | _ => none

end Json

end OmniSense
