/-!
# JSON values

Numbers come in two sorts: integers that fit in 64 bits, signed or not, and all others, which no operation here
reads and which keep their text. Objects keep the order of their fields. A value can follow the grammar and still
stand for nothing, such as half of a surrogate pair; it does no harm where nobody asks for it.
-/

namespace SexprEdit

/-- A JSON value. -/
inductive Json where
  | null
  | bool (value : Bool)
  | integer (value : Int)
  | decimal (text : String)
  | string (value : String)
  | array (items : List Json)
  | object (fields : List (String × Json))
  | illFormed

namespace Json

def isIllFormed : Json → Bool
  | illFormed => true
  | _ => false

def nat (n : Nat) : Json :=
  integer n

def option (encode : α → Json) : Option α → Json
  | some a => encode a
  | none => null

def named (name : String) : Json → List Json
  | object fields => (fields.filter (·.1 == name)).map (·.2)
  | _ => []

/-- A field that may be absent. If it is there it stands once and decodes. -/
def optional? (name : String) (decode : Json → Option α) (absent : α) (j : Json) : Option α :=
  match j.named name with
  | [] => some absent
  | [value] => decode value
  | _ => none

def required? (name : String) (decode : Json → Option α) (j : Json) : Option α :=
  match j.named name with
  | [value] => decode value
  | _ => none

/-- A natural number below 2^64. -/
def nat? : Json → Option Nat
  | integer (.ofNat n) => if n < Nat.pow 2 64 then some n else none
  | _ => none

def bool? : Json → Option Bool
  | bool b => some b
  | _ => none

def string? : Json → Option String
  | string s => some s
  | _ => none

def array? : Json → Option (List Json)
  | array items => some items
  | _ => none

def arrayOf? (decode : Json → Option α) : Json → Option (List α)
  | array items => items.mapM decode
  | _ => none

def object? : Json → Option (List (String × Json))
  | object fields => some fields
  | _ => none

end Json

end SexprEdit
