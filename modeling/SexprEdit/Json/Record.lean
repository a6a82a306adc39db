import SexprEdit.Json.Basic

/-!
# Records and choices in JSON

A record is written as an object, or as the list of its values in the order of its fields, in which values at the end
may be left out. A choice among names is written as the name, or as an object with the name for its only key and
nothing to go with it.
-/

namespace SexprEdit.Json

/-- The fields of a record by name. -/
abbrev Fields := String → Option Json

/-- The fields of a record, given their names in order. In an object none of them stands twice, and others are
passed over; a list has no value beyond them. -/
def record? (names : List String) : Json → Option Fields
  | object fields =>
    if names.all fun name => fields.countP (·.1 == name) ≤ 1 then some fun name => fields.lookup name else none
  | array items =>
    if items.length ≤ names.length then some fun name => (names.zip items).lookup name else none
  | _ => none

namespace Fields

def get? (fields : Fields) (name : String) (decode : Json → Option α) : Option α :=
  (fields name).bind decode

def getD? (fields : Fields) (name : String) (decode : Json → Option α) (absent : α) : Option α :=
  match fields name with
  | some value => decode value
  | none => some absent

end Fields

def choice? : Json → Option String
  | string name => some name
  | object [(name, null)] => some name
  | object [(name, object [])] => some name
  | _ => none

end SexprEdit.Json
