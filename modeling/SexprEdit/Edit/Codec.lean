import SexprEdit.Edit.Mutation
import SexprEdit.Json.Record

/-!
# Mutations and settings as JSON

Decoding is strict about what it knows: a field that is there stands once and has a value of its type. Fields that
it does not know are passed over. A mutation is an object with its name in the field `op`, or a list with its name in
front.
-/

namespace SexprEdit

def Text.ofJson? (j : Json) : Option Text :=
  j.string?.map String.toList

def Text.toJson (t : Text) : Json :=
  .string (String.ofList t)

def MatchOptions.ofJson? (j : Json) : Option MatchOptions := do
  let fields ← j.record? ["exactMatch", "caseSensitive"]
  return ⟨← fields.getD? "exactMatch" Json.bool? true, ← fields.getD? "caseSensitive" Json.bool? true⟩

def Direction.ofName? : String → Option Direction
  | "down" => some .down
  | "up" => some .up
  | "left" => some .left
  | "right" => some .right
  | "root" => some .root
  | "next" => some .next
  | "prev" => some .prev
  | "leftmost" => some .leftmost
  | "rightmost" => some .rightmost
  | _ => none

def Direction.ofJson? (j : Json) : Option Direction :=
  j.choice?.bind Direction.ofName?

def ThreadStyle.ofName? : String → Option ThreadStyle
  | "first" => some .first
  | "last" => some .last
  | _ => none

def ThreadStyle.ofJson? (j : Json) : Option ThreadStyle :=
  j.choice?.bind ThreadStyle.ofName?

namespace Mutation

/-- A mutation, given its name and the record of its arguments. -/
def ofNamed? (name : String) (arguments : Json) : Option Mutation :=
  match name with
  | "navigate" => do return navigate (← (← arguments.record? ["direction"]).get? "direction" Direction.ofJson?)
  | "goto" => do return goto (← (← arguments.record? ["path"]).get? "path" (Json.arrayOf? Json.nat?))
  | "replace" => do return replace (← fragment?)
  | "insert_before" => do return insertBefore (← fragment?)
  | "insert_after" => do return insertAfter (← fragment?)
  | "insert_child" => do return insertChild (← fragment?)
  | "append_child" => do return appendChild (← fragment?)
  | "remove" => do
    let _ ← arguments.record? []
    return remove
  | "bulk_replace" => do
    let fields ← arguments.record? ["query", "replacement", "options"]
    return rename (← fields.get? "query" Text.ofJson?) (← fields.get? "replacement" Text.ofJson?)
      (← fields.getD? "options" MatchOptions.ofJson? {})
  | "extract_to_let" => do return extract (← (← arguments.record? ["name"]).get? "name" Text.ofJson?)
  | "thread" => do return thread (← (← arguments.record? ["style"]).getD? "style" ThreadStyle.ofJson? .first)
  | "find_next" => do
    let fields ← arguments.record? ["query", "options"]
    return findNext (← fields.get? "query" Text.ofJson?) (← fields.getD? "options" MatchOptions.ofJson? {})
  | _ => none
where
  fragment? : Option Text := do (← arguments.record? ["fragment"]).get? "fragment" Text.ofJson?

def ofJson? : Json → Option Mutation
  | .array (.string name :: arguments) => ofNamed? name (.array arguments)
  | .object fields => do
    let name ← (← (Json.object fields).record? ["op"]).get? "op" Json.string?
    ofNamed? name (.object fields)
  | _ => none

end Mutation

namespace Config

def timeoutOfJson? : Json → Option (Option Nat)
  | .null => some none
  | j => j.nat?.map some

/-- A configuration: a record of which every field has a default. -/
def ofJson? (j : Json) : Option Config := do
  let fields ← j.record? ["idleTimeoutSecs", "historyLimit", "summaryWidth", "bindingForms"]
  let idleTimeout ← fields.getD? "idleTimeoutSecs" timeoutOfJson? none
  let historyLimit ← fields.getD? "historyLimit" Json.nat? 100
  let summaryWidth ← fields.getD? "summaryWidth" Json.nat? 60
  let bindingForms ← fields.getD? "bindingForms" (Json.arrayOf? Text.ofJson?) ["let".toList, "let*".toList]
  return { idleTimeout, historyLimit, summaryWidth, bindingForms }

def toJson (config : Config) : Json :=
  .object [("idleTimeoutSecs", .option .nat config.idleTimeout), ("historyLimit", .nat config.historyLimit),
    ("summaryWidth", .nat config.summaryWidth), ("bindingForms", .array (config.bindingForms.map Text.toJson))]

end Config

def Location.toJson (l : Location) : Json :=
  .object [("path", .array (l.path.map .nat)), ("offset", .nat l.offset), ("line", .nat l.line),
    ("column", .nat l.column)]

def Match.fields (m : Match) : List (String × Json) :=
  [("text", m.text.toJson), ("kind", .string m.kind.name), ("location", m.location.toJson)]

end SexprEdit
