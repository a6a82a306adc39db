import SexprEdit.Json.Number

/-!
# Reading JSON

A text is cut into symbols, and the symbols are put together on a stack of open arrays and objects. What follows the
grammar but stands for nothing becomes an ill-formed value: a string with half of a surrogate pair, a number beyond
all doubles, an object with such a string for a key, and what is nested deeper than `Json.maxDepth`. `Json.read?`
refuses a text that has an ill-formed part, `Json.readPartly?` leaves it to the decoder whether it meets one.
-/

namespace SexprEdit.Json

/-! ## Strings -/

/-- The inside of a string after its opening quote, escapes unread. -/
def rawString? : Text → Option Text
  | [] => none
  | c :: cs =>
    if c == '\x22' then some []
    else if c == '\\' then
      match cs with
      | [] => none
      | d :: ds => (rawString? ds).map (c :: d :: ·)
    else (rawString? cs).map (c :: ·)

def hexDigit? (c : Char) : Option Nat :=
  if c.isDigit then some (c.toNat - '0'.toNat)
  else if 'a' ≤ c && c ≤ 'f' then some (c.toNat - 'a'.toNat + 10)
  else if 'A' ≤ c && c ≤ 'F' then some (c.toNat - 'A'.toNat + 10)
  else none

/-- A UTF-16 unit of four hexadecimal digits, and what follows. -/
def unit? : Text → Option (Nat × Text)
  | a :: b :: c :: d :: rest => do
    let a ← hexDigit? a
    let b ← hexDigit? b
    let c ← hexDigit? c
    let d ← hexDigit? d
    return (((a * 16 + b) * 16 + c) * 16 + d, rest)
  | _ => none

/-- The character that one or two UTF-16 units stand for, after the first `\u`, and what follows. A surrogate
without its partner stands for none. -/
def escapedUnit? (t : Text) : Option (Option Char × Text) := do
  let (high, rest) ← unit? t
  if 0xd800 ≤ high && high < 0xdc00 then
    match rest with
    | '\\' :: 'u' :: more =>
      match unit? more with
      | some (low, after) =>
        if 0xdc00 ≤ low && low < 0xe000 then
          return (some (Char.ofNat (0x10000 + (high - 0xd800) * 0x400 + (low - 0xdc00))), after)
        else return (none, rest)
      | none => return (none, rest)
    | _ => return (none, rest)
  else if 0xdc00 ≤ high && high < 0xe000 then return (none, rest)
  else return (some (Char.ofNat high), rest)

/-- The character that a one-letter escape stands for. -/
def escaped? (c : Char) : Option Char :=
  if c == '\x22' || c == '\\' || c == '/' then some c
  else if c == 'b' then some '\x08'
  else if c == 'f' then some '\x0c'
  else if c == 'n' then some '\n'
  else if c == 'r' then some '\r'
  else if c == 't' then some '\t'
  else none

/-- The inside of a string with its escapes read, in at most `fuel` characters. Where an escape stands for no
character there is none. -/
def unescapeWithin? : Nat → Text → Option (List (Option Char))
  | _, [] => some []
  | 0, _ => none
  | fuel + 1, c :: cs =>
    if c == '\\' then
      match cs with
      | [] => none
      | 'u' :: ds => do
        let (value, rest) ← escapedUnit? ds
        return value :: (← unescapeWithin? fuel rest)
      | d :: ds => do
        let value ← escaped? d
        return some value :: (← unescapeWithin? fuel ds)
    else if c.toNat < 0x20 then none
    else (unescapeWithin? fuel cs).map (some c :: ·)

/-- The inside of a string with its escapes read. -/
def unescape? (raw : Text) : Option (List (Option Char)) :=
  unescapeWithin? raw.length raw

/-! ## Symbols -/

/-- A lexical unit of a JSON text. -/
inductive Symbol where
  | openArray
  | closeArray
  | openObject
  | closeObject
  | comma
  | colon
  | text (content : Option String)
  | value (value : Json)

def words : List (Text × Json) :=
  [("null".toList, null), ("true".toList, bool true), ("false".toList, bool false)]

/-- The symbol at the front of the text `c :: cs`, and how many characters of `cs` belong to it. -/
def symbol? (c : Char) (cs : Text) : Option (Symbol × Nat) :=
  if c == '[' then some (.openArray, 0)
  else if c == ']' then some (.closeArray, 0)
  else if c == '\x7b' then some (.openObject, 0)
  else if c == '\x7d' then some (.closeObject, 0)
  else if c == ',' then some (.comma, 0)
  else if c == ':' then some (.colon, 0)
  else if c == '\x22' then do
    let raw ← rawString? cs
    let content ← unescape? raw
    return (.text ((content.mapM fun c => c).map String.ofList), raw.length + 1)
  else
    match words.find? (·.1.isPrefixOf (c :: cs)) with
    | some word => some (.value word.2, word.1.length - 1)
    | none => do
      let text := (c :: cs).takeWhile isNumeric
      let value ← number? text
      return (.value value, text.length - 1)

def isBlank (c : Char) : Bool :=
  c == ' ' || c == '\t' || c == '\n' || c == '\r'

/-- The symbols of a text of which the first `n` characters belong to a symbol that has been read. -/
def symbolsAfter? : Nat → Text → Option (List Symbol)
  | _, [] => some []
  | n + 1, _ :: cs => symbolsAfter? n cs
  | 0, c :: cs =>
    if isBlank c then symbolsAfter? 0 cs
    else do
      let (symbol, width) ← symbol? c cs
      return symbol :: (← symbolsAfter? width cs)

/-! ## Values -/

/-- An open array or object with what it holds so far, newest first. A key waits for its value. -/
inductive Level where
  | array (items : List Json)
  | object (fields : List (Option String × Json))
  | entry (fields : List (Option String × Json)) (key : Option String)

/-- What may come next. -/
inductive Expect where
  | value
  | valueOrClose
  | key
  | keyOrClose
  | colon
  | afterValue
deriving DecidableEq

/-- The state of reading: the open levels, innermost first, what may come next, the value once it is there, and
whether no part so far is ill-formed. -/
structure State where
  levels : List Level := []
  expect : Expect := .value
  result : Option Json := none
  sound : Bool := true

/-- How many arrays and objects may be open at a time for the innermost to be well-formed. -/
def maxDepth : Nat := 127

def ofContent : Option String → Json
  | some content => string content
  | none => illFormed

/-- The object of some fields, newest first. -/
def ofFields (fields : List (Option String × Json)) : Json :=
  match fields.reverse.mapM fun field => field.1.map (·, field.2) with
  | some fields => object fields
  | none => illFormed

namespace State

/-- The state after a finished value at the given levels. -/
def complete (s : State) (levels : List Level) (value : Json) : State :=
  let sound := s.sound && !value.isIllFormed
  match levels with
  | .array items :: outer => ⟨.array (value :: items) :: outer, .afterValue, none, sound⟩
  | .entry fields key :: outer => ⟨.object ((key, value) :: fields) :: outer, .afterValue, none, sound⟩
  | levels => ⟨levels, .afterValue, some value, sound⟩

/-- The state after the innermost level was closed. -/
def close (s : State) (outer : List Level) (value : Json) : State :=
  s.complete outer (if s.levels.length ≤ maxDepth then value else illFormed)

def enter (s : State) (level : Level) (expect : Expect) : State :=
  { s with levels := level :: s.levels, expect }

def move (s : State) (levels : List Level) (expect : Expect) : State :=
  { s with levels, expect }

def takesValue (s : State) : Bool :=
  s.expect = .value || s.expect = .valueOrClose

def step? (s : State) (symbol : Symbol) : Option State :=
  match symbol, s.levels with
  | .text key, .object fields :: outer =>
    if s.expect = .key || s.expect = .keyOrClose then some (s.move (.entry fields key :: outer) .colon) else none
  | .text content, levels => if s.takesValue then some (s.complete levels (ofContent content)) else none
  | .value value, levels => if s.takesValue then some (s.complete levels value) else none
  | .openArray, _ => if s.takesValue then some (s.enter (.array []) .valueOrClose) else none
  | .openObject, _ => if s.takesValue then some (s.enter (.object []) .keyOrClose) else none
  | .colon, levels => if s.expect = .colon then some (s.move levels .value) else none
  | .comma, .array items :: outer =>
    if s.expect = .afterValue then some (s.move (.array items :: outer) .value) else none
  | .comma, .object fields :: outer =>
    if s.expect = .afterValue then some (s.move (.object fields :: outer) .key) else none
  | .closeArray, .array items :: outer =>
    if s.expect = .afterValue || s.expect = .valueOrClose then some (s.close outer (.array items.reverse)) else none
  | .closeObject, .object fields :: outer =>
    if s.expect = .afterValue || s.expect = .keyOrClose then some (s.close outer (ofFields fields)) else none
  | _, _ => none

end State

def readAll? (source : Text) : Option State := do
  let symbols ← symbolsAfter? 0 source
  let last ← symbols.foldlM State.step? {}
  if last.levels.isEmpty then some last else none

/-- Read a text that is one value with blanks around it, of which parts may be ill-formed. -/
def readPartly? (source : Text) : Option Json :=
  (readAll? source).bind (·.result)

/-- Read a text that is one value with blanks around it. -/
def read? (source : Text) : Option Json := do
  let last ← readAll? source
  if last.sound then last.result else none

end SexprEdit.Json
