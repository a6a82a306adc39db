import SexprEdit.Json.Basic
import SexprEdit.Text.Basic

/-!
# Writing JSON

`Json.compact` writes a value on one line, `Json.pretty` with two blanks of indentation a level and one item a line.
An ill-formed value stands for nothing and is written as null.
-/

namespace SexprEdit.Json

def escapeChar (c : Char) : Text :=
  if c == '\x22' || c == '\\' then ['\\', c]
  else if c == '\x08' then ['\\', 'b']
  else if c == '\x0c' then ['\\', 'f']
  else if c == '\n' then ['\\', 'n']
  else if c == '\r' then ['\\', 'r']
  else if c == '\t' then ['\\', 't']
  else if c.toNat < 0x10 then ['\\', 'u', '0', '0', '0'] ++ Nat.toDigits 16 c.toNat
  else if c.toNat < 0x20 then ['\\', 'u', '0', '0'] ++ Nat.toDigits 16 c.toNat
  else [c]

def quote (s : String) : String :=
  String.ofList ('\x22' :: s.toList.flatMap escapeChar ++ ['\x22'])

/-! ## One line -/

mutual

def compact : Json → String
  | null | illFormed => "null"
  | bool b => if b then "true" else "false"
  | integer n => toString n
  | decimal text => text
  | string s => quote s
  | array items => "[" ++ compactItems items ++ "]"
  | object fields => "\x7b" ++ compactFields fields ++ "\x7d"

def compactItems : List Json → String
  | [] => ""
  | [item] => compact item
  | item :: items => compact item ++ "," ++ compactItems items

def compactFields : List (String × Json) → String
  | [] => ""
  | [(name, value)] => quote name ++ ":" ++ compact value
  | (name, value) :: fields => quote name ++ ":" ++ compact value ++ "," ++ compactFields fields

end

/-! ## Indented -/

/-- A line break and the indentation of a level. -/
def indent (level : Nat) : String :=
  String.ofList ('\n' :: List.replicate (2 * level) ' ')

mutual

def prettyAt (level : Nat) : Json → String
  | array (item :: items) => "[" ++ prettyItems (level + 1) (item :: items) ++ indent level ++ "]"
  | object (field :: fields) => "\x7b" ++ prettyFields (level + 1) (field :: fields) ++ indent level ++ "\x7d"
  | array [] => "[]"
  | object [] => "\x7b\x7d"
  | null | illFormed => "null"
  | bool b => if b then "true" else "false"
  | integer n => toString n
  | decimal text => text
  | string s => quote s

def prettyItems (level : Nat) : List Json → String
  | [] => ""
  | [item] => indent level ++ prettyAt level item
  | item :: items => indent level ++ prettyAt level item ++ "," ++ prettyItems level items

def prettyFields (level : Nat) : List (String × Json) → String
  | [] => ""
  | [(name, value)] => indent level ++ quote name ++ ": " ++ prettyAt level value
  | (name, value) :: fields =>
    indent level ++ quote name ++ ": " ++ prettyAt level value ++ "," ++ prettyFields level fields

end

def pretty (j : Json) : String :=
  prettyAt 0 j

end SexprEdit.Json
