import SexprEdit.Atom.Number

/-!
# Atoms

The leaves of a source tree that carry meaning. An atom keeps its exact text; its kind follows from its token,
and for bare words from the text.
-/

namespace SexprEdit

/-- What an atom denotes. A number that was read keeps a hint on how it was written. -/
inductive AtomKind where
  | symbol
  | keyword
  | string
  | regex
  | character
  | number (hint : Option NumberHint)
  | boolean
  | nil
deriving DecidableEq, Repr

/-- A leaf with its exact text. -/
structure Atom where
  kind : AtomKind
  text : Text
deriving DecidableEq, Repr

namespace AtomKind

def name : AtomKind → String
  | symbol => "symbol"
  | keyword => "keyword"
  | string => "string"
  | regex => "regex"
  | character => "character"
  | number _ => "number"
  | boolean => "boolean"
  | nil => "nil"

def hint? : AtomKind → Option NumberHint
  | number hint => hint
  | _ => none

end AtomKind

/-- Why a bare word is no atom. -/
inductive BadWord where
  | keyword (text : Text)
  | number (text : Text)
deriving DecidableEq, Repr

namespace BadWord

def message : BadWord → String
  | keyword text => "invalid keyword '" ++ String.ofList text ++ "'"
  | number text => "invalid number '" ++ String.ofList text ++ "'"

end BadWord

namespace Atom

def isColon (c : Char) : Bool :=
  c == ':'

/-- Whether a word that begins with a colon is a keyword: one or two colons, then a name that is not empty and
does not begin with a slash. -/
def isKeyword (t : Text) : Bool :=
  let name := t.dropWhile isColon
  !name.isEmpty && (t.takeWhile isColon).length ≤ 2 && name.head? != some '/'

def ofBare (t : Text) : Except BadWord Atom :=
  if t.head? == some ':' then
    if isKeyword t then .ok ⟨.keyword, t⟩ else .error (.keyword t)
  else if Number.looksNumeric t then
    if Number.accepts t then .ok ⟨.number (some (Number.hint t)), t⟩ else .error (.number t)
  else if t == "nil".toList then .ok ⟨.nil, t⟩
  else if t == "true".toList || t == "false".toList then .ok ⟨.boolean, t⟩
  else .ok ⟨.symbol, t⟩

/-- The name of a keyword, without its colons. -/
def keywordName? (a : Atom) : Option Text :=
  if a.kind = .keyword then some (a.text.dropWhile isColon) else none

def sigil? (a : Atom) : Option Text :=
  if a.kind = .keyword then some (a.text.takeWhile isColon) else none

end Atom

end SexprEdit
