import SexprEdit.Node.Basic
import SexprEdit.Reader.Error

/-!
# Reader

Documents are read token by token. The reader holds the composites that are open, innermost first, and the nodes
finished at the top. A finished form goes into the innermost open composite and, when that is a mark with all its
forms, finishes it too. Reading fails at the first token that no document continues with.
-/

namespace SexprEdit

/-- An open composite: where it began and the children read so far, newest first. -/
inductive Pending where
  | bracket (bracket : Bracket) (start : Nat) (children : List Tree)
  | mark (mark : Mark) (start : Nat) (children : List Tree)

/-- The state of reading: the byte offset of the next token, the finished nodes at the top, newest first, and the
open composites, innermost first. -/
structure Reader where
  pos : Nat := 0
  done : List Tree := []
  pending : List Pending := []

namespace Reader

def formCount (ns : List Tree) : Nat :=
  ns.countP Node.isForm

def place (n : Tree) (done : List Tree) : List Pending → List Tree × List Pending
  | [] => (n :: done, [])
  | .bracket b start children :: outer => (done, .bracket b start (n :: children) :: outer)
  | .mark m start children :: outer =>
    if formCount (n :: children) = m.arity then
      place (.composite () (.mark m) (n :: children).reverse) done outer
    else (done, .mark m start (n :: children) :: outer)

/-- The state after a finished node and `width` bytes. -/
def add (r : Reader) (width : Nat) (n : Tree) : Reader :=
  let placed := place n r.done r.pending
  ⟨r.pos + width, placed.1, placed.2⟩

def enter (r : Reader) (width : Nat) (p : Pending) : Reader :=
  ⟨r.pos + width, r.done, p :: r.pending⟩

def close (r : Reader) (c : Closer) : Except ReadError Reader :=
  match r.pending with
  | [] => .error ⟨r.pos, .unexpectedClose (Token.closing c).description⟩
  | .bracket b _ children :: outer =>
    if b.closer = c then
      .ok ({ r with pending := outer }.add (Text.bytes c.text) (.composite () (.bracket b) children.reverse))
    else .error ⟨r.pos, .mismatched (Token.closing b.closer).description (Token.closing c).description⟩
  | .mark m start _ :: _ => .error ⟨start, .missingForm m.name⟩

def readToken (r : Reader) (t : Token) : Except ReadError Reader :=
  let width := Text.bytes t.text
  match t with
  | .whitespace text => .ok (r.add width (.trivia () (.whitespace text)))
  | .comment text => .ok (r.add width (.trivia () (.comment text)))
  | .opening b => .ok (r.enter width (.bracket b r.pos []))
  | .closing c => r.close c
  | .mark m => .ok (r.enter width (.mark m r.pos []))
  | .string text => .ok (r.add width (.atom () ⟨.string, text⟩))
  | .regex text => .ok (r.add width (.atom () ⟨.regex, text⟩))
  | .character text => .ok (r.add width (.atom () ⟨.character, text⟩))
  | .symbolic text => .ok (r.add width (.atom () ⟨.number (some .symbolic), text⟩))
  | .bare text =>
    match Atom.ofBare text with
    | .ok a => .ok (r.add width (.atom () a))
    | .error bad => .error ⟨r.pos, .invalidLiteral bad.message⟩

/-- The number of characters of stray text that an error shows. -/
def snippetLength : Nat := 16

def step (r : Reader) : Lexeme → Except ReadError Reader
  | .token t => r.readToken t
  | .stray text => .error ⟨r.pos, .unrecognized (text.take snippetLength)⟩

def finish (r : Reader) : Except ReadError Tree :=
  match r.pending with
  | [] => .ok (Tree.root r.done.reverse)
  | .bracket b start _ :: _ => .error ⟨start, .unclosed (Token.opening b).description⟩
  | .mark m start _ :: _ => .error ⟨start, .missingForm m.name⟩

/-- The document that some pieces of source make up. -/
def readAll (pieces : List Lexeme) : Except ReadError Tree := do
  let last ← pieces.foldlM step {}
  last.finish

end Reader

/-! ## Documents, forms and atoms -/

def Tree.read (source : Text) : Except ReadError Tree :=
  Reader.readAll (lex source)

/-- Read the forms of a text, without the trivia around them. -/
def Tree.readForms (source : Text) : Except ReadError (List Tree) := do
  let tree ← Tree.read source
  return tree.forms

/-- Read a text that is one atom and nothing else. -/
def Atom.read (source : Text) : Except ReadError Atom := do
  let tree ← Tree.read source
  match tree.children with
  | [.atom _ a] => return a
  | [other] => throw ⟨0, .invalidLiteral ("expected an atom, found " ++ other.kindName)⟩
  | _ => throw ⟨0, .invalidLiteral ("expected a single atom, got '" ++ String.ofList source ++ "'")⟩

end SexprEdit
