import SexprEdit.Text.Basic

/-!
# Lines and columns

Two ways to find a place in a text. `Text.lineColumn` looks back from the end of what stands before the place;
`Position.advance` runs forward over it and can be resumed piece by piece. In both only `\n` ends a line, lines
and columns count from one, and a column is a number of characters. `Text.displayLineColumn` is a third measure
for reports, in which every Unicode line break ends a line.
-/

namespace SexprEdit

namespace Text

/-- Line and column just after the text `before`. -/
def lineColumn (before : Text) : Nat × Nat :=
  (before.count '\n' + 1, (before.reverse.takeWhile (· ≠ '\n')).length + 1)

/-- Whether `c`, with `rest` after it, completes a line break of a report: a carriage return does so unless a
line feed follows. -/
def endsDisplayLine (c : Char) (rest : Text) : Bool :=
  let n := c.toNat
  if n == 0xd then rest.head? != some '\n'
  else (0xa ≤ n && n ≤ 0xc) || n == 0x85 || n == 0x2028 || n == 0x2029

/-- Line and column after `n` further characters of a text, from a given line and column. A break with nothing
after it starts no line. -/
def displayFrom (line column : Nat) : Nat → Text → Nat × Nat
  | 0, _ => (line, column)
  | _, [] => (line, column)
  | n + 1, c :: cs =>
    if endsDisplayLine c cs && !cs.isEmpty then displayFrom (line + 1) 1 n cs
    else displayFrom line (column + 1) n cs

/-- Line and column of the byte offset `pos` in a report; an empty text has none. -/
def displayLineColumn (source : Text) (pos : Nat) : Option (Nat × Nat) :=
  if source.isEmpty then none else some (displayFrom 1 1 (upTo pos source).length source)

end Text

/-- A place in a text, kept while running over it. -/
structure Position where
  offset : Nat := 0
  line : Nat := 1
  column : Nat := 1
deriving DecidableEq, Repr

namespace Position

def step (p : Position) (c : Char) : Position :=
  if c = '\n' then ⟨p.offset + c.utf8Size, p.line + 1, 1⟩
  else ⟨p.offset + c.utf8Size, p.line, p.column + 1⟩

/-- The place after a further piece of text. -/
def advance (p : Position) (t : Text) : Position :=
  t.foldl step p

end Position

end SexprEdit
