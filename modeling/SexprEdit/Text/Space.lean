import SexprEdit.Text.Basic

/-!
# White space

The characters with the Unicode property White_Space, and the words that they separate.
-/

namespace SexprEdit

def isSpace (c : Char) : Bool :=
  let n := c.toNat
  (0x9 ≤ n && n ≤ 0xd) || n == 0x20 || n == 0x85 || n == 0xa0 || n == 0x1680 || (0x2000 ≤ n && n ≤ 0x200a) ||
    n == 0x2028 || n == 0x2029 || n == 0x202f || n == 0x205f || n == 0x3000

namespace Text

def trim (t : Text) : Text :=
  ((t.dropWhile isSpace).reverse.dropWhile isSpace).reverse

/-- Every run of white space becomes one blank, and the runs at both ends are dropped. The flag says whether
a blank is owed before the next word. -/
def squeezeFrom : Bool → Text → Text
  | _, [] => []
  | owed, c :: cs =>
    if isSpace c then squeezeFrom true cs
    else if owed then ' ' :: c :: squeezeFrom false cs
    else c :: squeezeFrom false cs

/-- The words of `t` with one blank between them. -/
def squeeze (t : Text) : Text :=
  squeezeFrom false (t.dropWhile isSpace)

end Text

end SexprEdit
