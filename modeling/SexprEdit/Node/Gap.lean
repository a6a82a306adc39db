import SexprEdit.Node.Basic

/-!
# Gaps

Two nodes that stand next to each other need a gap between them when their tokens would read differently without
one, as `#inst` and `x` do, or `~` and `@x`. Only the last token of the one and the first token of the other are
looked at.
-/

namespace SexprEdit

/-- What a text lexes to; stray texts are not told apart. -/
def tokensOf (t : Text) : List (Option Token) :=
  (lex t).map Lexeme.token?

/-- Whether `left` directly before `right` lexes differently than the two apart. -/
def fuses (left right : Text) : Bool :=
  !left.isEmpty && !right.isEmpty && tokensOf (left ++ right) != tokensOf left ++ tokensOf right

namespace Node

variable {ι : Type}

mutual

def headText : Node ι → Text
  | composite _ kind children => if kind.opener.isEmpty then headTextAll children else kind.opener
  | atom _ a => a.text
  | trivia _ t => t.text

/-- The text of the first token of some siblings. -/
def headTextAll : List (Node ι) → Text
  | [] => []
  | n :: _ => headText n

end

mutual

def tailText : Node ι → Text
  | composite _ kind children =>
    if kind.closer.isEmpty then (tailTextAll children).getD kind.opener else kind.closer
  | atom _ a => a.text
  | trivia _ t => t.text

/-- The text of the last token of some siblings. -/
def tailTextAll : List (Node ι) → Option Text
  | [] => none
  | [n] => some (tailText n)
  | _ :: n :: ns => tailTextAll (n :: ns)

end

/-- Whether a gap is needed between two neighbours in a composite. At its ends the delimiters take their place,
and trivia keep texts apart by themselves. -/
def needsGap (kind : Kind) (left right : Option (Node ι)) : Bool :=
  (left.all isForm && right.all isForm) &&
    fuses ((left.map tailText).getD kind.opener) ((right.map headText).getD kind.closer)

end Node

end SexprEdit
