/-!
# Text

Source text is a list of characters. Offsets into a text count the bytes of its UTF-8 form, so the length of
a text is the sum of the sizes of its characters.
-/

namespace SexprEdit

/-- Source text, character by character. -/
abbrev Text := List Char

namespace Text

def bytes : Text → Nat
  | [] => 0
  | c :: cs => c.utf8Size + bytes cs

/-- The longest initial part of at most `n` bytes. An offset past the end gives the whole text, and an offset
inside a character gives what stands before that character. -/
def upTo : Nat → Text → Text
  | _, [] => []
  | n, c :: cs => if c.utf8Size ≤ n then c :: upTo (n - c.utf8Size) cs else []

/-- The parts of a text between the separators in it. -/
def split (separator : Char) : Text → List Text
  | [] => [[]]
  | c :: cs =>
    if c = separator then [] :: split separator cs
    else
      match split separator cs with
      | [] => [[c]]
      | part :: parts => (c :: part) :: parts

/-- Whether `t` begins with a line break, `\n` or `\r\n`. -/
def startsWithNewline : Text → Bool
  | '\n' :: _ => true
  | '\r' :: '\n' :: _ => true
  | _ => false

@[simp] theorem bytes_nil : bytes [] = 0 := rfl

@[simp] theorem bytes_cons (c : Char) (cs : Text) : bytes (c :: cs) = c.utf8Size + bytes cs := rfl

@[simp] theorem bytes_append (s t : Text) : bytes (s ++ t) = bytes s + bytes t := by
  induction s with
  | nil => simp
  | cons c cs ih => simp [ih, Nat.add_assoc]

end Text

end SexprEdit
