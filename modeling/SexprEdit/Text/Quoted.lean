import SexprEdit.Text.Printable

/-!
# Quoted text

How a piece of source is shown inside a message: between double quotes, with the usual escapes, and with
characters that would not show written as code points.
-/

namespace SexprEdit.Text

/-- Lower-case hexadecimal digits without padding. -/
def hex (n : Nat) : Text :=
  Nat.toDigits 16 n

def quoteChar (c : Char) : Text :=
  if c == '\x22' || c == '\\' then ['\\', c]
  else if c == '\n' then ['\\', 'n']
  else if c == '\r' then ['\\', 'r']
  else if c == '\t' then ['\\', 't']
  else if c == '\x00' then ['\\', '0']
  else if isPrintable c then [c]
  else ['\\', 'u', '\x7b'] ++ hex c.toNat ++ ['\x7d']

def quoted (t : Text) : Text :=
  '\x22' :: t.flatMap quoteChar ++ ['\x22']

end SexprEdit.Text
