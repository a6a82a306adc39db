import SexprEdit.Json.Basic
import SexprEdit.Text.Basic

/-!
# JSON numbers

A number without fraction and exponent is an integer as far as 64 bits go. Any other stands for a double: its leading
digits are collected in 64 bits, the rest is a power of ten, and the product of the two roundings must be finite.
-/

namespace SexprEdit.Json

/-! ## Grammar -/

def digitValue (c : Char) : Nat :=
  c.toNat - '0'.toNat

def digitsValue (digits : Text) : Nat :=
  digits.foldl (fun n c => 10 * n + digitValue c) 0

def isNumeric (c : Char) : Bool :=
  c.isDigit || c == '-' || c == '+' || c == '.' || c == 'e' || c == 'E'

/-- Whether a text is an exponent, or empty. -/
def isExponent : Text → Bool
  | [] => true
  | c :: cs =>
    let digits := if cs.head? == some '+' || cs.head? == some '-' then cs.drop 1 else cs
    (c == 'e' || c == 'E') && !digits.isEmpty && digits.all Char.isDigit

/-- Whether a text is what may follow the whole part of a number. -/
def isFraction : Text → Bool
  | '.' :: cs => !(cs.takeWhile Char.isDigit).isEmpty && isExponent (cs.dropWhile Char.isDigit)
  | t => isExponent t

/-! ## Magnitude -/

/-- A magnitude: a significand of 64 bits times a power of ten. -/
structure Scaled where
  significand : Nat
  exponent : Int
deriving DecidableEq, Repr

namespace Scaled

/-- Collect the digits before the point. Once the significand is full the others only count. -/
def ofWhole (significand : Nat) : Text → Scaled
  | [] => ⟨significand, 0⟩
  | c :: cs =>
    let next := 10 * significand + digitValue c
    if next < Nat.pow 2 64 then ofWhole next cs else ⟨significand, cs.length + 1⟩

/-- Collect the digits after the point, until the significand is full. -/
def addFraction (s : Scaled) : Text → Scaled
  | [] => s
  | c :: cs =>
    let next := 10 * s.significand + digitValue c
    if next < Nat.pow 2 64 then addFraction ⟨next, s.exponent - 1⟩ cs else s

def addExponent (s : Scaled) : Text → Scaled
  | _ :: '-' :: digits => ⟨s.significand, s.exponent - digitsValue digits⟩
  | _ :: '+' :: digits => ⟨s.significand, s.exponent + digitsValue digits⟩
  | _ :: digits => ⟨s.significand, s.exponent + digitsValue digits⟩
  | [] => s

/-- The magnitude of a number: its whole part, and what follows it. -/
def ofParts (whole : Text) : Text → Scaled
  | '.' :: cs => ((ofWhole 0 whole).addFraction (cs.takeWhile Char.isDigit)).addExponent (cs.dropWhile Char.isDigit)
  | rest => (ofWhole 0 whole).addExponent rest

/-- The nearest number with 53 significant bits, of two the one with the even significand. -/
def nearest (n : Nat) : Nat :=
  if n < Nat.pow 2 53 then n
  else
    let unit := Nat.pow 2 (n.log2 - 52)
    let half := unit / 2
    let up := half < n % unit || (n % unit == half && n / unit % 2 == 1)
    (n / unit + if up then 1 else 0) * unit

/-- The least number that no double is near to: half a step above the largest double. -/
def infinity : Nat := Nat.pow 2 1024 - Nat.pow 2 970

/-- Whether a magnitude is beyond all doubles. Significand and power of ten are rounded each before they are
multiplied. -/
def isTooLarge (s : Scaled) : Bool :=
  s.significand ≠ 0 &&
    (308 < s.exponent || (0 ≤ s.exponent && infinity ≤ nearest s.significand * nearest (Nat.pow 10 s.exponent.toNat)))

end Scaled

/-- The number that a text is. A zero with a sign is no integer. -/
def number? (t : Text) : Option Json :=
  let negative := t.head? == some '-'
  let unsigned := if negative then t.drop 1 else t
  let whole := unsigned.takeWhile Char.isDigit
  let rest := unsigned.dropWhile Char.isDigit
  if whole.isEmpty || (whole.head? == some '0' && whole.length ≠ 1) || !isFraction rest then none
  else
    let value := digitsValue whole
    if rest.isEmpty && !negative && value < Nat.pow 2 64 then some (integer value)
    else if rest.isEmpty && negative && 0 < value && value ≤ Nat.pow 2 63 then some (integer (-value))
    else if (Scaled.ofParts whole rest).isTooLarge then some illFormed
    else some (decimal (String.ofList t))

end SexprEdit.Json
