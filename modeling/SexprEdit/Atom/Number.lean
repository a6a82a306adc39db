import SexprEdit.Token.Lexer

/-!
# Numbers

The written forms of a number and the hint that is kept about each. A word is read as a number as soon as it
begins like one, and must then have one of the five forms of `Number.Form`.
-/

namespace SexprEdit

/-- How a number was written. -/
inductive NumberHint where
  | decimal
  | hex
  | octal
  | radix (base : Nat)
  | ratio
  | float
  | symbolic
deriving DecidableEq, Repr

namespace NumberHint

def name : NumberHint → String
  | decimal => "decimal"
  | hex => "hex"
  | octal => "octal"
  | radix base => "radix-" ++ toString base
  | ratio => "ratio"
  | float => "float"
  | symbolic => "symbolic"

end NumberHint

namespace Number

/-- The text without its sign, if it has one. -/
def unsigned : Text → Text
  | [] => []
  | c :: cs => if c == '+' || c == '-' then cs else c :: cs

/-- Whether a word begins like a number, with a digit after at most one sign. -/
def looksNumeric (t : Text) : Bool :=
  (unsigned t).head?.any Char.isDigit

/-- A non-empty run of characters of one class. -/
def isRun (p : Char → Bool) (t : Text) : Bool :=
  !t.isEmpty && t.all p

def isAlphanumeric (c : Char) : Bool :=
  c.isAlpha || c.isDigit

/-! ## Written forms

Each form is a test on the text without its sign. -/

def isHex : Text → Bool
  | '0' :: x :: digits =>
    (x == 'x' || x == 'X') && !(digits.takeWhile isHexDigit).isEmpty &&
      (digits.dropWhile isHexDigit == [] || digits.dropWhile isHexDigit == ['N'])
  | _ => false

/-- `2r101`: a base of one or two digits, then letters and digits. -/
def isRadix (t : Text) : Bool :=
  let base := t.takeWhile Char.isDigit
  (base.length == 1 || base.length == 2) &&
    match t.dropWhile Char.isDigit with
    | r :: digits => (r == 'r' || r == 'R') && isRun isAlphanumeric digits
    | [] => false

/-- `22/7`. -/
def isRatio (t : Text) : Bool :=
  !(t.takeWhile Char.isDigit).isEmpty &&
    match t.dropWhile Char.isDigit with
    | slash :: digits => slash == '/' && isRun Char.isDigit digits
    | [] => false

/-- `42N`. -/
def isBig (t : Text) : Bool :=
  !(t.takeWhile Char.isDigit).isEmpty && t.dropWhile Char.isDigit == ['N']

/-- What may follow the fraction of a decimal: an exponent and an `M`, both optional. -/
def isDecimalTail (t : Text) : Bool :=
  match t with
  | [] => true
  | c :: cs =>
    if c == 'e' || c == 'E' then
      let digits := unsigned cs
      !(digits.takeWhile Char.isDigit).isEmpty &&
        (digits.dropWhile Char.isDigit == [] || digits.dropWhile Char.isDigit == ['M'])
    else c == 'M' && cs.isEmpty

/-- `42`, `4.2e1`, `42M`: digits with an optional fraction, exponent and `M`. -/
def isDecimal (t : Text) : Bool :=
  !(t.takeWhile Char.isDigit).isEmpty &&
    match t.dropWhile Char.isDigit with
    | '.' :: fraction => isDecimalTail (fraction.dropWhile Char.isDigit)
    | tail => isDecimalTail tail

/-- Whether a word is a number, sign included. -/
def accepts (t : Text) : Bool :=
  let u := unsigned t
  isHex u || isRadix u || isRatio u || isBig u || isDecimal u

/-! ## Hints -/

def decimalValue (digits : Text) : Nat :=
  digits.foldl (fun n c => 10 * n + (c.toNat - '0'.toNat)) 0

/-- Whether a text contains one of some characters. -/
def mentions (cs : List Char) (t : Text) : Bool :=
  t.any cs.contains

/-- A base that is written before its `r`: decimal digits with a value below 256. -/
def base? (digits : Text) : Option Nat :=
  if isRun Char.isDigit digits && decimalValue digits < 256 then some (decimalValue digits) else none

/-- The hint of a number, found by looking for telling characters in turn. -/
def hint (t : Text) : NumberHint :=
  let u := unsigned t
  if ['0', 'x'].isPrefixOf u || ['0', 'X'].isPrefixOf u then .hex
  else if mentions ['r', 'R'] u then
    match base? (u.takeWhile fun c => c != 'r' && c != 'R') with
    | some base => .radix base
    | none => .decimal
  else if mentions ['/'] u then .ratio
  else if mentions ['.', 'e', 'E', 'M'] u then .float
  else if 1 < u.length && u.head? == some '0' && u.getLast? != some 'N' then .octal
  else .decimal

end Number

end SexprEdit
