import SexprEdit.Text.Position
import SexprEdit.Text.Quoted

/-!
# Reading errors

Why a text is no document, and where. The wording of each cause stands in `ReadError.message`, with the place, and
in `ReadError.reason`, without it.
-/

namespace SexprEdit

/-- What is wrong. Delimiters, marks and tokens are given as they are shown. -/
inductive ReadError.Cause where
  | unrecognized (snippet : Text)
  | unclosed (delimiter : String)
  | mismatched (expected found : String)
  | unexpectedClose (found : String)
  | missingForm (mark : String)
  | invalidLiteral (message : String)
deriving DecidableEq, Repr

/-- What is wrong and the byte offset where. -/
structure ReadError where
  pos : Nat
  cause : ReadError.Cause
deriving DecidableEq, Repr

namespace ReadError

def message (e : ReadError) : String :=
  match e.cause with
  | .unrecognized snippet => s!"Unrecognized input at {e.pos}: " ++ String.ofList (Text.quoted snippet)
  | .unclosed delimiter => s!"Unclosed {delimiter} opened at {e.pos}"
  | .mismatched expected found => s!"Mismatched delimiter at {e.pos}: expected {expected}, found {found}"
  | .unexpectedClose found => s!"Unexpected {found} at {e.pos}"
  | .missingForm mark => s!"Missing form after {mark} at {e.pos}"
  | .invalidLiteral message => s!"Invalid literal at {e.pos}: {message}"

def reason (e : ReadError) : String :=
  match e.cause with
  | .unrecognized snippet => "unrecognized input " ++ String.ofList (Text.quoted snippet)
  | .unclosed delimiter => s!"unclosed {delimiter}"
  | .mismatched expected found => s!"expected {expected}, found {found}"
  | .unexpectedClose found => s!"unexpected {found}"
  | .missingForm mark => s!"missing form after {mark}"
  | .invalidLiteral message => message

/-- Line and column of the error in its source. -/
def lineColumn (e : ReadError) (source : Text) : Nat × Nat :=
  Text.lineColumn (Text.upTo e.pos source)

/-- The report on the error in a file: the headline, then the place. -/
def report (e : ReadError) (file : String) (source : Text) : List String :=
  s!"Error: {e.message}".splitOn "\n" ++
    match Text.displayLineColumn source e.pos with
    | some place => [s!"╭─[{file}:{place.1}:{place.2}]"]
    | none => []

end ReadError

end SexprEdit
