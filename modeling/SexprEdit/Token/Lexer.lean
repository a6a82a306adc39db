import SexprEdit.Text.Space
import SexprEdit.Token.Basic

/-!
# Lexer

`scan` reads the longest token at the front of a text, or the stray text there; `lex` cuts a whole text into such
pieces. Nothing is skipped: the pieces put together are the text.
-/

namespace SexprEdit

/-! ## Character classes -/

/-- The blanks of a source text. Commas are among them, most Unicode spaces are not. -/
def isBlank (c : Char) : Bool :=
  c == ' ' || c == '\t' || c == '\r' || c == '\n' || c == '\x0c' || c == ','

/-- The characters that end any word: white space, commas, delimiters, double quotes and semicolons. -/
def isStop (c : Char) : Bool :=
  isSpace c || c == ',' || c == '(' || c == ')' || c == '[' || c == ']' || c == '\x7b' || c == '\x7d' ||
    c == '\x22' || c == ';'

def isBareInner (c : Char) : Bool :=
  !(isStop c || c == '\x60' || c == '~' || c == '@' || c == '^' || c == '\\')

def isBareStart (c : Char) : Bool :=
  isBareInner c && c != '\x27' && c != '#'

def isTagStart (c : Char) : Bool :=
  c.isAlpha

def isHexDigit (c : Char) : Bool :=
  c.isDigit || ('a' ≤ c && c ≤ 'f') || ('A' ≤ c && c ≤ 'F')

def isOctalDigit (c : Char) : Bool :=
  '0' ≤ c && c ≤ '7'

/-! ## Single tokens -/

/-- The rest of a quoted literal after its opening quote, and whether its closing quote was found. A backslash
takes the next character with it; one that ends the text is left out. -/
def scanQuoted : Text → Text × Bool
  | [] => ([], false)
  | c :: cs =>
    if c == '\x22' then ([c], true)
    else if c == '\\' then
      match cs with
      | [] => ([], false)
      | d :: ds =>
        let body := scanQuoted ds
        (c :: d :: body.1, body.2)
    else
      let body := scanQuoted cs
      (c :: body.1, body.2)

/-- The names that a character literal may have after its backslash. -/
def characterNames : List Text :=
  ["newline".toList, "space".toList, "tab".toList, "backspace".toList, "formfeed".toList, "return".toList]

/-- The rest of a character literal after its backslash: a name, `u` with four hexadecimal digits, `o` with up to
three octal digits, or any one character that is no line feed. -/
def scanCharacter (cs : Text) : Option Text :=
  match characterNames.find? (·.isPrefixOf cs) with
  | some name => some name
  | none =>
    match cs with
    | [] => none
    | c :: rest =>
      if c == 'u' && 4 ≤ ((rest.take 4).takeWhile isHexDigit).length then some (c :: rest.take 4)
      else if c == 'o' then some (c :: (rest.take 3).takeWhile isOctalDigit)
      else if c == '\n' then none
      else some [c]

/-- The symbolic values after their two hashes. -/
def symbolicNames : List Text :=
  ["Inf".toList, "-Inf".toList, "NaN".toList]

/-- A word of characters that are no stops. -/
def scanWord (cs : Text) : Text :=
  cs.takeWhile (!isStop ·)

/-- The piece at the front of a text that begins with a hash, given what follows the hash. -/
def scanHash (cs : Text) : Lexeme :=
  match cs with
  | [] => .stray ['#']
  | c :: rest =>
    if c == '!' then .token (.comment ('#' :: c :: rest.takeWhile (· != '\n')))
    else if c == '\x7b' then .token (.opening .set)
    else if c == '(' then .token (.opening .fn)
    else if c == '\x27' then .token (.mark .var)
    else if c == '_' then .token (.mark .discard)
    else if c == '?' then
      if ['('].isPrefixOf rest then .token (.opening .readerConditional)
      else if ['@', '('].isPrefixOf rest then .token (.opening .readerConditionalSplicing)
      else .stray ['#']
    else if c == ':' then
      let space := '#' :: c :: scanWord rest
      if (rest.dropWhile (!isStop ·)).head? == some '\x7b' then .token (.opening (.namespacedMap space))
      else .stray space
    else if c == '\x22' then
      let body := scanQuoted rest
      if body.2 then .token (.regex ('#' :: c :: body.1)) else .stray ('#' :: c :: body.1)
    else if c == '#' then
      match symbolicNames.find? (·.isPrefixOf rest) with
      | some name => .token (.symbolic ('#' :: c :: name))
      | none => .stray ['#']
    else if isTagStart c then .token (.mark (.tag ('#' :: scanWord cs)))
    else .stray ['#']

/-- The longest token at the front of the text `c :: cs`, or the stray text there. -/
def scan (c : Char) (cs : Text) : Lexeme :=
  if isBlank c then .token (.whitespace (c :: cs.takeWhile isBlank))
  else if c == ';' then .token (.comment (c :: cs.takeWhile (· != '\n')))
  else if c == '(' then .token (.opening .list)
  else if c == '[' then .token (.opening .vector)
  else if c == '\x7b' then .token (.opening .map)
  else if c == ')' then .token (.closing .paren)
  else if c == ']' then .token (.closing .square)
  else if c == '\x7d' then .token (.closing .curly)
  else if c == '\x27' then .token (.mark .quote)
  else if c == '\x60' then .token (.mark .syntaxQuote)
  else if c == '~' then .token (.mark (if cs.head? == some '@' then .unquoteSplicing else .unquote))
  else if c == '@' then .token (.mark .deref)
  else if c == '^' then .token (.mark .metadata)
  else if c == '\x22' then
    let body := scanQuoted cs
    if body.2 then .token (.string (c :: body.1)) else .stray (c :: body.1)
  else if c == '\\' then
    match scanCharacter cs with
    | some body => .token (.character (c :: body))
    | none => .stray [c]
  else if c == '#' then scanHash cs
  else if isBareStart c then .token (.bare (c :: cs.takeWhile isBareInner))
  else .stray [c]

/-! ## Whole texts -/

/-- The pieces of a text of which the first `n` characters belong to a piece that has been read. -/
def lexAfter : Nat → Text → List Lexeme
  | _, [] => []
  | n + 1, _ :: cs => lexAfter n cs
  | 0, c :: cs =>
    let piece := scan c cs
    piece :: lexAfter (piece.text.length - 1) cs

/-- The pieces of a text, in order and without gaps. -/
def lex (source : Text) : List Lexeme :=
  lexAfter 0 source

/-- A piece of source with the byte offsets at which it starts and stops. -/
structure Span where
  piece : Lexeme
  start : Nat
  stop : Nat
deriving DecidableEq, Repr

/-- Pieces that follow one another from an offset on. -/
def spansFrom : Nat → List Lexeme → List Span
  | _, [] => []
  | pos, piece :: pieces =>
    let stop := pos + Text.bytes piece.text
    ⟨piece, pos, stop⟩ :: spansFrom stop pieces

/-- The pieces of a text with their places. -/
def tokenize (source : Text) : List Span :=
  spansFrom 0 (lex source)

end SexprEdit
