import SexprEdit.Text.Basic

/-!
# Tokens

The lexical units of a source text: blanks and comments, opening and closing delimiters, the marks that wrap
the forms after them, and literals. `Token.text` is the source that a token was read from.
-/

namespace SexprEdit

/-- What a closing delimiter looks like. -/
inductive Closer where
  | paren
  | square
  | curly
deriving DecidableEq, Repr

/-- The composites that are written between delimiters. A namespaced map carries its opening text without the
brace. -/
inductive Bracket where
  | list
  | vector
  | map
  | set
  | fn
  | readerConditional
  | readerConditionalSplicing
  | namespacedMap (space : Text)
deriving DecidableEq, Repr

/-- The marks that wrap a fixed number of forms after them. -/
inductive Mark where
  | quote
  | syntaxQuote
  | unquote
  | unquoteSplicing
  | deref
  | var
  | metadata
  | discard
  | tag (text : Text)
deriving DecidableEq, Repr

/-- A lexical unit. -/
inductive Token where
  | whitespace (text : Text)
  | comment (text : Text)
  | opening (bracket : Bracket)
  | closing (closer : Closer)
  | mark (mark : Mark)
  | string (text : Text)
  | regex (text : Text)
  | character (text : Text)
  | symbolic (text : Text)
  | bare (text : Text)
deriving DecidableEq, Repr

namespace Closer

def text : Closer → Text
  | paren => [')']
  | square => [']']
  | curly => ['\x7d']

end Closer

namespace Bracket

/-- The opening text, the brace of a namespaced map included. -/
def opener : Bracket → Text
  | list => ['(']
  | vector => ['[']
  | map => ['\x7b']
  | set => ['#', '\x7b']
  | fn => ['#', '(']
  | readerConditional => ['#', '?', '(']
  | readerConditionalSplicing => ['#', '?', '@', '(']
  | namespacedMap space => space ++ ['\x7b']

def closer : Bracket → Closer
  | list | fn | readerConditional | readerConditionalSplicing => .paren
  | vector => .square
  | map | set | namespacedMap _ => .curly

def name : Bracket → String
  | list => "list"
  | vector => "vector"
  | map => "map"
  | set => "set"
  | fn => "fn"
  | readerConditional => "reader-conditional"
  | readerConditionalSplicing => "reader-conditional-splicing"
  | namespacedMap _ => "namespaced-map"

end Bracket

namespace Mark

def text : Mark → Text
  | quote => ['\x27']
  | syntaxQuote => ['\x60']
  | unquote => ['~']
  | unquoteSplicing => ['~', '@']
  | deref => ['@']
  | var => ['#', '\x27']
  | metadata => ['^']
  | discard => ['#', '_']
  | tag text => text

def arity : Mark → Nat
  | metadata => 2
  | _ => 1

/-- The name of the marked composite in messages. -/
def name : Mark → String
  | quote => "quote"
  | syntaxQuote => "syntax-quote"
  | unquote => "unquote"
  | unquoteSplicing => "unquote-splicing"
  | deref => "deref"
  | var => "var"
  | metadata => "meta"
  | discard => "discard"
  | tag _ => "tagged"

/-- What the mark itself is called where it stands as a token. -/
def description : Mark → String
  | quote => "quote"
  | syntaxQuote => "syntax quote"
  | unquote => "unquote"
  | unquoteSplicing => "unquote-splicing"
  | deref => "deref"
  | var => "var quote"
  | metadata => "metadata"
  | discard => "discard"
  | tag text => "tag " ++ String.ofList text

end Mark

namespace Token

def text : Token → Text
  | whitespace text | comment text | string text | regex text | character text | symbolic text | bare text => text
  | opening bracket => bracket.opener
  | closing closer => closer.text
  | mark m => m.text

def isTrivia : Token → Bool
  | whitespace _ | comment _ => true
  | _ => false

def description : Token → String
  | whitespace _ => "whitespace"
  | comment _ => "comment"
  | opening bracket => "'" ++ String.ofList bracket.opener ++ "'"
  | closing closer => "'" ++ String.ofList closer.text ++ "'"
  | mark m => m.description
  | string text => "string " ++ String.ofList text
  | regex text => "regex " ++ String.ofList text
  | character text => "character " ++ String.ofList text
  | symbolic text => "value " ++ String.ofList text
  | bare text => "'" ++ String.ofList text ++ "'"

end Token

/-- A piece of source: a token, or text that begins none. -/
inductive Lexeme where
  | token (token : Token)
  | stray (text : Text)
deriving DecidableEq, Repr

namespace Lexeme

def text : Lexeme → Text
  | token t => t.text
  | stray text => text

def token? : Lexeme → Option Token
  | token t => some t
  | stray _ => none

end Lexeme

end SexprEdit
