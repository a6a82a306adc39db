import SexprEdit.Edit.Error
import SexprEdit.Atom.Basic
import SexprEdit.Text.Search

/-!
# Matching names

A matcher picks symbols and keywords by name. A keyword is tried with its colons and without them, so that one query
finds a symbol and the keywords of the same name. `Matcher.renamed` says what a matched atom becomes when its name
is replaced. A keyword whose name matches keeps its colons, unless what comes in place of the name begins with a colon;
one that matches only together with its colons can lose them.
-/

namespace SexprEdit

/-- How names are compared: as a whole or in part, and with or without regard to case. -/
structure MatchOptions where
  exact : Bool := true
  caseSensitive : Bool := true
deriving DecidableEq, Repr

/-- A query with the way it is compared. -/
structure Matcher where
  query : Text
  options : MatchOptions
  query_ne_nil : query ≠ []

namespace Matcher

/-- The matcher of a query, which must not be empty. It may be of any length. -/
def ofQuery (query : Text) (options : MatchOptions) : Except EditError Matcher :=
  if h : query = [] then .error .emptyQuery else .ok ⟨query, options, h⟩

/-- Which characters count as the same. -/
def same (m : Matcher) (c d : Char) : Bool :=
  if m.options.caseSensitive then c == d else sameLetter c d

/-- Whether a name matches. -/
def hits (m : Matcher) (name : Text) : Bool :=
  if m.options.exact then Text.agrees m.same m.query name else Text.occurs m.same m.query name

def matchesAtom (m : Matcher) (a : Atom) : Bool :=
  match a.kind with
  | .symbol => m.hits a.text
  | .keyword => m.hits a.text || a.keywordName?.any m.hits
  | _ => false

/-- A name behind the colons of a keyword, unless it has colons of its own. -/
def withSigil (sigil name : Text) : Text :=
  if name.head? = some ':' then name else sigil ++ name

/-- The replacement in place of each occurrence of the query. -/
def substitute (m : Matcher) (replacement t : Text) : Text :=
  Text.replaceAll m.same m.query replacement t

def renamed (m : Matcher) (replacement : Text) (a : Atom) : Text :=
  match a.sigil?, a.keywordName? with
  | some sigil, some name =>
    if m.options.exact then withSigil sigil replacement
    else if m.hits name then withSigil sigil (m.substitute replacement name)
    else m.substitute replacement a.text
  | _, _ => if m.options.exact then replacement else m.substitute replacement a.text

end Matcher

end SexprEdit
