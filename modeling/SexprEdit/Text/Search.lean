import SexprEdit.Text.CaseFold

/-!
# Literal search

Finding one text in another, given which characters count as the same. Occurrences are taken from the left and do
not overlap.
-/

namespace SexprEdit.Text

def beginsWith (same : Char → Char → Bool) : Text → Text → Bool
  | [], _ => true
  | _ :: _, [] => false
  | q :: query, c :: t => same q c && beginsWith same query t

def agrees (same : Char → Char → Bool) (query t : Text) : Bool :=
  query.length == t.length && beginsWith same query t

def occurs (same : Char → Char → Bool) (query : Text) : Text → Bool
  | [] => query.isEmpty
  | c :: t => beginsWith same query (c :: t) || occurs same query t

/-- Put `replacement` in place of each occurrence of `query`, in a text of which the first `n` characters belong to
an occurrence that has been replaced. -/
def replaceAfter (same : Char → Char → Bool) (query replacement : Text) : Nat → Text → Text
  | _, [] => []
  | n + 1, _ :: t => replaceAfter same query replacement n t
  | 0, c :: t =>
    if beginsWith same query (c :: t) then
      replacement ++ replaceAfter same query replacement (query.length - 1) t
    else c :: replaceAfter same query replacement 0 t

/-- Put `replacement` in place of each occurrence of a query that is not empty. -/
def replaceAll (same : Char → Char → Bool) (query replacement t : Text) : Text :=
  replaceAfter same query replacement 0 t

end SexprEdit.Text
