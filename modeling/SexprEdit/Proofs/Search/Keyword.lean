import SexprEdit.Proofs.Atom.Spelling
import SexprEdit.Search.Matcher

/-!
# Keywords under renaming

A renamed keyword keeps its colons when the name is replaced as a whole or where the query occurs in it. A query that is
compared in part may also bring colons of its own: then it occurs in the colons and the name taken together and in no
part of the name, and the replacement is put in place of colons (`Text.length_colons_replaceAll`). What is left is a
keyword with fewer colons, or none.
-/

namespace SexprEdit

open Atom

namespace Text

variable {same : Char → Char → Bool} {query replacement : Text}

/-- A query that occurs only where colons take part is replaced together with some of them. -/
theorem length_colons_replaceAll {sigil name : Text} (hoccurs : occurs same query (sigil ++ name) = true)
    (hname : occurs same query name = false) (hne : replacement ≠ []) (hcolon : replacement.head? ≠ some ':') :
    ((replaceAll same query replacement (sigil ++ name)).takeWhile isColon).length < sigil.length := by
  induction sigil with
  | nil =>
    rw [List.nil_append, hname] at hoccurs
    cases hoccurs
  | cons c sigil ih =>
    rw [List.cons_append, replaceAll, replaceAfter]
    split_ifs with hbegins
    · -- the new text begins with the replacement
      obtain ⟨d, rest, rfl⟩ := List.exists_cons_of_ne_nil hne
      have hd : isColon d = false := by simpa [isColon] using hcolon
      simp [hd]
    · have hrest : occurs same query (sigil ++ name) = true := by
        rw [List.cons_append, occurs, Bool.or_eq_true] at hoccurs
        exact hoccurs.resolve_left hbegins
      have hlt := ih hrest
      rw [replaceAll] at hlt
      rw [List.takeWhile_cons]
      split
      · simpa using hlt
      · simp

theorem head?_replaceAll {t : Text} {c : Char} (ht : t.head? = some c) (hreplacement : replacement.head? = some c) :
    (replaceAll same query replacement t).head? = some c := by
  obtain ⟨rest, rfl⟩ := List.head?_eq_some_iff.mp ht
  rw [replaceAll, replaceAfter]
  split_ifs
  · rw [List.head?_append, hreplacement]
    rfl
  · rfl

theorem head?_replaceAll_ne {t : Text} {c : Char} (ht : t.head? ≠ some c) (hne : replacement ≠ [])
    (hreplacement : replacement.head? ≠ some c) : (replaceAll same query replacement t).head? ≠ some c := by
  cases t with
  | nil => simp [replaceAll, replaceAfter]
  | cons d t =>
    rw [replaceAll, replaceAfter]
    split_ifs
    · obtain ⟨e, rest, rfl⟩ := List.exists_cons_of_ne_nil hne
      simpa using hreplacement
    · simpa using ht

end Text

namespace Matcher

variable {m : Matcher} {replacement source : Text} {t : Tree} {a b : Atom} {sigil name : Text}

/-- The colons before a name are kept when the query is replaced: the name is replaced as a whole, or the replacement
brings colons, or the query occurs in the name. An empty replacement lets other characters come to the front, and must not
bring up another number of colons. -/
def KeepsColons (m : Matcher) (replacement sigil name : Text) : Prop :=
  m.options.exact = true ∨ replacement.head? = some ':' ∨
    (m.hits name = true ∧ (replacement = [] → (m.substitute [] name).takeWhile isColon ∈ [[], sigil])) ∨
      m.hits name = false ∧ replacement = [] ∧ (m.substitute [] (sigil ++ name)).takeWhile isColon = sigil

theorem renamed_keyword (hsigil : a.sigil? = some sigil) (hname : a.keywordName? = some name) :
    m.renamed replacement a =
      if m.options.exact then withSigil sigil replacement
      else if m.hits name then withSigil sigil (m.substitute replacement name)
      else m.substitute replacement a.text := by
  rw [renamed, hsigil, hname]

theorem head?_withSigil (hsigil : sigil.head? = some ':') : (withSigil sigil name).head? = some ':' := by
  rw [withSigil]
  split_ifs with hname
  · exact hname
  · rw [List.head?_append, hsigil]
    rfl

theorem colons_withSigil (hsigil : sigil.takeWhile isColon = sigil) :
    (withSigil sigil name).takeWhile isColon = sigil ↔ name.takeWhile isColon ∈ [[], sigil] := by
  rw [withSigil, List.mem_pair]
  split_ifs with hname
  · have hcolons : name.takeWhile isColon ≠ [] := fun hnil => colons_eq_nil_iff.mp hnil hname
    exact (or_iff_right hcolons).symm
  · exact iff_of_true (colons_append hsigil hname) (.inl (colons_eq_nil_iff.mpr hname))

theorem occurs_of_matches (hkind : a.kind = .keyword) (hname : a.keywordName? = some name) (hexact : m.options.exact = false)
    (hmatch : m.matchesAtom a = true) (hmiss : m.hits name = false) :
    Text.occurs m.same m.query a.text = true ∧ Text.occurs m.same m.query name = false := by
  simp only [matchesAtom, hkind, hname, Option.any_some, hmiss, Bool.or_false] at hmatch
  simp only [hits, hexact, Bool.false_eq_true, if_false] at hmatch hmiss
  exact ⟨hmatch, hmiss⟩

/-- The new text of a keyword has the old colons in front. -/
theorem colons_renamed_iff (htext : a.text = sigil ++ name) (hsigil : a.sigil? = some sigil)
    (hname : a.keywordName? = some name) (hcolons : sigil.takeWhile isColon = sigil) (hfront : name.head? ≠ some ':')
    (hmatch : m.matchesAtom a = true) (hreplacement : replacement.head? ≠ some ':') :
    (m.renamed replacement a).takeWhile isColon = sigil ↔ m.KeepsColons replacement sigil name := by
  rw [renamed_keyword hsigil hname, KeepsColons]
  cases hexact : m.options.exact with
  | true =>
    rw [if_pos rfl]
    exact iff_of_true ((colons_withSigil hcolons).mpr (by simp [colons_eq_nil_iff.mpr hreplacement])) (.inl rfl)
  | false =>
    cases hhits : m.hits name with
    | true =>
      simp only [Bool.false_eq_true, if_false, if_true, hreplacement, false_or, true_and, Bool.true_eq_false, false_and,
        or_false, colons_withSigil hcolons]
      by_cases hnil : replacement = []
      · simp [hnil]
      · have hnone : (m.substitute replacement name).takeWhile isColon = [] :=
          colons_eq_nil_iff.mpr (Text.head?_replaceAll_ne hfront hnil hreplacement)
        simp [hnone, hnil]
    | false =>
      obtain ⟨hoccurs, hmiss⟩ := occurs_of_matches (keyword_of_sigil? hsigil) hname hexact hmatch hhits
      rw [htext] at hoccurs ⊢
      simp only [Bool.false_eq_true, if_false, hreplacement, false_or, true_and, false_and]
      by_cases hnil : replacement = []
      · simp [hnil]
      · have hfewer := Text.length_colons_replaceAll hoccurs hmiss hnil hreplacement
        refine iff_of_false (fun hsame => ?_) (by simp [hnil])
        rw [substitute] at hsame
        rw [hsame] at hfewer
        exact Nat.lt_irrefl _ hfewer

theorem head?_renamed (htext : a.text.head? = some ':') (hsigil : a.sigil? = some sigil) (hname : a.keywordName? = some name)
    (hhead : sigil.head? = some ':')
    (h : m.options.exact = true ∨ m.hits name = true ∨ replacement.head? = some ':') :
    (m.renamed replacement a).head? = some ':' := by
  rw [renamed_keyword hsigil hname]
  split_ifs with hexact hhits
  · exact head?_withSigil hhead
  · exact head?_withSigil hhead
  · have hreplacement := (h.resolve_left hexact).resolve_left hhits
    exact Text.head?_replaceAll htext hreplacement

/-- A keyword of a document whose new text can be read stays a keyword if its name is replaced, as a whole or in part, or
if the replacement begins with a colon. It stays a keyword with its own colons, or with those that the replacement brings,
if and only if the query does not take colons away. -/
theorem renamed_keeps_keyword_iff (m : Matcher) (replacement : Text) (h : Tree.read source = .ok t) (ha : a ∈ t.atoms)
    (hkind : a.kind = .keyword) (hmatch : m.matchesAtom a = true) (hb : Atom.read (m.renamed replacement a) = .ok b) :
    ∃ sigil name, a.text = sigil ++ name ∧ a.sigil? = some sigil ∧ a.keywordName? = some name ∧
      (m.options.exact = true ∨ m.hits name = true ∨ replacement.head? = some ':' → b.kind = .keyword) ∧
        (b.kind = .keyword ∧ (replacement.head? ≠ some ':' → b.sigil? = a.sigil?) ↔
          m.KeepsColons replacement sigil name) := by
  have hself := Atom.read_of_mem_atoms h ha
  obtain ⟨sigil, name, htext, hsigil, hname, hhead, hcolons, hfront⟩ := Atom.exists_sigil hself hkind
  have hstays : m.options.exact = true ∨ m.hits name = true ∨ replacement.head? = some ':' → b.kind = .keyword := by
    intro hcases
    exact (keyword_iff hb).mpr (head?_renamed ((keyword_iff hself).mp hkind) hsigil hname hhead hcases)
  refine ⟨sigil, name, htext, hsigil, hname, hstays, ?_⟩
  by_cases hreplacement : replacement.head? = some ':'
  · exact iff_of_true ⟨hstays (.inr (.inr hreplacement)), fun hne => absurd hreplacement hne⟩ (.inr (.inl hreplacement))
  · have hne : sigil ≠ [] := by
      rintro rfl
      cases hhead
    rw [← colons_renamed_iff htext hsigil hname hcolons hfront hmatch hreplacement, ← sigil?_eq_some_iff hb hne, hsigil]
    exact ⟨fun hkeeps => hkeeps.2 hreplacement, fun hsame => ⟨keyword_of_sigil? hsame, fun _ => hsame⟩⟩

/-- A query that occurs twice in the name of a keyword with two colons. -/
theorem renamed_keeps_keyword_iff_twice :
    ∃ (m : Matcher) (t : Tree) (a b : Atom), Tree.read "(ab ::ab/ab)".toList = .ok t ∧ a ∈ t.atoms ∧ a.kind = .keyword ∧
      m.matchesAtom a = true ∧ Atom.read (m.renamed ['c'] a) = .ok b ∧ b.text = "::c/c".toList ∧ b.kind = .keyword ∧
        b.sigil? = a.sigil? := by
  have hread : Tree.read "(ab ::ab/ab)".toList = .ok (.root [.composite () (.bracket .list) [.atom () ⟨.symbol, "ab".toList⟩,
      .trivia () (.whitespace [' ']), .atom () ⟨.keyword, "::ab/ab".toList⟩]]) := rfl
  have hmem : ⟨.keyword, "::ab/ab".toList⟩ ∈ [Atom.mk .symbol "ab".toList, ⟨.keyword, "::ab/ab".toList⟩] := by decide
  obtain ⟨sigil, name, -, -, hname, -, hkeeps⟩ := renamed_keeps_keyword_iff (b := ⟨.keyword, "::c/c".toList⟩)
    ⟨"ab".toList, ⟨false, true⟩, by decide⟩ ['c'] hread hmem rfl rfl rfl
  obtain rfl := Option.some.inj hname
  obtain ⟨hkind, hsigil⟩ := hkeeps.mpr (.inr (.inr (.inl ⟨rfl, nofun⟩)))
  exact ⟨⟨"ab".toList, ⟨false, true⟩, by decide⟩, _, _, _, hread, hmem, rfl, rfl, rfl, rfl, hkind, hsigil (by decide)⟩

/-- A query that takes in a colon turns a keyword into a symbol, or leaves it one of its two colons. -/
theorem renamed_loses_colons :
    ∃ m : Matcher, m.query = ":f".toList ∧ m.options = ⟨false, true⟩ ∧
      (∃ t a b, Tree.read ":foo".toList = .ok t ∧ a ∈ t.atoms ∧ a.kind = .keyword ∧ m.matchesAtom a = true ∧
        Atom.read (m.renamed ['g'] a) = .ok b ∧ b.kind = .symbol) ∧
      ∃ t a b, Tree.read "::foo".toList = .ok t ∧ a ∈ t.atoms ∧ a.kind = .keyword ∧ m.matchesAtom a = true ∧
        Atom.read (m.renamed ['g'] a) = .ok b ∧ a.sigil? = some [':', ':'] ∧ b.sigil? = some [':'] := by
  refine ⟨⟨":f".toList, ⟨false, true⟩, by decide⟩, rfl, rfl, ?_, ?_⟩
  · exact ⟨.root [.atom () ⟨.keyword, ":foo".toList⟩], _, ⟨.symbol, "goo".toList⟩, rfl, List.mem_singleton_self _, rfl, rfl,
      rfl, rfl⟩
  · exact ⟨.root [.atom () ⟨.keyword, "::foo".toList⟩], _, ⟨.keyword, ":goo".toList⟩, rfl, List.mem_singleton_self _, rfl,
      rfl, rfl, rfl, rfl⟩

end Matcher

end SexprEdit
