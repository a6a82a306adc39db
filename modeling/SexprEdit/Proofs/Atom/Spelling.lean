import SexprEdit.Proofs.Edit.Kept
import SexprEdit.Proofs.Node.Respelled
import SexprEdit.Proofs.Reader.Excerpt

/-!
# Atoms and how they are spelled

Every atom of a document is what its own text reads as (`Atom.read_of_mem_atoms`). The first character of a text tells
whether it reads as a keyword, and the colons in front of a keyword's name are those that the text begins with. So colons
put before a name that begins with none are the sigil of a keyword, and the rest is its name.
-/

namespace SexprEdit

open Node

namespace Atom

variable {source : Text} {t : Tree} {a : Atom}

theorem read_of_token (hatom : a.token.atom? = some a) (hgenuine : a.token.Genuine) : Atom.read a.text = .ok a := by
  have hseparate : Token.Separate [a.token] := ⟨List.forall_mem_singleton.mpr hgenuine, .singleton _⟩
  have hread : Tree.read a.text = .ok (.root [.atom () a]) :=
    Tree.read_text (n := .atom () a) (grammatical_atom_iff.mpr hatom) rfl hseparate
  rw [Atom.read, hread]
  rfl

theorem made_of_mem_atoms {ι : Type} {n : Node ι} (hn : n.Sound) (ha : a ∈ n.atoms) :
    a.token.atom? = some a ∧ a.token.Genuine := by
  induction n using child_induction with
  | node n ih =>
    cases n with
    | composite label kind children =>
      obtain ⟨k, hk, hmem⟩ := mem_atomsAll.mp ha
      exact ih k hk (hn.children Token.lawful_genuine k hk).1 hmem
    | atom label b =>
      obtain rfl := List.mem_singleton.mp ha
      exact ⟨grammatical_atom_iff.mp hn.grammatical, hn.token _ (List.mem_singleton_self _)⟩
    | trivia label t => cases ha

/-- An atom of a document is what its own text reads as. -/
theorem read_of_mem_atoms (h : Tree.read source = .ok t) (ha : a ∈ t.atoms) : Atom.read a.text = .ok a := by
  obtain ⟨-, hsound, -⟩ := Tree.sound_of_read h
  obtain ⟨hatom, hgenuine⟩ := made_of_mem_atoms hsound ha
  exact read_of_token hatom hgenuine

/-! ## Keywords -/

theorem keyword_iff_of_ofBare {text : Text} (h : Atom.ofBare text = .ok a) :
    a.kind = .keyword ↔ text.head? = some ':' := by
  rw [ofBare] at h
  split_ifs at h with hcolon <;> obtain rfl := Except.ok.inj h
  · exact iff_of_true rfl (eq_of_beq hcolon)
  all_goals
    refine iff_of_false (by simp) ?_
    simpa using hcolon

theorem keyword_iff (h : Atom.read source = .ok a) : a.kind = .keyword ↔ source.head? = some ':' := by
  obtain ⟨rfl, hatom, hgenuine⟩ := read_spec h
  generalize htoken : a.token = token at hatom hgenuine
  cases token with
  | bare text =>
    have hbare : Atom.ofBare text = .ok a := Except.ok_of_toOption hatom
    rw [← a.text_token, htoken]
    exact keyword_iff_of_ofBare hbare
  | string text | regex text | character text | symbolic text =>
    obtain rfl := Option.some.inj hatom
    refine iff_of_false (by simp) fun hcolon => ?_
    simp only [Token.Genuine] at hgenuine
    obtain ⟨body, hbody⟩ := hgenuine
    simp_all
  | _ => cases hatom

theorem colons_eq_nil_iff {text : Text} : text.takeWhile isColon = [] ↔ text.head? ≠ some ':' := by
  cases text with
  | nil => simp
  | cons c text =>
    by_cases hc : c = ':'
    · simp [hc, isColon]
    · simp [hc, isColon]

theorem colons_append {sigil name : Text} (hsigil : sigil.takeWhile isColon = sigil) (hname : name.head? ≠ some ':') :
    (sigil ++ name).takeWhile isColon = sigil := by
  refine (takeWhile_append_eq_left_iff _ _ _).mpr ⟨hsigil, ?_⟩
  cases name with
  | nil => rfl
  | cons c name => simpa [isColon] using hname

theorem sigil?_eq_some_iff {sigil : Text} (h : Atom.read source = .ok a) (hne : sigil ≠ []) :
    a.sigil? = some sigil ↔ source.takeWhile isColon = sigil := by
  obtain ⟨htext, -, -⟩ := read_spec h
  by_cases hkind : a.kind = .keyword
  · rw [sigil?, if_pos hkind, htext, Option.some.injEq]
  · rw [sigil?, if_neg hkind, colons_eq_nil_iff.mpr (mt (keyword_iff h).mpr hkind)]
    exact iff_of_false (by simp) hne.symm

theorem keyword_of_sigil? {sigil : Text} (h : a.sigil? = some sigil) : a.kind = .keyword := by
  by_contra hkind
  rw [sigil?, if_neg hkind] at h
  cases h

/-- The text of a keyword is its colons, of which there are some, and then its name, which begins with none. -/
theorem exists_sigil (h : Atom.read a.text = .ok a) (hkind : a.kind = .keyword) :
    ∃ sigil name, a.text = sigil ++ name ∧ a.sigil? = some sigil ∧ a.keywordName? = some name ∧
      sigil.head? = some ':' ∧ sigil.takeWhile isColon = sigil ∧ name.head? ≠ some ':' := by
  have hcolon := (keyword_iff h).mp hkind
  refine ⟨a.text.takeWhile isColon, a.text.dropWhile isColon, List.takeWhile_append_dropWhile.symm, if_pos hkind,
    if_pos hkind, ?_, ?_, ?_⟩
  · obtain ⟨rest, hrest⟩ := List.head?_eq_some_iff.mp hcolon
    simp [hrest, isColon]
  · exact List.takeWhile_eq_self_iff.mpr fun c hc => List.mem_takeWhile_imp hc
  · intro hname
    have hstop := head?_dropWhile isColon a.text
    simp [hname, isColon] at hstop

end Atom

end SexprEdit
