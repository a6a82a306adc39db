import SexprEdit.Proofs.Token.Adjacent

/-!
# The pieces that carry meaning

`significant` leaves out the trivia of a text. Blanks in front of a text add nothing to it, nor does a comment if the
text begins with a line break. Any other token adds itself, exactly if the text does not prolong it
(`significant_append_iff`).
-/

namespace SexprEdit

/-- Whether a piece of source only separates. -/
def Lexeme.isTrivia : Lexeme → Bool
  | .token t => t.isTrivia
  | .stray _ => false

def significant (s : Text) : List Lexeme :=
  (lex s).filter (!·.isTrivia)

@[simp] theorem significant_nil : significant [] = [] := rfl

theorem significant_append_trivia {t : Token} (ht : t.Genuine) (htrivia : t.isTrivia = true) (rest : Text)
    (hrest : t.stopsBefore rest = true) : significant (t.text ++ rest) = significant rest := by
  rw [significant, lex_append ht hrest, List.filter_cons_of_neg (by simpa [Lexeme.isTrivia] using htrivia), significant]

/-! ## Trivia in front of a text -/

theorem significant_blanks_dropWhile (s : Text) : significant s = significant (s.dropWhile isBlank) := by
  by_cases hnil : s.takeWhile isBlank = []
  · have hsplit := List.takeWhile_append_dropWhile (p := isBlank) (l := s)
    rw [hnil, List.nil_append] at hsplit
    rw [hsplit]
  · conv_lhs => rw [← List.takeWhile_append_dropWhile (p := isBlank) (l := s)]
    exact significant_append_trivia (t := .whitespace (s.takeWhile isBlank)) ⟨hnil, List.all_takeWhile⟩ rfl
      (s.dropWhile isBlank) (head?_dropWhile isBlank s)

theorem significant_blanks (blanks : Text) (h : blanks.all isBlank = true) (rest : Text) :
    significant (blanks ++ rest) = significant rest := by
  have hdrop : (blanks ++ rest).dropWhile isBlank = rest.dropWhile isBlank :=
    List.dropWhile_append_of_pos fun c hc => List.all_eq_true.mp h c hc
  rw [significant_blanks_dropWhile, hdrop, ← significant_blanks_dropWhile]

/-- A comment adds nothing to a text that begins with a line break. In front of `\r\n` it takes the first character
with it. -/
theorem significant_comment {text : Text} (ht : (Token.comment text).Genuine) (rest : Text)
    (hrest : rest = [] ∨ Text.startsWithNewline rest = true) : significant (text ++ rest) = significant rest := by
  rcases hrest with rfl | hrest
  · exact significant_append_trivia ht rfl _ rfl
  · rw [Text.startsWithNewline.eq_def] at hrest
    split at hrest
    · exact significant_append_trivia ht rfl _ rfl
    · next rest =>
      obtain ⟨body, hbody, hline⟩ := ht
      have hreturn : (Token.comment (text ++ ['\r'])).Genuine := by
        refine ⟨body ++ ['\r'], ?_, by simpa using hline⟩
        rcases hbody with rfl | rfl
        · exact .inl rfl
        · exact .inr rfl
      have hcomment := significant_append_trivia hreturn rfl ('\n' :: rest) rfl
      rw [Token.text, List.append_assoc, List.singleton_append] at hcomment
      rw [hcomment]
      exact (significant_blanks ['\r'] rfl ('\n' :: rest)).symm
    · simp at hrest

/-! ## Other tokens in front of a text -/

theorem not_isBlank_of_isBareStart {c : Char} (h : isBareStart c = true) : isBlank c = false := by
  by_contra hblank
  rw [Bool.not_eq_false] at hblank
  simp [isBareStart, isBareInner, isStop_of_isBlank hblank] at h

theorem Token.Genuine.trivia_front {t : Token} (ht : t.Genuine) (htrivia : t.isTrivia = true) :
    (∃ c rest, t.text = c :: rest ∧ isBlank c = true) ∨ (∃ rest, t.text = ';' :: rest) ∨
      ∃ rest, t.text = '#' :: '!' :: rest := by
  cases t with
  | whitespace text =>
    obtain ⟨hne, hall⟩ := ht
    obtain ⟨c, rest, rfl⟩ := List.exists_cons_of_ne_nil hne
    exact .inl ⟨c, rest, rfl, by simpa using (List.all_eq_true.mp hall) c (by simp)⟩
  | comment text =>
    obtain ⟨body, rfl | rfl, -⟩ := ht
    · exact .inr (.inl ⟨body, rfl⟩)
    · exact .inr (.inr ⟨body, rfl⟩)
  | _ => simp [Token.isTrivia] at htrivia

theorem Token.Genuine.form_front {t : Token} (ht : t.Genuine) (htrivia : t.isTrivia = false) :
    ∃ c rest, t.text = c :: rest ∧ isBlank c = false ∧ c ≠ ';' ∧
      (c = '#' → ∃ d more, rest = d :: more ∧ d ≠ '!') := by
  cases t with
  | whitespace text | comment text => simp [Token.isTrivia] at htrivia
  | opening bracket =>
    cases bracket with
    | namespacedMap space =>
      obtain ⟨word, rfl, -⟩ := ht
      exact ⟨'#', _, rfl, by decide, by decide, fun _ => ⟨':', _, rfl, by decide⟩⟩
    | list | vector | map => exact ⟨_, _, rfl, by decide, by decide, fun h => absurd h (by decide)⟩
    | set | fn | readerConditional | readerConditionalSplicing =>
      exact ⟨_, _, rfl, by decide, by decide, fun _ => ⟨_, _, rfl, by decide⟩⟩
  | closing closer => cases closer <;> exact ⟨_, _, rfl, by decide, by decide, fun h => absurd h (by decide)⟩
  | mark mark =>
    cases mark with
    | tag text =>
      obtain ⟨c, word, rfl, hc, -⟩ := ht
      refine ⟨'#', _, rfl, by decide, by decide, fun _ => ⟨c, word, rfl, ?_⟩⟩
      rintro rfl
      exact absurd hc (by decide)
    | var | discard => exact ⟨_, _, rfl, by decide, by decide, fun _ => ⟨_, _, rfl, by decide⟩⟩
    | quote | syntaxQuote | unquote | unquoteSplicing | deref | metadata =>
      exact ⟨_, _, rfl, by decide, by decide, fun h => absurd h (by decide)⟩
  | string text =>
    obtain ⟨body, rfl, -⟩ := ht
    exact ⟨_, _, rfl, by decide, by decide, fun h => absurd h (by decide)⟩
  | regex text =>
    obtain ⟨body, rfl, -⟩ := ht
    exact ⟨_, _, rfl, by decide, by decide, fun _ => ⟨_, _, rfl, by decide⟩⟩
  | character text =>
    obtain ⟨body, rfl, -⟩ := ht
    exact ⟨_, _, rfl, by decide, by decide, fun h => absurd h (by decide)⟩
  | symbolic text =>
    obtain ⟨name, -, rfl⟩ := ht
    exact ⟨_, _, rfl, by decide, by decide, fun _ => ⟨_, _, rfl, by decide⟩⟩
  | bare text =>
    obtain ⟨c, word, rfl, hc, -⟩ := ht
    refine ⟨c, word, rfl, not_isBlank_of_isBareStart hc, ?_, ?_⟩
    · rintro rfl
      exact absurd hc (by decide)
    · rintro rfl
      exact absurd hc (by decide)

theorem front?_append_isTrivia {t : Token} (ht : t.Genuine) (htrivia : t.isTrivia = false) {rest : Text}
    {piece : Lexeme} (h : front? (t.text ++ rest) = some piece) : piece.isTrivia = false := by
  by_contra hpiece
  rw [Bool.not_eq_false] at hpiece
  cases piece with
  | stray text => simp [Lexeme.isTrivia] at hpiece
  | token u =>
    obtain ⟨more, hmore, hu, -⟩ := front?_eq_token_iff.mp h
    obtain ⟨c, body, hbody, hblank, hsemicolon, hhash⟩ := ht.form_front htrivia
    rw [hbody] at hmore
    rcases hu.trivia_front hpiece with ⟨d, text, htext, hd⟩ | ⟨text, htext⟩ | ⟨text, htext⟩
    · rw [htext] at hmore
      rw [(List.cons.inj hmore).1, hd] at hblank
      exact absurd hblank (by simp)
    · rw [htext] at hmore
      exact hsemicolon (List.cons.inj hmore).1
    · rw [htext] at hmore
      obtain ⟨d, more', rfl, hd⟩ := hhash (List.cons.inj hmore).1
      exact hd (List.cons.inj (List.cons.inj hmore).2).1

/-- A token that is no trivia adds itself to a text exactly if the text does not prolong it. -/
theorem significant_append_iff {t : Token} (ht : t.Genuine) (htrivia : t.isTrivia = false) (rest : Text)
    (pieces : List Lexeme) :
    significant (t.text ++ rest) = .token t :: pieces ↔ t.stopsBefore rest = true ∧ significant rest = pieces := by
  have hone : t.stopsBefore rest = true → significant (t.text ++ rest) = .token t :: significant rest := by
    intro hrest
    rw [significant, lex_append ht hrest, List.filter_cons_of_pos (by simpa [Lexeme.isTrivia] using htrivia),
      significant]
  constructor
  · intro h
    -- the first piece is no trivia, so it is the first of the significant ones
    obtain ⟨c, body, hbody⟩ := List.exists_cons_of_ne_nil ht.text_ne_nil
    have hfront : front? (t.text ++ rest) = some (scan c (body ++ rest)) := by rw [hbody]; rfl
    have hpiece := front?_append_isTrivia ht htrivia hfront
    have hlex : ∃ others, lex (t.text ++ rest) = scan c (body ++ rest) :: others := by
      rw [hbody, List.cons_append, lex_cons]
      exact ⟨_, rfl⟩
    obtain ⟨others, hothers⟩ := hlex
    rw [significant, hothers, List.filter_cons_of_pos (by simpa using hpiece)] at h
    rw [(List.cons.inj h).1] at hfront
    obtain ⟨more, hmore, -, hstop⟩ := front?_eq_token_iff.mp hfront
    obtain rfl := List.append_cancel_left hmore
    refine ⟨hstop, ?_⟩
    have hsame := hone hstop
    rw [significant, hothers, List.filter_cons_of_pos (by simpa using hpiece)] at hsame
    rw [← (List.cons.inj hsame).2, (List.cons.inj h).2]
  · rintro ⟨hrest, rfl⟩
    exact hone hrest

end SexprEdit
