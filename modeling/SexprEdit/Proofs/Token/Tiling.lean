import SexprEdit.Proofs.Token.Pattern

/-!
# Tokenizing by longest matches

The spans of a source lie end to end and cover it. Each holds the longest text there that matches a pattern, or stray text
where no pattern matches: a token of the grammar at the front of a text is never longer than what is read off it
(`Token.Genuine.exists_front`).
-/

namespace SexprEdit

/-! ## Longest matches -/

theorem length_le_takeWhile {p : Char → Bool} {cs : Text} (h : cs.all p = true) (rest : Text) :
    cs.length ≤ ((cs ++ rest).takeWhile p).length := by
  rw [List.takeWhile_append_of_pos (List.all_eq_true.mp h), List.length_append]
  exact Nat.le_add_right _ _

theorem exists_scanCharacter {c : Char} (hc : c ≠ '\n') (rest : Text) :
    ∃ body, scanCharacter (c :: rest) = some body := by
  rw [scanCharacter.eq_def]
  split
  · exact ⟨_, rfl⟩
  · simp only
    split_ifs with hu ho hn
    · exact ⟨_, rfl⟩
    · exact ⟨_, rfl⟩
    · exact absurd (eq_of_beq hn) hc
    · exact ⟨_, rfl⟩

theorem scanCharacter_name {name : Text} (h : name ∈ characterNames) (rest : Text) :
    scanCharacter (name ++ rest) = some name := by
  have hapart : ∀ a ∈ characterNames, ∀ b ∈ characterNames, a.isPrefixOf b = true → a = b := by decide
  have hsome : (characterNames.find? (·.isPrefixOf (name ++ rest))).isSome = true :=
    List.find?_isSome.mpr ⟨name, h, by simp⟩
  obtain ⟨found, hfound⟩ := Option.isSome_iff_exists.mp hsome
  have hmem := List.mem_of_find?_eq_some hfound
  have hfirst := List.find?_some hfound
  have hbegins : found <+: name ++ rest := List.isPrefixOf_iff_prefix.mp hfirst
  have hsame : found = name := by
    rcases List.prefix_or_prefix_of_prefix hbegins (List.prefix_append name rest) with hle | hle
    · exact hapart found hmem name h (List.isPrefixOf_iff_prefix.mpr hle)
    · exact (hapart name h found hmem (List.isPrefixOf_iff_prefix.mpr hle)).symm
  rw [scanCharacter.eq_def, hfound, hsame]

theorem scanCharacter_append {body : Text} (h : scanCharacter body = some body) (rest : Text) :
    ∃ longer, scanCharacter (body ++ rest) = some longer ∧ body.length ≤ longer.length := by
  rcases Pattern.mem_characterBody.mp (Pattern.mem_characterBody_iff.mpr h) with
    hname | ⟨digits, rfl, hlength, hall⟩ | ⟨digits, rfl, hlength, hall⟩ | ⟨c, hc, rfl⟩
  · exact ⟨body, scanCharacter_name hname rest, le_rfl⟩
  · have htake : (digits ++ rest).take 4 = digits := List.take_left' hlength
    have hrun : digits.takeWhile isHexDigit = digits := by simpa using hall
    refine ⟨'u' :: digits, ?_, le_rfl⟩
    rw [List.cons_append, scanCharacter.eq_def, Pattern.find?_characterNames_of_digits (.inl rfl)]
    simp [htake, hrun, hlength]
  · refine ⟨'o' :: ((digits ++ rest).take 3).takeWhile isOctalDigit, ?_, ?_⟩
    · rw [List.cons_append, scanCharacter.eq_def, Pattern.find?_characterNames_of_digits (.inr rfl)]
      simp
    · rw [List.take_append, List.take_of_length_le hlength.2]
      exact Nat.succ_le_succ (length_le_takeWhile hall _)
  · obtain ⟨longer, hlonger⟩ := exists_scanCharacter hc rest
    refine ⟨longer, hlonger, List.length_pos_iff.mpr ?_⟩
    rintro rfl
    exact scanCharacter_ne_nil _ hlonger

/-- Where a token of the grammar stands at the front of a text, a token is read that is at least as long. -/
theorem Token.Genuine.exists_front {u : Token} (hu : u.Genuine) (rest : Text) :
    ∃ t, front? (u.text ++ rest) = some (.token t) ∧ u.text.length ≤ t.text.length := by
  cases u with
  | whitespace text =>
    obtain ⟨hne, hall⟩ := hu
    obtain ⟨c, cs, rfl⟩ := List.exists_cons_of_ne_nil hne
    rw [List.all_cons, Bool.and_eq_true] at hall
    refine ⟨.whitespace (c :: (cs ++ rest).takeWhile isBlank), ?_, Nat.succ_le_succ (length_le_takeWhile hall.2 rest)⟩
    simp only [Token.text, List.cons_append, front?, scan, hall.1, if_true]
  | comment text =>
    obtain ⟨body, hbody, hline⟩ := hu
    have hrun := length_le_takeWhile (Pattern.mem_kstar_oneOf.mp (Pattern.mem_line.mpr hline)) rest
    rcases hbody with rfl | rfl
    · refine ⟨.comment (';' :: (body ++ rest).takeWhile (· != '\n')), ?_, Nat.succ_le_succ hrun⟩
      simp [Token.text, front?, scan, isBlank]
    · refine ⟨.comment ('#' :: '!' :: (body ++ rest).takeWhile (· != '\n')), ?_, Nat.succ_le_succ (Nat.succ_le_succ hrun)⟩
      simp [Token.text, front?, scan_hash, scanHash]
  | mark mark =>
    cases mark with
    | unquote =>
      refine ⟨.mark (if rest.head? == some '@' then .unquoteSplicing else .unquote), ?_, ?_⟩
      · simp [Token.text, Mark.text, front?, scan, isBlank]
      · split_ifs <;> decide
    | tag text =>
      obtain ⟨c, word, rfl, hc, hword⟩ := hu
      have hall : (c :: word).all (!isStop ·) = true := by
        rw [List.all_cons, isStop_of_isTagStart hc, hword]
        rfl
      refine ⟨.mark (.tag ('#' :: scanWord (c :: word ++ rest))), ?_, Nat.succ_le_succ (length_le_takeWhile hall rest)⟩
      simp only [Token.text, Mark.text, List.cons_append, front?, scan_hash, scanHash_tag hc]
    | _ => exact ⟨_, front?_append hu rfl, le_rfl⟩
  | character text =>
    obtain ⟨body, rfl, hbody⟩ := hu
    obtain ⟨longer, hlonger, hlength⟩ := scanCharacter_append hbody rest
    refine ⟨.character ('\\' :: longer), ?_, Nat.succ_le_succ hlength⟩
    simp [Token.text, front?, scan, isBlank, hlonger]
  | bare text =>
    obtain ⟨c, word, rfl, hc, hword⟩ := hu
    exact ⟨_, congrArg some (scan_bare hc (word ++ rest)), Nat.succ_le_succ (length_le_takeWhile hword rest)⟩
  | _ => exact ⟨_, front?_append hu rfl, le_rfl⟩

/-! ## Pieces -/

theorem of_ite_token {b : Prop} [Decidable b] {t : Token} {piece : Lexeme} {text : Text}
    (h : (if b then .token t else piece) = Lexeme.stray text) : piece = .stray text := by
  split at h
  · cases h
  · exact h

theorem scanHash_stray {cs text : Text} (h : scanHash cs = .stray text) :
    text = ['#'] ∨
      ∃ c rest, cs = c :: rest ∧ (text = '#' :: c :: scanWord rest ∨ text = '#' :: c :: (scanQuoted rest).1) := by
  cases cs with
  | nil => exact .inl (Lexeme.stray.inj h).symm
  | cons c rest =>
    rw [scanHash.eq_def] at h
    iterate 5 replace h := of_ite_token h
    split at h
    · replace h := of_ite_token (of_ite_token h)
      exact .inl (Lexeme.stray.inj h).symm
    · split at h
      · replace h := of_ite_token h
        exact .inr ⟨c, rest, rfl, .inl (Lexeme.stray.inj h).symm⟩
      · split at h
        · replace h := of_ite_token h
          exact .inr ⟨c, rest, rfl, .inr (Lexeme.stray.inj h).symm⟩
        · split at h
          · split at h
            · cases h
            · exact .inl (Lexeme.stray.inj h).symm
          · replace h := of_ite_token h
            exact .inl (Lexeme.stray.inj h).symm

theorem scan_stray {c : Char} {cs text : Text} (h : scan c cs = .stray text) :
    text = [c] ∨ text = c :: (scanQuoted cs).1 ∨ c = '#' ∧ scanHash cs = .stray text := by
  rw [scan.eq_def] at h
  iterate 13 replace h := of_ite_token h
  split at h
  · replace h := of_ite_token h
    exact .inr (.inl (Lexeme.stray.inj h).symm)
  · split at h
    · split at h
      · cases h
      · exact .inl (Lexeme.stray.inj h).symm
    · split at h
      · next hc => exact .inr (.inr ⟨eq_of_beq hc, h⟩)
      · replace h := of_ite_token h
        exact .inl (Lexeme.stray.inj h).symm

theorem scan_prefix (c : Char) (cs : Text) : (scan c cs).text <+: c :: cs ∧ (scan c cs).text ≠ [] := by
  cases hscan : scan c cs with
  | token t =>
    have hsound := scan_sound c cs
    rw [hscan] at hsound
    obtain ⟨rest, hsplit, ht, -⟩ := hsound
    exact ⟨⟨rest, hsplit.symm⟩, ht.text_ne_nil⟩
  | stray text =>
    have hquoted : ∀ ds, (scanQuoted ds).1 <+: ds := by
      intro ds
      obtain ⟨rest, hrest⟩ := scanQuoted_prefix ds
      exact ⟨rest, hrest.symm⟩
    obtain rfl | rfl | ⟨rfl, hhash⟩ := scan_stray hscan
    · exact ⟨by simp [Lexeme.text], by simp [Lexeme.text]⟩
    · exact ⟨List.cons_prefix_cons.mpr ⟨rfl, hquoted cs⟩, by simp [Lexeme.text]⟩
    · obtain rfl | ⟨d, rest, rfl, rfl | rfl⟩ := scanHash_stray hhash
      · exact ⟨by simp [Lexeme.text], by simp [Lexeme.text]⟩
      · have hword : scanWord rest <+: rest := List.takeWhile_prefix _
        exact ⟨by simpa [Lexeme.text, List.cons_prefix_cons] using hword, by simp [Lexeme.text]⟩
      · exact ⟨by simpa [Lexeme.text, List.cons_prefix_cons] using hquoted rest, by simp [Lexeme.text]⟩

/-- Lexing takes a piece that is not empty off the front and goes on with the rest. -/
theorem lex_induction {motive : Text → Prop} (nil : motive [])
    (cons : ∀ (piece : Lexeme) (rest : Text), piece.text ≠ [] → front? (piece.text ++ rest) = some piece →
      lex (piece.text ++ rest) = piece :: lex rest → motive rest → motive (piece.text ++ rest)) (s : Text) : motive s := by
  induction hn : s.length using Nat.strong_induction_on generalizing s with
  | _ n ih =>
    cases s with
    | nil => exact nil
    | cons c cs =>
      obtain ⟨⟨rest, hrest⟩, hne⟩ := scan_prefix c cs
      obtain ⟨d, ds, hds⟩ := List.exists_cons_of_ne_nil hne
      have hlex : lex (c :: cs) = scan c cs :: lex rest := by
        rw [hds, List.cons_append, List.cons.injEq] at hrest
        rw [lex_cons, hds, List.length_cons, Nat.add_sub_cancel, ← hrest.2, List.drop_left]
      have hshorter : rest.length < n := by
        rw [← hn, ← hrest, hds, List.length_append, List.length_cons]
        omega
      rw [← hrest] at hlex ⊢
      exact cons (scan c cs) rest hne (by rw [hrest]; rfl) hlex (ih rest.length hshorter rest rfl)

/-! ## Spans -/

/-- Spans that are not empty lie end to end from one offset to another. -/
inductive Tiles : Nat → List Span → Nat → Prop where
  | nil {pos : Nat} : Tiles pos [] pos
  | cons {span : Span} {spans : List Span} {stop : Nat} (hspan : span.start < span.stop)
      (hspans : Tiles span.stop spans stop) : Tiles span.start (span :: spans) stop

theorem bytes_pos {text : Text} (h : text ≠ []) : 0 < Text.bytes text := by
  obtain ⟨c, cs, rfl⟩ := List.exists_cons_of_ne_nil h
  exact Nat.add_pos_left c.utf8Size_pos _

theorem tiles_spansFrom (pos : Nat) (s : Text) : Tiles pos (spansFrom pos (lex s)) (pos + Text.bytes s) := by
  induction s using lex_induction generalizing pos with
  | nil => exact .nil
  | cons piece rest hne _ hlex ih =>
    rw [hlex, spansFrom, Text.bytes_append, ← Nat.add_assoc]
    exact @Tiles.cons ⟨piece, pos, pos + Text.bytes piece.text⟩ _ _ (Nat.lt_add_of_pos_right (bytes_pos hne)) (ih _)

theorem exists_of_mem_spansFrom {s : Text} {span : Span} (before : Text)
    (h : span ∈ spansFrom (Text.bytes before) (lex s)) :
    ∃ front after, before ++ s = front ++ span.piece.text ++ after ∧ span.start = Text.bytes front ∧
      span.stop = Text.bytes (front ++ span.piece.text) ∧ front? (span.piece.text ++ after) = some span.piece := by
  induction s using lex_induction generalizing before with
  | nil => cases h
  | cons piece rest hne hfront hlex ih =>
    rw [hlex, spansFrom, ← Text.bytes_append] at h
    rcases List.mem_cons.mp h with rfl | h
    · exact ⟨before, rest, (List.append_assoc _ _ _).symm, rfl, rfl, hfront⟩
    · obtain ⟨front, after, hsplit, hspan⟩ := ih (before ++ piece.text) h
      exact ⟨front, after, by rw [← List.append_assoc, hsplit], hspan⟩

/-- A text is the longest one at its place that matches a pattern, and no other pattern matches it. -/
structure Pattern.Longest (p : Pattern) (text after : Text) : Prop where
  mem : text ∈ p.language
  length_le : ∀ (q : Pattern) (u : Text), u ∈ q.language → u <+: text ++ after → u.length ≤ text.length
  unique : ∀ q : Pattern, text ∈ q.language → q = p

theorem Pattern.exists_front {q : Pattern} {s u : Text} (hu : u ∈ q.language) (hbegins : u <+: s) :
    ∃ t, front? s = some (.token t) ∧ u.length ≤ t.text.length := by
  obtain ⟨rest, rfl⟩ := hbegins
  obtain ⟨hgenuine, htext, -⟩ := mem_language_iff.mp hu
  obtain ⟨t, hfront, hlength⟩ := hgenuine.exists_front rest
  rw [htext] at hfront hlength
  exact ⟨t, hfront, hlength⟩

theorem Pattern.longest_of_front {t : Token} {after : Text} (h : front? (t.text ++ after) = some (.token t)) :
    t.pattern.Longest t.text after := by
  obtain ⟨-, -, hgenuine, -⟩ := front?_eq_token_iff.mp h
  have hmem := mem_language_of_genuine hgenuine
  refine ⟨hmem, fun q u hu hbegins => ?_, fun q hq => eq_of_mem_language hq hmem⟩
  obtain ⟨t', hfront, hlength⟩ := exists_front hu hbegins
  obtain rfl := Lexeme.token.inj (Option.some.inj (h.symm.trans hfront))
  exact hlength

/-- The spans of a source begin at its start, lie end to end and end with it, none is empty, and each is a part of the source.
A span holds the token of a pattern whose match there is the longest of all patterns, which no other pattern matches; or
stray text, where no pattern matches the beginning of what is left. -/
theorem tokenize_longest_match (source : Text) :
    Tiles 0 (tokenize source) (Text.bytes source) ∧
      ∀ span ∈ tokenize source, ∃ before text after, source = before ++ text ++ after ∧
        span.start = Text.bytes before ∧ span.stop = Text.bytes (before ++ text) ∧
          ((∃ p : Pattern, span.piece = .token (p.token text) ∧ p.Longest text after) ∨
            span.piece = .stray text ∧ ∀ (q : Pattern) (u : Text), u ∈ q.language → ¬ u <+: text ++ after) := by
  refine ⟨?_, fun span hspan => ?_⟩
  · rw [← Nat.zero_add (Text.bytes source)]
    exact tiles_spansFrom 0 source
  · obtain ⟨before, after, hsource, hstart, hstop, hfront⟩ := exists_of_mem_spansFrom [] hspan
    refine ⟨before, span.piece.text, after, hsource, hstart, hstop, ?_⟩
    generalize span.piece = piece at hfront
    cases piece with
    | token t =>
      exact .inl ⟨t.pattern, congrArg Lexeme.token (Pattern.token_pattern t).symm, Pattern.longest_of_front hfront⟩
    | stray text =>
      refine .inr ⟨rfl, fun q u hu hbegins => ?_⟩
      obtain ⟨t, htoken, -⟩ := Pattern.exists_front hu hbegins
      rw [hfront] at htoken
      cases htoken

example : (tokenize "~@\\newlineé#".toList).map (fun span => (span.piece.text, span.start, span.stop)) =
    [("~@".toList, 0, 2), ("\\newline".toList, 2, 10), ("é#".toList, 10, 13)] := by decide

end SexprEdit
