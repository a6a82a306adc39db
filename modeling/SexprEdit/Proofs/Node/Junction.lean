import SexprEdit.Proofs.Node.Spacing

/-!
# Where two forms meet

The test for a gap looks at two tokens only, the last one of what stands on the left and the first one of what stands
on the right. For nodes of documents that were read this decides how the whole texts read: written together they give
their own tokens, one after the other, exactly if those two tokens do not run together (`Tree.Sourced.lex_append_iff`).
No longest match reaches across more than one token, since texts with separate tokens keep apart if the tokens at the
junction do (`lex_append_iff_ends`).
-/

namespace SexprEdit

/-! ## The tokens at the ends of a node -/

/-- The text of the first token; nothing if there is none. -/
def Token.firstText (ts : List Token) : Text :=
  (ts.head?.map Token.text).getD []

/-- The text of the last token; nothing if there is none. -/
def Token.lastText (ts : List Token) : Text :=
  (ts.getLast?.map Token.text).getD []

namespace Node

variable {ι : Type}

theorem headText_eq_firstText {n : Node ι} (hn : n.Sound) : n.headText = Token.firstText n.tokens := by
  induction n using child_induction with
  | node n ih =>
    cases n with
    | atom label a => simp [headText, tokens, Token.firstText]
    | trivia label t => simp [headText, tokens, Token.firstText]
    | composite label kind children =>
      obtain ⟨hchildren, -⟩ := sound_composite_iff.mp hn
      cases kind with
      | bracket b => simp [headText, Kind.opener, b.opener_ne_nil, tokens, Kind.opening, Token.firstText, Token.text]
      | mark m =>
        simp [headText, Kind.opener, hn.mark_text_ne_nil, tokens, Kind.opening, Token.firstText, Token.text]
      | root =>
        have htokens : (composite label .root children).tokens = tokensAll children := by
          simp [tokens, Kind.opening, Kind.closing]
        rw [htokens]
        cases children with
        | nil => rfl
        | cons n ns =>
          obtain ⟨hn, hroot⟩ := hchildren n List.mem_cons_self
          rw [tokensAll_cons, Token.firstText, List.head?_append_of_ne_nil _ (tokens_ne_nil hroot)]
          exact ih n List.mem_cons_self hn

theorem tailText_eq_lastText {n : Node ι} (hn : n.Sound) : n.tailText = Token.lastText n.tokens := by
  induction n using child_induction with
  | node n ih =>
    cases n with
    | atom label a => simp [tailText, tokens, Token.lastText]
    | trivia label t => simp [tailText, tokens, Token.lastText]
    | composite label kind children =>
      obtain ⟨hchildren, -⟩ := sound_composite_iff.mp hn
      by_cases hclosing : kind.closing = []
      · -- a document or a mark ends as its last child does
        have hcloser : kind.closer = [] := by rw [← kind.texts_closing, hclosing, Token.texts_nil]
        rw [tailText, hcloser, if_pos List.isEmpty_nil, tailTextAll_eq, tokens, hclosing, List.append_nil]
        rcases List.eq_nil_or_concat' children with rfl | ⟨init, last, rfl⟩
        · cases kind <;> simp [Kind.opener, Kind.opening, Token.lastText, Token.text]
        · have hmem : last ∈ init ++ [last] := by simp
          have hlast : last.tokens ≠ [] := tokens_ne_nil (hchildren last hmem).2
          have hall : tokensAll (init ++ [last]) = tokensAll init ++ last.tokens := by simp
          rw [hall, ← List.append_assoc, Token.lastText, List.getLast?_append_of_ne_nil _ hlast, List.getLast?_concat]
          exact ih last hmem (hchildren last hmem).1
      · cases kind with
        | bracket b =>
          simp [tailText, Kind.closer, b.closer.text_ne_nil, tokens, Kind.closing, Token.lastText, Token.text]
        | _ => exact absurd rfl hclosing

end Node

/-! ## Texts side by side -/

theorem lex_texts {ts : List Token} (h : Token.Separate ts) : lex (Token.texts ts) = ts.map .token :=
  lex_eq_tokens_iff.mpr ⟨rfl, h⟩

theorem Token.separate_append {ts us : List Token} (hts : Token.Separate ts) (hus : Token.Separate us) :
    Token.Separate (ts ++ us) ↔ ∀ t ∈ ts.getLast?, ∀ u ∈ us.head?, t.stopsBefore u.text = true := by
  have hgenuine : ∀ t ∈ ts ++ us, t.Genuine := List.forall_mem_append.mpr ⟨hts.1, hus.1⟩
  rw [Token.Separate, List.isChain_append]
  exact ⟨fun h => h.2.2.2, fun h => ⟨hgenuine, hts.2, hus.2, h⟩⟩

/-- Texts with separate tokens read apart exactly if the two tokens where they meet do not run together. -/
theorem lex_append_iff_ends {ts us : List Token} (hts : Token.Separate ts) (hus : Token.Separate us) :
    lex (Token.texts ts ++ Token.texts us) = lex (Token.texts ts) ++ lex (Token.texts us) ↔
      fuses (Token.lastText ts) (Token.firstText us) = false := by
  rw [lex_texts hts, lex_texts hus, ← List.map_append, ← Token.texts_append, lex_eq_tokens_iff, eq_self, true_and,
    Token.separate_append hts hus, Token.lastText, Token.firstText]
  cases hlast : ts.getLast? with
  | none => simp [Node.fuses_nil_left]
  | some t =>
    cases hhead : us.head? with
    | none => simp [Node.fuses_nil_right]
    | some u =>
      have ht : t.Genuine := hts.1 t (List.mem_of_getLast? hlast)
      have hu : u.Genuine := hus.1 u (List.mem_of_head? hhead)
      simp [fuses_eq ht hu]

/-! ## Nodes of documents -/

/-- A node of a document that was read: the document itself, or a child of such a node. -/
inductive Tree.Sourced : Tree → Prop where
  | document {source : Text} {t : Tree} (h : Tree.read source = .ok t) : Sourced t
  | child {kind : Kind} {children : List Tree} {n : Tree} (h : Sourced (.composite () kind children))
      (hn : n ∈ children) : Sourced n

namespace Tree.Sourced

theorem grammatical {n : Tree} (h : n.Sourced) : n.Grammatical := by
  induction h with
  | document h => exact (Reader.readAll_sound h).2.1
  | child _ hn ih => exact ((Node.grammatical_composite_iff.mp ih).1 _ hn).1

theorem separate {n : Tree} (h : n.Sourced) : Token.Separate n.tokens := by
  induction h with
  | document h => exact (lex_eq_tokens_iff.mp (Reader.readAll_sound h).2.2).2
  | @child kind children n _ hn ih =>
    obtain ⟨front, back, rfl⟩ := List.append_of_mem hn
    have htokens : (Node.composite () kind (front ++ n :: back)).tokens =
        (kind.opening ++ Node.tokensAll front) ++ (n.tokens ++ (Node.tokensAll back ++ kind.closing)) := by
      simp [Node.tokens]
    rw [htokens] at ih
    exact ih.append_right.append_left

theorem sound {n : Tree} (h : n.Sourced) : n.Sound :=
  ⟨h.grammatical, h.separate.1⟩

theorem text_eq {n : Tree} (h : n.Sourced) : n.text = Token.texts n.tokens :=
  Node.text_eq_texts h.grammatical h.separate

theorem separate_opening {kind : Kind} {children : List Tree} (h : Sourced (.composite () kind children)) :
    Token.Separate kind.opening := by
  have hseparate := h.separate
  rw [Node.tokens, List.append_assoc] at hseparate
  exact hseparate.append_left

theorem opener_eq_lastText (kind : Kind) : kind.opener = Token.lastText kind.opening := by
  cases kind <;> rfl

/-- The test on two tokens is exact. Two nodes of documents, written together, give the tokens of the one followed by
the tokens of the other exactly if the last token of the one does not run into the first token of the other; and the
same holds of the opening text of a composite before a node. -/
theorem lex_append_iff {n : Tree} (hn : n.Sourced) :
    (∀ m : Tree, m.Sourced →
      (fuses m.tailText n.headText = false ↔ lex (m.text ++ n.text) = lex m.text ++ lex n.text)) ∧
    ∀ (kind : Kind) (children : List Tree), Sourced (.composite () kind children) →
      (fuses kind.opener n.headText = false ↔ lex (kind.opener ++ n.text) = lex kind.opener ++ lex n.text) := by
  rw [Node.headText_eq_firstText hn.sound, hn.text_eq]
  constructor
  · intro m hm
    rw [Node.tailText_eq_lastText hm.sound, hm.text_eq]
    exact (lex_append_iff_ends hm.separate hn.separate).symm
  · intro kind children hkind
    have hends := lex_append_iff_ends hkind.separate_opening hn.separate
    rw [← opener_eq_lastText, kind.texts_opening] at hends
    exact hends.symm

/-- A number after a character name and after a tag: in both places it would become part of the token before it. -/
theorem lex_append_iff_number : ∃ number character : Tree, ∃ children : List Tree,
    number.Sourced ∧ character.Sourced ∧ Sourced (.composite () (.mark (.tag "#a".toList)) children) ∧
      number.text = "7".toList ∧ character.text = "\\o".toList ∧
      lex (character.text ++ number.text) ≠ lex character.text ++ lex number.text ∧
      lex ("#a".toList ++ number.text) ≠ lex "#a".toList ++ lex number.text := by
  let space : Tree := .trivia () (.whitespace " ".toList)
  let character : Tree := .atom () ⟨.character, "\\o".toList⟩
  let tagged : List Tree := [space, .atom () ⟨.symbol, "b".toList⟩]
  let number : Tree := .atom () ⟨.number (some .decimal), "7".toList⟩
  have hread : Tree.read "\\o #a b 7".toList = .ok (.composite () .root
      [character, space, .composite () (.mark (.tag "#a".toList)) tagged, space, number]) := rfl
  have hcharacter : character.Sourced := (document hread).child (by simp)
  have htagged : Sourced (.composite () (.mark (.tag "#a".toList)) tagged) := (document hread).child (by simp)
  have hnumber : number.Sourced := (document hread).child (by simp)
  refine ⟨number, character, tagged, hnumber, hcharacter, htagged, rfl, rfl, fun h => ?_, fun h => ?_⟩
  · exact absurd (((lex_append_iff hnumber).1 character hcharacter).mpr h) (by decide)
  · exact absurd (((lex_append_iff hnumber).2 _ tagged htagged).mpr h) (by decide)

end Tree.Sourced

end SexprEdit
