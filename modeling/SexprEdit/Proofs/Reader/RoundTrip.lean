import SexprEdit.Command.Run
import SexprEdit.Proofs.Reader.Grammar

/-!
# Documents are written as they were read

Writing a tree ends comments that would run into what follows. In a tree that was read this never happens: a comment
goes up to the end of its line, so the token after it begins with the line break, and only blanks do
(`whitespace_of_comment_stops`). So a document is written with the very tokens that it was read from.
-/

namespace SexprEdit

theorem Token.Separate.append_left {ts us : List Token} (h : Token.Separate (ts ++ us)) : Token.Separate ts :=
  ⟨fun t ht => h.1 t (List.mem_append_left _ ht), (List.isChain_append.mp h.2).1⟩

theorem Token.Separate.append_right {ts us : List Token} (h : Token.Separate (ts ++ us)) : Token.Separate us :=
  ⟨fun t ht => h.1 t (List.mem_append_right _ ht), (List.isChain_append.mp h.2).2.1⟩

theorem whitespace_of_newline {t : Token} {rest : Text} (ht : t.Genuine) (h : t.text = '\n' :: rest) :
    t = .whitespace ('\n' :: rest) := by
  have hfront := front?_append ht ht.stopsBefore_nil
  rw [List.append_nil, h, front?, scan.eq_def, if_pos (by decide)] at hfront
  have htoken := Lexeme.token.inj (Option.some.inj hfront)
  rw [← htoken, Token.text] at h
  rw [← htoken, h]

theorem whitespace_of_comment_stops {text : Text} {u : Token} (hu : u.Genuine)
    (h : (Token.comment text).stopsBefore u.text = true) : ∃ rest, u = .whitespace ('\n' :: rest) := by
  obtain ⟨c, rest, hc⟩ := List.exists_cons_of_ne_nil hu.text_ne_nil
  rw [hc] at h
  obtain rfl : c = '\n' := by simpa [Token.stopsBefore] using h
  exact ⟨rest, whitespace_of_newline hu hc⟩

@[simp] theorem Kind.texts_opening (kind : Kind) : Token.texts kind.opening = kind.opener := by
  cases kind <;> simp [Kind.opening, Kind.opener, Token.text]

@[simp] theorem Kind.texts_closing (kind : Kind) : Token.texts kind.closing = kind.closer := by
  cases kind <;> simp [Kind.closing, Kind.closer, Token.text]

@[simp] theorem Atom.text_token (a : Atom) : a.token.text = a.text := by
  rw [Atom.token]
  split <;> rfl

@[simp] theorem Trivia.text_token (t : Trivia) : t.token.text = t.text := by
  cases t <;> rfl

namespace Node

variable {ι : Type}

theorem head?_tokens_atom_ne (a : Atom) (text : Text) : [a.token].head? ≠ some (.whitespace text) := by
  rw [Atom.token]
  split <;> simp

theorem eq_whitespace_of_head?_tokens {n : Node ι} {text : Text} (hroot : n.isRoot = false)
    (h : n.tokens.head? = some (.whitespace text)) : ∃ label, n = trivia label (.whitespace text) := by
  cases n with
  | composite label kind children =>
    cases kind with
    | root => simp [isRoot] at hroot
    | bracket b => simp [tokens, Kind.opening] at h
    | mark m => simp [tokens, Kind.opening] at h
  | atom label a => exact absurd h (head?_tokens_atom_ne a text)
  | trivia label t =>
    cases t with
    | whitespace blanks =>
      refine ⟨label, ?_⟩
      rw [show blanks = text by simpa [tokens, Trivia.token] using h]
    | comment line => simp [tokens, Trivia.token] at h

theorem tokens_ne_nil {n : Node ι} (hroot : n.isRoot = false) : n.tokens ≠ [] := by
  cases n with
  | composite label kind children =>
    cases kind with
    | root => simp [isRoot] at hroot
    | _ => simp [tokens, Kind.opening]
  | _ => simp [tokens]

theorem tokens_of_isComment {n : Node ι} (h : n.isComment = true) : ∃ text, n.tokens = [.comment text] := by
  cases n with
  | trivia label t =>
    cases t with
    | whitespace text => simp [isComment] at h
    | comment text => exact ⟨text, rfl⟩
  | _ => simp [isComment] at h

theorem endsBefore_eq_false {n : Node ι} {ns : List (Node ι)} {closed : Bool} {rest : List Token}
    (hcomment : n.isComment = true) (hns : ∀ m ∈ ns, m.isRoot = false)
    (hseparate : Token.Separate (n.tokens ++ (tokensAll ns ++ rest)))
    (hrest : closed = true → ∃ c, rest = [.closing c]) : endsBefore ns.head? closed = false := by
  obtain ⟨text, htext⟩ := tokens_of_isComment hcomment
  rw [htext, List.singleton_append, Token.separate_cons] at hseparate
  obtain ⟨-, hnext, hseparate⟩ := hseparate
  cases ns with
  | nil =>
    -- the closing token does not begin with a line break
    cases closed with
    | false => rfl
    | true =>
      obtain ⟨c, rfl⟩ := hrest rfl
      have hstop := hnext (.closing c) (by simp)
      have hgenuine : (Token.closing c).Genuine := trivial
      obtain ⟨blanks, hblanks⟩ := whitespace_of_comment_stops hgenuine hstop
      simp at hblanks
  | cons m ms =>
    obtain ⟨hm, -⟩ := List.forall_mem_cons.mp hns
    obtain ⟨u, us, hu⟩ := List.exists_cons_of_ne_nil (tokens_ne_nil hm)
    rw [tokensAll_cons, hu] at hseparate hnext
    have hgenuine : u.Genuine := hseparate.1 u (by simp)
    obtain ⟨blanks, rfl⟩ := whitespace_of_comment_stops hgenuine (hnext u (by simp))
    obtain ⟨label, rfl⟩ := eq_whitespace_of_head?_tokens hm (by rw [hu, List.head?_cons])
    simp [endsBefore, startsWithNewline, Trivia.text, Text.startsWithNewline]

theorem childrenText_eq_texts {ns : List (Node ι)} {closed : Bool} {rest : List Token}
    (htext : ∀ n ∈ ns, Token.Separate n.tokens → n.text = Token.texts n.tokens) (hroot : ∀ n ∈ ns, n.isRoot = false)
    (hseparate : Token.Separate (tokensAll ns ++ rest)) (hrest : closed = true → ∃ c, rest = [.closing c]) :
    childrenText closed ns = Token.texts (tokensAll ns) := by
  induction ns with
  | nil => rfl
  | cons n ns ih =>
    obtain ⟨hn, htext⟩ := List.forall_mem_cons.mp htext
    obtain ⟨-, hroots⟩ := List.forall_mem_cons.mp hroot
    rw [tokensAll_cons, List.append_assoc] at hseparate
    have hgap : (n.isComment && endsBefore ns.head? closed) = false := by
      by_cases hcomment : n.isComment = true
      · rw [endsBefore_eq_false hcomment hroots hseparate hrest, Bool.and_false]
      · rw [Bool.eq_false_iff.mpr hcomment, Bool.false_and]
    rw [childrenText, hgap, hn hseparate.append_left, ih htext hroots hseparate.append_right]
    simp

/-- A grammatical tree with separate tokens is written as those tokens. -/
theorem text_eq_texts {n : Node ι} (hn : n.Grammatical) (hseparate : Token.Separate n.tokens) :
    n.text = Token.texts n.tokens := by
  induction n using child_induction with
  | node n ih =>
    cases n with
    | atom label a => simp [text, tokens]
    | trivia label t => simp [text, tokens]
    | composite label kind children =>
      obtain ⟨hchildren, -⟩ := grammatical_composite_iff.mp hn
      rw [tokens, List.append_assoc] at hseparate
      have hrest : (!kind.closer.isEmpty) = true → ∃ c, kind.closing = [.closing c] := by
        intro hclosed
        cases kind with
        | bracket b => exact ⟨b.closer, rfl⟩
        | _ => simp [Kind.closer] at hclosed
      have hinner : childrenText (!kind.closer.isEmpty) children = Token.texts (tokensAll children) :=
        childrenText_eq_texts (fun n hmem => ih n hmem (hchildren n hmem).1) (fun n hmem => (hchildren n hmem).2)
          hseparate.append_right hrest
      rw [text, hinner, tokens]
      simp

end Node

/-! ## Files -/

/-- Check that one file can be read, and say whether it is in order. -/
def Program.checkReadable (file : String) : Program Bool := do
  match (← read).readText file with
  | .error e => throw e.message
  | .ok source =>
    match Tree.read source with
    | .ok _ =>
      print ("✓ " ++ file ++ "\n")
      return true
    | .error e =>
      reportUnreadable file source e
      print ("✗ " ++ file ++ "\n")
      return false

theorem Tree.text_of_read {source : Text} {t : Tree} (h : Tree.read source = .ok t) : t.text = source := by
  obtain ⟨-, ht, hlex⟩ := Reader.readAll_sound h
  obtain ⟨hsource, hseparate⟩ := lex_eq_tokens_iff.mp hlex
  rw [Node.text_eq_texts ht hseparate, hsource]

/-- Every source that can be read is written back as it was, character by character. So the check of a file comes
down to reading it: that it is written back differently never happens. -/
theorem Tree.read_text_lossless :
    (∀ (source : Text) (t : Tree), Tree.read source = .ok t → t.text = source) ∧
      ∀ file : String, Program.checkFile file = Program.checkReadable file := by
  refine ⟨fun source t => Tree.text_of_read, fun file => ?_⟩
  rw [Program.checkFile, Program.checkReadable]
  refine bind_congr fun disk => ?_
  cases disk.readText file with
  | error e => rfl
  | ok source =>
    cases hread : Tree.read source with
    | error e => simp only [hread]
    | ok t => simp only [hread, if_pos (Tree.text_of_read hread)]

/-- A comment in front of a line break of two characters, inside a marked list. -/
theorem Tree.read_text_lossless_comment :
    ∃ t : Tree, Tree.read "'(a ; b\r\n c)".toList = .ok t ∧ t.text = "'(a ; b\r\n c)".toList :=
  ⟨_, rfl, Tree.read_text_lossless.1 _ _ rfl⟩

end SexprEdit
