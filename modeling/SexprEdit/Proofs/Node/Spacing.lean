import SexprEdit.Proofs.Node.Shape
import SexprEdit.Proofs.Reader.RoundTrip
import SexprEdit.Proofs.Reader.Shape
import SexprEdit.Proofs.Token.Significant

/-!
# Spacing

A tree is spaced if no form in it runs into its neighbour, and no delimiter or mark into the node next to it. The
source of a grammatical document reads back as a tree of the same shape exactly if the document is spaced
(`Node.reads_back_iff`). The proof goes over the tree with the text that follows it: what is read off the front of
both is the tokens of the tree and then those of the rest, exactly if the tree is spaced and its last token stops
before the rest.
-/

namespace SexprEdit

theorem Bracket.opener_ne_nil (b : Bracket) : b.opener ≠ [] := by
  cases b <;> simp [Bracket.opener]

theorem Closer.text_ne_nil (c : Closer) : c.text ≠ [] := by
  cases c <;> simp [Closer.text]

namespace Node

variable {ι κ : Type}

/-- Whether a form runs into what follows it among the children of a composite. At both ends the delimiters take the
place of a child. -/
def runsInto (kind : Kind) (left right : Option (Node ι)) : Bool :=
  left.all isForm && fuses ((left.map tailText).getD kind.opener) ((right.map headText).getD kind.closer)

/-- Whether no child of a node runs into the next one. -/
def wellSpaced : Node ι → Bool
  | composite _ kind children =>
    decide ((none :: children.map some ++ [none]).IsChain fun left right => runsInto kind left right = false)
  | _ => true

/-- No form of the tree runs into its neighbour. -/
def Spaced (n : Node ι) : Prop :=
  n.every wellSpaced = true

/-- A grammatical tree of which every token is in a class. -/
structure Made (P : Token → Prop) (n : Node ι) : Prop where
  grammatical : n.Grammatical
  token : ∀ t ∈ n.tokens, P t

/-- A grammatical tree of which every token is one of the lexical grammar. -/
abbrev Sound (n : Node ι) : Prop :=
  n.Made Token.Genuine

/-! ## Ends of a tree -/

theorem mem_tokensAll {ns : List (Node ι)} {t : Token} : t ∈ tokensAll ns ↔ ∃ n ∈ ns, t ∈ n.tokens := by
  induction ns with
  | nil => simp
  | cons n ns ih => simp [ih]

theorem made_composite_iff {P : Token → Prop} (hP : ∀ c, P (.closing c)) {label : ι} {kind : Kind}
    {children : List (Node ι)} :
    (composite label kind children).Made P ↔
      (∀ n ∈ children, n.Made P ∧ n.isRoot = false) ∧ (∀ t ∈ kind.opening, P t) ∧
        ∀ m, kind = .mark m → formCount children = m.arity ∧ children.getLast?.any isForm = true := by
  constructor
  · rintro ⟨hgrammatical, htoken⟩
    obtain ⟨hchildren, harity⟩ := grammatical_composite_iff.mp hgrammatical
    refine ⟨fun n hn => ⟨⟨(hchildren n hn).1, fun t ht => htoken t ?_⟩, (hchildren n hn).2⟩, fun t ht => ?_, harity⟩
    · rw [tokens, List.mem_append, List.mem_append]
      exact .inl (.inr (mem_tokensAll.mpr ⟨n, hn, ht⟩))
    · refine htoken t ?_
      rw [tokens, List.mem_append, List.mem_append]
      exact .inl (.inl ht)
  · rintro ⟨hchildren, hopening, harity⟩
    refine ⟨grammatical_composite_iff.mpr ⟨fun n hn => ⟨(hchildren n hn).1.grammatical, (hchildren n hn).2⟩, harity⟩, ?_⟩
    intro t ht
    rw [tokens, List.mem_append, List.mem_append] at ht
    rcases ht with (ht | ht) | ht
    · exact hopening t ht
    · obtain ⟨n, hn, ht⟩ := mem_tokensAll.mp ht
      exact (hchildren n hn).1.token t ht
    · cases kind with
      | bracket b =>
        obtain rfl := List.mem_singleton.mp ht
        exact hP b.closer
      | _ => simp [Kind.closing] at ht

theorem sound_composite_iff {label : ι} {kind : Kind} {children : List (Node ι)} :
    (composite label kind children).Sound ↔
      (∀ n ∈ children, n.Sound ∧ n.isRoot = false) ∧ (∀ t ∈ kind.opening, t.Genuine) ∧
        ∀ m, kind = .mark m → formCount children = m.arity ∧ children.getLast?.any isForm = true :=
  made_composite_iff fun _ => trivial

theorem tailTextAll_eq (ns : List (Node ι)) : tailTextAll ns = ns.getLast?.map tailText := by
  induction ns with
  | nil => rfl
  | cons n ns ih =>
    cases ns with
    | nil => rfl
    | cons m ms => rw [tailTextAll, ih, List.getLast?_cons_cons]

theorem Sound.mark_text_ne_nil {label : ι} {m : Mark} {children : List (Node ι)}
    (h : (composite label (.mark m) children).Sound) : m.text ≠ [] :=
  ((sound_composite_iff.mp h).2.1 (.mark m) (by simp [Kind.opening])).text_ne_nil

theorem exists_head_token {n : Node ι} (hn : n.Sound) (hform : n.isForm = true) (hroot : n.isRoot = false) :
    ∃ u us, n.shape.tokens = u :: us ∧ u.text = n.headText ∧ ∃ rest, n.text = n.headText ++ rest := by
  cases n with
  | trivia label t => simp [isForm] at hform
  | atom label a => exact ⟨a.token, [], rfl, by simp [headText], [], by simp [text, headText]⟩
  | composite label kind children =>
    cases kind with
    | root => simp [isRoot] at hroot
    | bracket b =>
      have hhead : (composite label (.bracket b) children).headText = b.opener := by
        simp [headText, Kind.opener, Bracket.opener_ne_nil]
      refine ⟨.opening b, _, rfl, by rw [hhead]; rfl, ?_⟩
      rw [hhead, text, Kind.opener, List.append_assoc]
      exact ⟨_, rfl⟩
    | mark m =>
      have hhead : (composite label (.mark m) children).headText = m.text := by
        simp [headText, Kind.opener, hn.mark_text_ne_nil]
      refine ⟨.mark m, _, rfl, by rw [hhead]; rfl, ?_⟩
      rw [hhead, text, Kind.opener, List.append_assoc]
      exact ⟨_, rfl⟩

theorem exists_tail_token {n : Node ι} (hn : n.Sound) (hform : n.isForm = true) (hroot : n.isRoot = false) :
    ∃ us u, n.shape.tokens = us ++ [u] ∧ u.text = n.tailText := by
  induction n using child_induction with
  | node n ih =>
    cases n with
    | trivia label t => simp [isForm] at hform
    | atom label a => exact ⟨[], a.token, rfl, by simp [tailText]⟩
    | composite label kind children =>
      obtain ⟨hchildren, -, harity⟩ := sound_composite_iff.mp hn
      cases kind with
      | root => simp [isRoot] at hroot
      | bracket b =>
        refine ⟨_, .closing b.closer, rfl, ?_⟩
        simp [tailText, Kind.closer, Closer.text_ne_nil, Token.text]
      | mark m =>
        obtain ⟨-, hlast⟩ := harity m rfl
        rcases List.eq_nil_or_concat' children with rfl | ⟨init, last, rfl⟩
        · simp at hlast
        · have hform : last.isForm = true := by simpa using hlast
          obtain ⟨hlastSound, hlastRoot⟩ := hchildren last (by simp)
          obtain ⟨us, u, hus, hu⟩ := ih last (by simp [children]) hlastSound hform hlastRoot
          refine ⟨.mark m :: (tokensAll (shapeAll init) ++ us), u, ?_, ?_⟩
          · simp [shape, shapeAll_cons, hform, tokens, Kind.opening, Kind.closing, hus]
          · simp [tailText, Kind.closer, tailTextAll_eq, hu]

/-! ## Reading a tree with the text that follows it -/

/-- Read in front of a text, the tree gives its own tokens and leaves the text as it is, exactly if it is spaced and
its last token stops before the text. -/
def ReadsApart (n : Node ι) : Prop :=
  ∀ (rest : Text) (pieces : List Lexeme),
    significant (n.text ++ rest) = n.shape.tokens.map .token ++ pieces ↔
      n.Spaced ∧ (∀ u ∈ n.shape.tokens.getLast?, u.stopsBefore rest = true) ∧ significant rest = pieces

theorem stopsBefore_text {u : Token} (hu : u.Genuine) {n : Node ι} (hn : n.Sound) (hroot : n.isRoot = false)
    (rest : Text) (pieces : List Lexeme)
    (hread : n.isForm = true → significant (n.text ++ rest) = n.shape.tokens.map .token ++ pieces) :
    u.stopsBefore (n.text ++ rest) = !fuses u.text n.headText := by
  by_cases hform : n.isForm = true
  · obtain ⟨h, hs, htokens, hhead, more, hmore⟩ := exists_head_token hn hform hroot
    have hmem : h ∈ n.shape.tokens := by rw [htokens]; exact List.mem_cons_self
    have hgenuine : h.Genuine := hn.token h (mem_tokens_of_mem_shape hform hmem)
    have hread := hread hform
    rw [hmore, htokens, ← hhead, List.append_assoc, List.map_cons, List.cons_append,
      significant_append_iff hgenuine (isTrivia_of_mem_tokens_shape hform hmem)] at hread
    rw [hmore, ← hhead, List.append_assoc, u.stopsBefore_append hgenuine hread.1, fuses_eq hu hgenuine, Bool.not_not]
  · cases n with
    | trivia label t =>
      have hgenuine : t.token.Genuine := hn.token t.token (by simp [tokens])
      have hany : t.token.text.any (!Number.isAlphanumeric ·) = true := by
        rcases hgenuine.any_or_bare with hany | ⟨word, hword⟩
        · exact hany
        · cases t <;> simp [Trivia.token] at hword
      rw [text, headText, ← Trivia.text_token, u.stopsBefore_append_text rest hgenuine.text_ne_nil (.inl hany),
        fuses_eq hu hgenuine, Bool.not_not]
    | _ => simp [isForm] at hform

theorem startsWithNewline_append {s : Text} (h : Text.startsWithNewline s = true) (rest : Text) :
    Text.startsWithNewline (s ++ rest) = true := by
  rw [Text.startsWithNewline.eq_def] at h
  split at h
  · rfl
  · rfl
  · simp at h

theorem significant_comment_siblings {n : Node ι} {ns : List (Node ι)} (hn : n.Sound) (hcomment : n.isComment = true)
    {closed : Bool} {rest : Text}
    (hrest : ns = [] → closed = false → rest = [] ∨ Text.startsWithNewline rest = true) :
    significant (childrenText closed (n :: ns) ++ rest) = significant (childrenText closed ns ++ rest) := by
  cases n with
  | composite label kind children => simp [isComment] at hcomment
  | atom label a => simp [isComment] at hcomment
  | trivia label t =>
    cases t with
    | whitespace blanks => simp [isComment] at hcomment
    | comment line =>
      have hgenuine : (Token.comment line).Genuine := hn.token _ (by simp [tokens, Trivia.token])
      rw [childrenText]
      by_cases hends : endsBefore ns.head? closed = true
      · have hbreak := significant_comment hgenuine ('\n' :: (childrenText closed ns ++ rest)) (.inr rfl)
        have hblank := significant_blanks ['\n'] rfl (childrenText closed ns ++ rest)
        simpa [text, Trivia.text, isComment, hends] using hbreak.trans hblank
      · have hbreak : childrenText closed ns ++ rest = [] ∨
            Text.startsWithNewline (childrenText closed ns ++ rest) = true := by
          cases ns with
          | nil => exact hrest rfl (by simpa [endsBefore] using hends)
          | cons m ms =>
            right
            have hm : m.startsWithNewline = true := by simpa [endsBefore] using hends
            cases m with
            | trivia label t =>
              rw [childrenText, text, List.append_assoc, List.append_assoc]
              exact startsWithNewline_append hm _
            | _ => simp [startsWithNewline] at hm
        simpa [text, Trivia.text, isComment, hends] using significant_comment hgenuine _ hbreak

theorem significant_whitespace_siblings {n : Node ι} {ns : List (Node ι)} (hn : n.Sound)
    (hwhitespace : n.isWhitespace = true) {closed : Bool} {rest : Text} :
    significant (childrenText closed (n :: ns) ++ rest) = significant (childrenText closed ns ++ rest) := by
  cases n with
  | composite label kind children => simp [isWhitespace] at hwhitespace
  | atom label a => simp [isWhitespace] at hwhitespace
  | trivia label t =>
    cases t with
    | comment line => simp [isWhitespace] at hwhitespace
    | whitespace blanks =>
      have hgenuine : (Token.whitespace blanks).Genuine := hn.token _ (by simp [tokens, Trivia.token])
      rw [childrenText]
      simpa [text, Trivia.text, isComment] using significant_blanks blanks hgenuine.2 (childrenText closed ns ++ rest)

theorem isComment_or_isWhitespace {n : Node ι} (h : ¬n.isForm = true) : n.isComment = true ∨ n.isWhitespace = true := by
  cases n with
  | trivia label t => cases t <;> simp [isComment, isWhitespace]
  | _ => simp [isForm] at h

theorem isComment_of_isForm {n : Node ι} (h : n.isForm = true) : n.isComment = false := by
  cases n with
  | trivia label t => simp [isForm] at h
  | _ => rfl

theorem spaced_of_not_isForm {n : Node ι} (h : ¬n.isForm = true) : n.Spaced := by
  cases n with
  | trivia label t => rfl
  | _ => simp [isForm] at h

theorem tail_stopsBefore_iff {n m : Node ι} (hn : n.Sound) (hform : n.isForm = true) (hroot : n.isRoot = false)
    (hm : m.Sound) (hmroot : m.isRoot = false) (rest : Text) (pieces : List Lexeme)
    (hread : m.isForm = true → significant (m.text ++ rest) = m.shape.tokens.map .token ++ pieces) :
    (∀ u ∈ n.shape.tokens.getLast?, u.stopsBefore (m.text ++ rest) = true) ↔
      (n.isForm && fuses n.tailText m.headText) = false := by
  obtain ⟨us, u, htokens, htail⟩ := exists_tail_token hn hform hroot
  have hu : u.Genuine := hn.token u (mem_tokens_of_mem_shape hform (by rw [htokens]; simp))
  rw [htokens, List.getLast?_concat, hform, Bool.true_and, ← htail]
  simp [stopsBefore_text hu hm hmroot rest pieces hread]

/-- Siblings are read one by one exactly if each is spaced and none runs into the next or into what follows. -/
theorem significant_siblings_iff {ns : List (Node ι)} (hsound : ∀ n ∈ ns, n.Sound ∧ n.isRoot = false)
    (hread : ∀ n ∈ ns, n.isForm = true → n.ReadsApart) (closed : Bool) (rest : Text) (pieces : List Lexeme)
    (hrest : ∀ n ∈ ns.getLast?, n.isComment = true → closed = false →
      rest = [] ∨ Text.startsWithNewline rest = true) :
    significant (childrenText closed ns ++ rest) = (tokensAll (shapeAll ns)).map .token ++ pieces ↔
      (∀ n ∈ ns, n.Spaced) ∧ (ns.IsChain fun n m => (n.isForm && fuses n.tailText m.headText) = false) ∧
        (∀ n ∈ ns.getLast?, n.isForm = true → ∀ u ∈ n.shape.tokens.getLast?, u.stopsBefore rest = true) ∧
          significant rest = pieces := by
  induction ns with
  | nil => simp [childrenText]
  | cons n ns ih =>
    obtain ⟨⟨hn, hroot⟩, hsound⟩ := List.forall_mem_cons.mp hsound
    obtain ⟨hnread, hread⟩ := List.forall_mem_cons.mp hread
    have hlast : ∀ m ∈ ns.getLast?, m ∈ (n :: ns).getLast? := by
      intro m hm
      cases ns with
      | nil => simp at hm
      | cons k ks => rwa [List.getLast?_cons_cons]
    have ih := ih hsound hread fun m hm => hrest m (hlast m hm)
    by_cases hform : n.isForm = true
    · have htext : childrenText closed (n :: ns) ++ rest = n.text ++ (childrenText closed ns ++ rest) := by
        rw [childrenText, isComment_of_isForm hform]
        simp
      rw [htext, shapeAll_cons, if_pos hform, tokensAll_cons, List.map_append, List.append_assoc, hnread hform, ih,
        List.forall_mem_cons, List.isChain_cons]
      cases ns with
      | nil => simp [childrenText, hform]
      | cons m ms =>
        obtain ⟨⟨hm, hmroot⟩, -⟩ := List.forall_mem_cons.mp hsound
        rw [List.getLast?_cons_cons]
        have hmtext : childrenText closed (m :: ms) ++ rest =
            m.text ++ ((if m.isComment && endsBefore ms.head? closed then ['\n'] else []) ++
              childrenText closed ms ++ rest) := by
          rw [childrenText]
          simp
        -- once the siblings behind are read, only the first token of the next one matters
        have hnext : significant (childrenText closed (m :: ms) ++ rest) =
            (tokensAll (shapeAll (m :: ms))).map .token ++ pieces →
            ((∀ u ∈ n.shape.tokens.getLast?, u.stopsBefore (childrenText closed (m :: ms) ++ rest) = true) ↔
              (n.isForm && fuses n.tailText m.headText) = false) := by
          intro hrun
          rw [hmtext] at hrun ⊢
          refine tail_stopsBefore_iff hn hform hroot hm hmroot _
            ((tokensAll (shapeAll ms)).map .token ++ pieces) fun hmform => ?_
          rw [hrun, shapeAll_cons, if_pos hmform, tokensAll_cons, List.map_append, List.append_assoc]
        constructor
        · rintro ⟨hspaced, hstop, hothers⟩
          have hfree := (hnext (ih.mpr hothers)).mp hstop
          exact ⟨⟨hspaced, hothers.1⟩, ⟨by simpa using hfree, hothers.2.1⟩, hothers.2.2⟩
        · rintro ⟨⟨hspaced, hspaceds⟩, ⟨hfree, hchain⟩, hothers⟩
          exact ⟨hspaced, (hnext (ih.mpr ⟨hspaceds, hchain, hothers⟩)).mpr (hfree m (by simp)), hspaceds, hchain, hothers⟩
    · have hskip : significant (childrenText closed (n :: ns) ++ rest) = significant (childrenText closed ns ++ rest) := by
        rcases isComment_or_isWhitespace hform with hcomment | hwhitespace
        · refine significant_comment_siblings hn hcomment ?_
          rintro rfl
          exact hrest n (by simp) hcomment
        · exact significant_whitespace_siblings hn hwhitespace
      rw [hskip, shapeAll_cons, if_neg hform, ih, List.forall_mem_cons, List.isChain_cons]
      have hfree : ∀ m ∈ ns.head?, (n.isForm && fuses n.tailText m.headText) = false := by
        intro m hm
        rw [Bool.eq_false_iff.mpr hform, Bool.false_and]
      have hlastForm : (∀ m ∈ (n :: ns).getLast?, m.isForm = true → ∀ u ∈ m.shape.tokens.getLast?,
          u.stopsBefore rest = true) ↔
          ∀ m ∈ ns.getLast?, m.isForm = true → ∀ u ∈ m.shape.tokens.getLast?, u.stopsBefore rest = true := by
        cases ns with
        | nil => simp [hform]
        | cons k ks => rw [List.getLast?_cons_cons]
      rw [hlastForm]
      have hspaced := spaced_of_not_isForm hform
      tauto

/-! ## Composites -/

theorem runsInto_some (kind : Kind) (n m : Node ι) :
    runsInto kind (some n) (some m) = (n.isForm && fuses n.tailText m.headText) := rfl

theorem spaced_composite_iff {label : ι} {kind : Kind} {children : List (Node ι)} :
    (composite label kind children).Spaced ↔
      (∀ n ∈ children, n.Spaced) ∧
        (children.IsChain fun n m => (n.isForm && fuses n.tailText m.headText) = false) ∧
          runsInto kind none children.head? = false ∧ ∀ n ∈ children.getLast?, runsInto kind (some n) none = false := by
  have hchain : ((none :: children.map some ++ [none]).IsChain fun left right => runsInto kind left right = false) ↔
      (children.IsChain fun n m => (n.isForm && fuses n.tailText m.headText) = false) ∧
        runsInto kind none children.head? = false ∧ ∀ n ∈ children.getLast?, runsInto kind (some n) none = false := by
    have hhead : (children.map some ++ [none]).head? = some children.head? := by cases children <;> rfl
    rw [List.cons_append, List.isChain_cons, List.isChain_append, List.isChain_map, hhead, List.getLast?_map]
    simp [runsInto_some]
    tauto
  rw [Spaced, every_iff, wellSpaced, decide_eq_true_eq, hchain]
  exact and_comm

theorem fuses_nil_left (s : Text) : fuses [] s = false := rfl

theorem fuses_nil_right (s : Text) : fuses s [] = false := by
  simp [fuses]

theorem fuses_headText {u : Token} (hu : u.Genuine) (hstops : ∀ rest, u.stopsBefore rest = true) {n : Node ι}
    (hn : n.Sound) (hroot : n.isRoot = false) : fuses u.text n.headText = false := by
  by_cases hform : n.isForm = true
  · obtain ⟨h, hs, htokens, hhead, -⟩ := exists_head_token hn hform hroot
    have hgenuine : h.Genuine := hn.token h (mem_tokens_of_mem_shape hform (by rw [htokens]; simp))
    rw [← hhead, fuses_eq hu hgenuine, hstops, Bool.not_true]
  · cases n with
    | trivia label t =>
      have hgenuine : t.token.Genuine := hn.token t.token (by simp [tokens])
      rw [headText, ← Trivia.text_token, fuses_eq hu hgenuine, hstops, Bool.not_true]
    | _ => simp [isForm] at hform

theorem runsInto_bracket_none {b : Bracket} (hb : (Token.opening b).Genuine) (children : List (Node ι))
    (h : ∀ n ∈ children, n.Sound ∧ n.isRoot = false) : runsInto (.bracket b) none children.head? = false := by
  cases children with
  | nil =>
    have hclosing : (Token.closing b.closer).Genuine := trivial
    exact (fuses_eq hb hclosing).trans rfl
  | cons n ns =>
    obtain ⟨⟨hn, hroot⟩, -⟩ := List.forall_mem_cons.mp h
    exact fuses_headText hb (fun _ => rfl) hn hroot

theorem readsApart_bracket {label : ι} {b : Bracket} {children : List (Node ι)}
    (hn : (composite label (.bracket b) children).Sound) (hread : ∀ n ∈ children, n.isForm = true → n.ReadsApart) :
    (composite label (.bracket b) children).ReadsApart := by
  intro rest pieces
  obtain ⟨hsound, hopening, -⟩ := sound_composite_iff.mp hn
  have hb : (Token.opening b).Genuine := hopening _ (by simp [Kind.opening])
  have hclosing : (Token.closing b.closer).Genuine := trivial
  have htext : (composite label (.bracket b) children).text ++ rest =
      (Token.opening b).text ++ (childrenText true children ++ ((Token.closing b.closer).text ++ rest)) := by
    have hclosed : b.closer.text.isEmpty = false := by simpa using b.closer.text_ne_nil
    simp [text, Kind.opener, Kind.closer, hclosed, Token.text]
  have htokens : (composite label (.bracket b) children).shape.tokens.map Lexeme.token ++ pieces =
      .token (.opening b) :: ((tokensAll (shapeAll children)).map .token ++ .token (.closing b.closer) :: pieces) := by
    simp [shape, tokens, Kind.opening, Kind.closing]
  rw [htext, htokens, significant_append_iff hb rfl, significant_siblings_iff hsound hread _ _ _ (by simp),
    significant_append_iff hclosing rfl, spaced_composite_iff, runsInto_bracket_none hb _ hsound]
  have hlast : (∀ n ∈ children.getLast?, n.isForm = true → ∀ u ∈ n.shape.tokens.getLast?,
      u.stopsBefore ((Token.closing b.closer).text ++ rest) = true) ↔
      ∀ n ∈ children.getLast?, runsInto (.bracket b) (some n) none = false := by
    refine forall₂_congr fun n hmem => ?_
    obtain ⟨hlast, hroot⟩ := hsound n (List.mem_of_getLast? hmem)
    by_cases hform : n.isForm = true
    · obtain ⟨us, u, hus, htail⟩ := exists_tail_token hlast hform hroot
      have hu : u.Genuine := hlast.token u (mem_tokens_of_mem_shape hform (by rw [hus]; simp))
      rw [hus, List.getLast?_concat]
      have hfuses : runsInto (.bracket b) (some n) none = fuses u.text (Token.closing b.closer).text := by
        rw [htail]
        simp [runsInto, hform, Kind.closer, Token.text]
      rw [hfuses, fuses_eq hu hclosing]
      simp [hform, u.stopsBefore_append hclosing (v := rest) rfl]
    · simp [hform, runsInto]
  have hend : (composite label (.bracket b) children).shape.tokens.getLast? = some (.closing b.closer) := by
    rw [shape, tokens, Kind.closing, List.getLast?_concat]
  have hopen : (Token.opening b).stopsBefore
      (childrenText true children ++ ((Token.closing b.closer).text ++ rest)) = true := rfl
  have hclose : (Token.closing b.closer).stopsBefore rest = true := rfl
  rw [hlast, hend, hopen, hclose]
  simp [hclose]
  tauto

theorem readsApart_mark {label : ι} {m : Mark} {children : List (Node ι)}
    (hn : (composite label (.mark m) children).Sound) (hread : ∀ n ∈ children, n.isForm = true → n.ReadsApart) :
    (composite label (.mark m) children).ReadsApart := by
  intro rest pieces
  obtain ⟨hsound, hopening, harity⟩ := sound_composite_iff.mp hn
  obtain ⟨-, hlast⟩ := harity m rfl
  have hm : (Token.mark m).Genuine := hopening _ (by simp [Kind.opening])
  have htext : (composite label (.mark m) children).text ++ rest =
      (Token.mark m).text ++ (childrenText false children ++ rest) := by
    simp [text, Kind.opener, Kind.closer, Token.text]
  have htokens : (composite label (.mark m) children).shape.tokens.map Lexeme.token ++ pieces =
      .token (.mark m) :: ((tokensAll (shapeAll children)).map .token ++ pieces) := by
    simp [shape, tokens, Kind.opening, Kind.closing]
  obtain ⟨init, last, rfl⟩ : ∃ init last, children = init ++ [last] := by
    rcases List.eq_nil_or_concat' children with rfl | ⟨init, last, rfl⟩
    · simp at hlast
    · exact ⟨init, last, rfl⟩
  have hform : last.isForm = true := by simpa using hlast
  have hsiblings := significant_siblings_iff hsound hread false rest pieces <| by
    intro n hmem hcomment
    obtain rfl : last = n := by simpa using hmem
    rw [isComment_of_isForm hform] at hcomment
    exact absurd hcomment (by simp)
  have hend : (composite label (.mark m) (init ++ [last])).shape.tokens.getLast? = last.shape.tokens.getLast? := by
    obtain ⟨us, u, hus, -⟩ := exists_tail_token (hsound last (by simp)).1 hform (hsound last (by simp)).2
    have hall : (composite label (.mark m) (init ++ [last])).shape.tokens =
        .mark m :: (tokensAll (shapeAll init) ++ us) ++ [u] := by
      simp [shape, shapeAll_cons, hform, tokens, Kind.opening, Kind.closing, hus]
    rw [hall, hus, List.getLast?_concat, List.getLast?_concat]
  -- the mark stops before its first child exactly if it does not run into it
  have hstops : significant (childrenText false (init ++ [last]) ++ rest) =
      (tokensAll (shapeAll (init ++ [last]))).map .token ++ pieces →
      (Token.mark m).stopsBefore (childrenText false (init ++ [last]) ++ rest) =
        !runsInto (.mark m) none (init ++ [last]).head? := by
    intro hrun
    obtain ⟨first, others, hfirst⟩ := List.exists_cons_of_ne_nil (show init ++ [last] ≠ [] by simp)
    rw [hfirst] at hsound hrun ⊢
    obtain ⟨⟨hfsound, hfroot⟩, -⟩ := List.forall_mem_cons.mp hsound
    have hftext : childrenText false (first :: others) ++ rest =
        first.text ++ ((if first.isComment && endsBefore others.head? false then ['\n'] else []) ++
          childrenText false others ++ rest) := by
      rw [childrenText]
      simp
    rw [hftext] at hrun ⊢
    refine stopsBefore_text hm hfsound hfroot _ ((tokensAll (shapeAll others)).map .token ++ pieces) ?_
    intro hfform
    rw [hrun, shapeAll_cons, if_pos hfform, tokensAll_cons, List.map_append, List.append_assoc]
  rw [htext, htokens, significant_append_iff hm rfl, spaced_composite_iff, hend]
  have hfree : ∀ n ∈ (init ++ [last]).getLast?, runsInto (.mark m) (some n) none = false := by
    intro n hmem
    rw [runsInto, Option.map_none, Option.getD_none, Kind.closer, fuses_nil_right, Bool.and_false]
    simp
  have hlastStops : (∀ n ∈ (init ++ [last]).getLast?, n.isForm = true → ∀ u ∈ n.shape.tokens.getLast?,
      u.stopsBefore rest = true) ↔ ∀ u ∈ last.shape.tokens.getLast?, u.stopsBefore rest = true := by
    simp [hform]
  rw [hlastStops] at hsiblings
  constructor
  · rintro ⟨hstop, hrun⟩
    obtain ⟨hspaced, hchain, htail, hrest⟩ := hsiblings.mp hrun
    rw [hstops hrun] at hstop
    exact ⟨⟨hspaced, hchain, by simpa using hstop, hfree⟩, htail, hrest⟩
  · rintro ⟨⟨hspaced, hchain, hfirst, -⟩, htail, hrest⟩
    have hrun := hsiblings.mpr ⟨hspaced, hchain, htail, hrest⟩
    exact ⟨by rw [hstops hrun, hfirst, Bool.not_false], hrun⟩

/-- Every form is read in front of a text exactly if it is spaced and its last token stops there. -/
theorem readsApart_of_sound {n : Node ι} (hn : n.Sound) (hform : n.isForm = true) (hroot : n.isRoot = false) :
    n.ReadsApart := by
  induction n using child_induction with
  | node n ih =>
    cases n with
    | trivia label t => simp [isForm] at hform
    | atom label a =>
      intro rest pieces
      have ha : a.token.Genuine := hn.token a.token (by simp [tokens])
      have hiff := significant_append_iff ha (isTrivia_token_atom a) rest pieces
      simpa [text, shape, tokens, Spaced, every, wellSpaced] using hiff
    | composite label kind children =>
      obtain ⟨hsound, -⟩ := sound_composite_iff.mp hn
      have hread : ∀ n ∈ children, n.isForm = true → n.ReadsApart := fun n hmem hform =>
        ih n hmem (hsound n hmem).1 hform (hsound n hmem).2
      cases kind with
      | root => simp [isRoot] at hroot
      | bracket b => exact readsApart_bracket hn hread
      | mark m => exact readsApart_mark hn hread

/-! ## Documents -/

theorem isForm_of_isRoot {n : Node ι} (h : n.isRoot = true) : n.isForm = true := by
  cases n with
  | composite label kind children => rfl
  | _ => simp [isRoot] at h

theorem significant_document_iff {n : Node ι} (hn : n.Sound) (hroot : n.isRoot = true) :
    significant n.text = n.shape.tokens.map .token ↔ n.Spaced := by
  cases n with
  | trivia label t => simp [isRoot] at hroot
  | atom label a => simp [isRoot] at hroot
  | composite label kind children =>
    cases kind with
    | bracket b => simp [isRoot] at hroot
    | mark m => simp [isRoot] at hroot
    | root =>
      obtain ⟨hsound, -⟩ := sound_composite_iff.mp hn
      have hread : ∀ n ∈ children, n.isForm = true → n.ReadsApart := fun n hmem hform =>
        readsApart_of_sound (hsound n hmem).1 hform (hsound n hmem).2
      have hsiblings := significant_siblings_iff hsound hread false [] []
        fun _ _ _ _ => .inl rfl
      have hlast : ∀ n ∈ children.getLast?, n.isForm = true → ∀ u ∈ n.shape.tokens.getLast?,
          u.stopsBefore [] = true := by
        intro n hmem hform u hu
        have hn := (hsound n (List.mem_of_getLast? hmem)).1
        exact (hn.token u (mem_tokens_of_mem_shape hform (List.mem_of_getLast? hu))).stopsBefore_nil
      have hends : ∀ left right : Option (Node ι), left = none ∨ right = none →
          runsInto .root left right = false := by
        rintro left right (rfl | rfl)
        · rw [runsInto, Option.map_none, Option.getD_none, Kind.opener, fuses_nil_left, Bool.and_false]
        · rw [runsInto, Option.map_none (f := headText), Option.getD_none, Kind.closer, fuses_nil_right, Bool.and_false]
          simp
      have htext : (composite label .root children).text = childrenText false children := by
        simp [text, Kind.opener, Kind.closer]
      have htokens : (composite label .root children).shape.tokens = tokensAll (shapeAll children) := by
        simp [shape, tokens, Kind.opening, Kind.closing]
      rw [List.append_nil, List.append_nil] at hsiblings
      rw [htext, htokens, hsiblings, spaced_composite_iff]
      constructor
      · rintro ⟨hspaced, hchain, -⟩
        exact ⟨hspaced, hchain, hends _ _ (.inl rfl), fun _ _ => hends _ _ (.inr rfl)⟩
      · rintro ⟨hspaced, hchain, -⟩
        exact ⟨hspaced, hchain, hlast, rfl⟩

theorem significant_eq_map {s : Text} {ts : List Token} (h : lex s = ts.map .token) :
    significant s = (ts.filter (!·.isTrivia)).map .token := by
  rw [significant, h, List.filter_map]
  rfl

theorem exists_map_token {pieces : List Lexeme} (h : ∀ piece ∈ pieces, ∃ t, piece = .token t) :
    ∃ ts : List Token, pieces = ts.map .token := by
  induction pieces with
  | nil => exact ⟨[], rfl⟩
  | cons piece pieces ih =>
    obtain ⟨⟨t, rfl⟩, hpieces⟩ := List.forall_mem_cons.mp h
    obtain ⟨ts, rfl⟩ := ih hpieces
    exact ⟨t :: ts, rfl⟩

theorem exists_tokens_of_significant {s : Text} {us : List Token} (h : significant s = us.map .token) :
    ∃ ts : List Token, lex s = ts.map .token ∧ ts.filter (!·.isTrivia) = us := by
  have htokens : ∀ piece ∈ lex s, ∃ t, piece = .token t := by
    intro piece hmem
    cases piece with
    | token t => exact ⟨t, rfl⟩
    | stray text =>
      have hkept : Lexeme.stray text ∈ significant s := List.mem_filter.mpr ⟨hmem, rfl⟩
      rw [h] at hkept
      simp at hkept
  obtain ⟨ts, hts⟩ := exists_map_token htokens
  refine ⟨ts, hts, ?_⟩
  rw [significant_eq_map hts] at h
  exact List.map_injective_iff.mpr (fun _ _ => Lexeme.token.inj) h

/-- The source of a document reads back as a tree of the same shape exactly if the document is spaced. -/
theorem reads_back_iff {n : Node ι} (hn : n.Sound) (hroot : n.isRoot = true) :
    (∃ t, Tree.read n.text = .ok t ∧ t.shape = n.shape) ↔ n.Spaced := by
  have hform := isForm_of_isRoot hroot
  rw [← significant_document_iff hn hroot]
  constructor
  · rintro ⟨t, hread, hshape⟩
    obtain ⟨htroot, -, hlex⟩ := Reader.readAll_sound hread
    rw [significant_eq_map hlex, filter_tokens (isForm_of_isRoot htroot), hshape]
  · intro hsignificant
    obtain ⟨ts, hlex, hfilter⟩ := exists_tokens_of_significant hsignificant
    have hread := Reader.readAll_complete (by rw [isRoot_shape, hroot]) hn.grammatical.shape
    rw [← hfilter] at hread
    obtain ⟨t, ht, hshape⟩ := Reader.readAll_of_filter hread
    exact ⟨t, by rw [Tree.read, hlex, ht], by rw [hshape, shape_shape]⟩

end Node

theorem Tree.sound_of_read {source : Text} {t : Tree} (h : Tree.read source = .ok t) :
    t.isRoot = true ∧ t.Sound ∧ t.Spaced := by
  obtain ⟨hroot, hgrammatical, hlex⟩ := Reader.readAll_sound h
  obtain ⟨-, hseparate⟩ := lex_eq_tokens_iff.mp hlex
  have hsound : t.Sound := ⟨hgrammatical, hseparate.1⟩
  refine ⟨hroot, hsound, (Node.reads_back_iff hsound hroot).mp ⟨t, ?_, rfl⟩⟩
  rw [Tree.text_of_read h, h]

end SexprEdit
