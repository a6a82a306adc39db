import Mathlib.Tactic.ByContra
import Mathlib.Tactic.SplitIfs
import SexprEdit.Reader.Basic
import SexprEdit.Proofs.Node.Grammar
import SexprEdit.Proofs.Token.Adjacent

/-!
# The reader follows the grammar

The state of reading stands for the tokens read so far (`Reader.tokens`), and all that it holds is grammatical
(`Reader.Sound`). Each step adds one token, so a document that was read is grammatical and flattens to the tokens
of its source. Conversely, reading the tokens of a grammatical node puts that node in its place
(`Reader.foldlM_tokens`), so every grammatical document is read from its tokens.
-/

namespace SexprEdit

theorem Mark.arity_pos (m : Mark) : 0 < m.arity := by
  cases m <;> simp [Mark.arity]

theorem Number.hint_ne_symbolic (t : Text) : Number.hint t ≠ .symbolic := by
  rw [Number.hint]
  split_ifs <;> (try split) <;> simp

theorem Atom.token_of_ofBare {text : Text} {a : Atom} (h : Atom.ofBare text = .ok a) : a.token = .bare text := by
  rw [Atom.ofBare] at h
  split_ifs at h <;> obtain rfl := Except.ok.inj h
  · rfl
  · rw [Atom.token]
    split <;> simp_all [Number.hint_ne_symbolic]
  · rfl
  · rfl
  · rfl

theorem Token.token_of_atom? {t : Token} {a : Atom} (h : t.atom? = some a) : a.token = t := by
  cases t with
  | bare text =>
    refine Atom.token_of_ofBare ?_
    cases hbare : Atom.ofBare text with
    | error bad => simp [Token.atom?, hbare, Except.toOption] at h
    | ok b => simpa [Token.atom?, hbare, Except.toOption] using h
  | string text | regex text | character text | symbolic text =>
    obtain rfl := Option.some.inj h
    rfl
  | _ => simp [Token.atom?] at h

namespace Reader

/-! ## What a state stands for -/

/-- The tokens that an open composite was read from. -/
def pendingTokens : Pending → List Token
  | .bracket b _ children => .opening b :: Node.tokensAll children.reverse
  | .mark m _ children => .mark m :: Node.tokensAll children.reverse

/-- The tokens that finished nodes and open composites were read from. -/
def tokensOf (done : List Tree) (pending : List Pending) : List Token :=
  Node.tokensAll done.reverse ++ pending.reverse.flatMap pendingTokens

/-- A grammatical node that may stand in a composite. -/
def Inner (n : Tree) : Prop :=
  n.Grammatical ∧ n.isRoot = false

/-- What was read of an open composite is grammatical, and a mark still lacks a form. -/
def PendingSound : Pending → Prop
  | .bracket _ _ children => ∀ n ∈ children, Inner n
  | .mark m _ children => (∀ n ∈ children, Inner n) ∧ formCount children < m.arity

def Sound (done : List Tree) (pending : List Pending) : Prop :=
  (∀ n ∈ done, Inner n) ∧ ∀ p ∈ pending, PendingSound p

theorem formCount_cons (n : Tree) (ns : List Tree) :
    formCount (n :: ns) = formCount ns + if n.isForm then 1 else 0 := by
  rw [formCount, List.countP_cons, formCount]

theorem formCount_reverse (ns : List Tree) : Node.formCount ns.reverse = formCount ns :=
  List.countP_reverse

theorem inner_mark {m : Mark} {n : Tree} {children : List Tree} (hn : Inner n) (hchildren : ∀ c ∈ children, Inner c)
    (hopen : formCount children < m.arity) (hfull : formCount (n :: children) = m.arity) :
    Inner (.composite () (.mark m) (n :: children).reverse) := by
  have hform : n.isForm = true := by
    by_contra hform
    rw [formCount_cons, if_neg hform] at hfull
    omega
  refine ⟨Node.grammatical_composite_iff.mpr ⟨fun c hc => ?_, fun m' hm' => ?_⟩, rfl⟩
  · rcases List.mem_cons.mp (List.mem_reverse.mp hc) with rfl | hc
    · exact hn
    · exact hchildren c hc
  · obtain rfl := Kind.mark.inj hm'
    refine ⟨by rw [formCount_reverse, hfull], ?_⟩
    rw [List.getLast?_reverse, List.head?_cons, Option.any_some, hform]

theorem place_sound {n : Tree} {done : List Tree} {pending : List Pending} (hn : Inner n) (h : Sound done pending) :
    tokensOf (place n done pending).1 (place n done pending).2 = tokensOf done pending ++ n.tokens ∧
      Sound (place n done pending).1 (place n done pending).2 := by
  induction pending generalizing n with
  | nil =>
    refine ⟨by simp [place, tokensOf], ?_, h.2⟩
    exact List.forall_mem_cons.mpr ⟨hn, h.1⟩
  | cons p outer ih =>
    obtain ⟨hp, houter⟩ := List.forall_mem_cons.mp h.2
    cases p with
    | bracket b start children =>
      refine ⟨by simp [place, tokensOf, pendingTokens], h.1, ?_⟩
      exact List.forall_mem_cons.mpr ⟨List.forall_mem_cons.mpr ⟨hn, hp⟩, houter⟩
    | mark m start children =>
      by_cases hfull : formCount (n :: children) = m.arity
      · rw [place, if_pos hfull]
        obtain ⟨htokens, hsound⟩ := ih (inner_mark hn hp.1 hp.2 hfull) ⟨h.1, houter⟩
        refine ⟨?_, hsound⟩
        rw [htokens]
        simp [tokensOf, pendingTokens, Node.tokens, Kind.opening, Kind.closing]
      · rw [place, if_neg hfull]
        refine ⟨by simp [tokensOf, pendingTokens], h.1, ?_⟩
        refine List.forall_mem_cons.mpr ⟨⟨List.forall_mem_cons.mpr ⟨hn, hp.1⟩, ?_⟩, houter⟩
        have hopen := hp.2
        rw [formCount_cons] at hfull ⊢
        split_ifs at hfull ⊢ <;> omega

/-! ## Soundness -/

theorem tokensOf_enter (done : List Tree) (p : Pending) (outer : List Pending) :
    tokensOf done (p :: outer) = tokensOf done outer ++ pendingTokens p := by
  simp [tokensOf]

theorem inner_trivia (t : Trivia) : Inner (.trivia () t) :=
  ⟨Node.grammatical_trivia () t, rfl⟩

theorem inner_atom {t : Token} {a : Atom} (h : t.atom? = some a) : Inner (.atom () a) := by
  refine ⟨Node.grammatical_atom_iff.mpr ?_, rfl⟩
  rw [Token.token_of_atom? h, h]

theorem add_sound {r : Reader} {n : Tree} (width : Nat) (hn : Inner n) (hr : Sound r.done r.pending) :
    tokensOf (r.add width n).done (r.add width n).pending = tokensOf r.done r.pending ++ n.tokens ∧
      Sound (r.add width n).done (r.add width n).pending :=
  place_sound hn hr

theorem readToken_atom (r : Reader) {t : Token} {a : Atom} (h : t.atom? = some a) :
    r.readToken t = .ok (r.add (Text.bytes t.text) (.atom () a)) := by
  cases t with
  | bare text =>
    simp only [Token.atom?] at h
    cases hbare : Atom.ofBare text with
    | error bad => simp [hbare, Except.toOption] at h
    | ok b =>
      obtain rfl : b = a := by simpa [hbare, Except.toOption] using h
      simp only [readToken, hbare]
  | string text | regex text | character text | symbolic text =>
    obtain rfl := Option.some.inj h
    rfl
  | _ => simp [Token.atom?] at h

theorem close_sound {r r' : Reader} {c : Closer} (h : r.close c = .ok r') (hr : Sound r.done r.pending) :
    tokensOf r'.done r'.pending = tokensOf r.done r.pending ++ [.closing c] ∧ Sound r'.done r'.pending := by
  obtain ⟨pos, done, pending⟩ := r
  cases pending with
  | nil => simp [close] at h
  | cons p outer =>
    obtain ⟨hp, houter⟩ := List.forall_mem_cons.mp hr.2
    cases p with
    | mark m start children => simp [close] at h
    | bracket b start children =>
      rw [close] at h
      simp only at h
      split_ifs at h with hc
      obtain rfl := Except.ok.inj h
      have hbracket : Inner (.composite () (.bracket b) children.reverse) := by
        refine ⟨Node.grammatical_composite_iff.mpr ⟨fun n hn => hp n (List.mem_reverse.mp hn), ?_⟩, rfl⟩
        intro m hm
        simp at hm
      obtain ⟨htokens, hsound⟩ := add_sound (r := ⟨pos, done, outer⟩) (Text.bytes c.text) hbracket ⟨hr.1, houter⟩
      refine ⟨?_, hsound⟩
      rw [htokens, tokensOf_enter]
      simp [pendingTokens, Node.tokens, Kind.opening, Kind.closing, hc]

theorem readToken_sound {r r' : Reader} {t : Token} (h : r.readToken t = .ok r') (hr : Sound r.done r.pending) :
    tokensOf r'.done r'.pending = tokensOf r.done r.pending ++ [t] ∧ Sound r'.done r'.pending := by
  by_cases hatom : ∃ a, t.atom? = some a
  · obtain ⟨a, ha⟩ := hatom
    rw [readToken_atom r ha] at h
    obtain rfl := Except.ok.inj h
    have hadd := add_sound (Text.bytes t.text) (inner_atom ha) hr
    rwa [Node.tokens, Token.token_of_atom? ha] at hadd
  · cases t with
    | whitespace text | comment text =>
      obtain rfl := Except.ok.inj h
      exact add_sound _ (inner_trivia _) hr
    | opening b =>
      obtain rfl := Except.ok.inj h
      refine ⟨tokensOf_enter _ _ _, hr.1, List.forall_mem_cons.mpr ⟨?_, hr.2⟩⟩
      exact List.forall_mem_nil _
    | mark m =>
      obtain rfl := Except.ok.inj h
      refine ⟨tokensOf_enter _ _ _, hr.1, List.forall_mem_cons.mpr ⟨?_, hr.2⟩⟩
      exact ⟨List.forall_mem_nil _, m.arity_pos⟩
    | closing c => exact close_sound h hr
    | bare text =>
      cases hbare : Atom.ofBare text with
      | ok a => exact absurd ⟨a, by simp [Token.atom?, hbare, Except.toOption]⟩ hatom
      | error bad => simp [readToken, hbare] at h
    | string text | regex text | character text | symbolic text => exact absurd ⟨_, rfl⟩ hatom

/-- A run of the reader that does not fail reads tokens only, and stands for them in the end. -/
theorem foldlM_sound {pieces : List Lexeme} {r r' : Reader} (h : pieces.foldlM step r = .ok r')
    (hr : Sound r.done r.pending) :
    ∃ ts : List Token, pieces = ts.map .token ∧
      tokensOf r'.done r'.pending = tokensOf r.done r.pending ++ ts ∧ Sound r'.done r'.pending := by
  induction pieces generalizing r with
  | nil =>
    obtain rfl := Except.ok.inj h
    exact ⟨[], rfl, by simp, hr⟩
  | cons piece pieces ih =>
    rw [List.foldlM_cons] at h
    cases piece with
    | stray text => simp [step, bind, Except.bind] at h
    | token t =>
      cases hstep : r.readToken t with
      | error e => simp [step, hstep, bind, Except.bind] at h
      | ok s =>
        obtain ⟨hs, hsound⟩ := readToken_sound hstep hr
        have hrest : pieces.foldlM step s = .ok r' := by simpa [step, hstep, bind, Except.bind] using h
        obtain ⟨ts, rfl, hts, hr'⟩ := ih hrest hsound
        exact ⟨t :: ts, rfl, by rw [hts, hs, List.append_assoc, List.singleton_append], hr'⟩

/-- A document that was read is grammatical and flattens to the tokens of its source. -/
theorem readAll_sound {pieces : List Lexeme} {t : Tree} (h : readAll pieces = .ok t) :
    t.isRoot = true ∧ t.Grammatical ∧ pieces = t.tokens.map .token := by
  rw [readAll] at h
  cases hrun : pieces.foldlM step {} with
  | error e => simp [hrun, bind, Except.bind] at h
  | ok r =>
    have hfinish : r.finish = .ok t := by simpa [hrun, bind, Except.bind] using h
    obtain ⟨ts, rfl, htokens, hsound⟩ := foldlM_sound hrun ⟨List.forall_mem_nil _, List.forall_mem_nil _⟩
    obtain ⟨pos, done, pending⟩ := r
    cases pending with
    | cons p outer => cases p <;> simp [finish] at hfinish
    | nil =>
      obtain rfl := Except.ok.inj hfinish
      refine ⟨rfl, Node.grammatical_composite_iff.mpr ⟨fun n hn => hsound.1 n (List.mem_reverse.mp hn), ?_⟩, ?_⟩
      · intro m hm
        simp at hm
      · have hts : Node.tokensAll done.reverse = ts := by simpa [tokensOf] using htokens
        simp [Tree.root, Node.tokens, Kind.opening, Kind.closing, hts]

/-! ## Completeness -/

/-- How many bytes the tokens of some nodes take. -/
def widthOf (ns : List Tree) : Nat :=
  Text.bytes (Token.texts (Node.tokensAll ns))

/-- Reading the tokens of a node puts the node in its place. -/
def Reads (n : Tree) : Prop :=
  ∀ r : Reader, (n.tokens.map Lexeme.token).foldlM step r = .ok (r.add (widthOf [n]) n)

theorem widthOf_cons (n : Tree) (ns : List Tree) : widthOf (n :: ns) = widthOf [n] + widthOf ns := by
  simp [widthOf]

theorem foldlM_map_append (ts us : List Token) (r : Reader) :
    ((ts ++ us).map Lexeme.token).foldlM step r =
      (ts.map Lexeme.token).foldlM step r >>= fun s => (us.map Lexeme.token).foldlM step s := by
  rw [List.map_append, List.foldlM_append]

theorem foldlM_bracket {ns : List Tree} (hns : ∀ n ∈ ns, Reads n) (pos : Nat) (done : List Tree) (b : Bracket)
    (start : Nat) (children : List Tree) (outer : List Pending) :
    ((Node.tokensAll ns).map Lexeme.token).foldlM step ⟨pos, done, .bracket b start children :: outer⟩ =
      .ok ⟨pos + widthOf ns, done, .bracket b start (ns.reverse ++ children) :: outer⟩ := by
  induction ns generalizing pos children with
  | nil => rfl
  | cons n ns ih =>
    obtain ⟨hn, hns⟩ := List.forall_mem_cons.mp hns
    rw [Node.tokensAll_cons, foldlM_map_append, hn]
    simp only [bind, Except.bind, add, place]
    rw [ih hns, widthOf_cons n ns]
    simp [Nat.add_assoc]

theorem foldlM_mark {ns : List Tree} (hns : ∀ n ∈ ns, Reads n) (pos : Nat) (done : List Tree) (m : Mark)
    (start : Nat) (children : List Tree) (outer : List Pending)
    (hopen : formCount children + formCount ns < m.arity) :
    ((Node.tokensAll ns).map Lexeme.token).foldlM step ⟨pos, done, .mark m start children :: outer⟩ =
      .ok ⟨pos + widthOf ns, done, .mark m start (ns.reverse ++ children) :: outer⟩ := by
  induction ns generalizing pos children with
  | nil => rfl
  | cons n ns ih =>
    obtain ⟨hn, hns⟩ := List.forall_mem_cons.mp hns
    rw [formCount_cons] at hopen
    have hnext : formCount (n :: children) + formCount ns < m.arity := by
      rw [formCount_cons]
      omega
    rw [Node.tokensAll_cons, foldlM_map_append, hn]
    simp only [bind, Except.bind, add, place]
    rw [if_neg (by omega), ih hns _ _ hnext, widthOf_cons n ns]
    simp [Nat.add_assoc]

theorem foldlM_single (t : Token) (r : Reader) : ([t].map Lexeme.token).foldlM step r = r.readToken t := by
  simp [step]

theorem reads_bracket {b : Bracket} {children : List Tree} (h : ∀ n ∈ children, Reads n) :
    Reads (.composite () (.bracket b) children) := by
  intro r
  rw [Node.tokens, foldlM_map_append, foldlM_map_append, Kind.opening, foldlM_single]
  simp only [readToken, enter, bind, Except.bind]
  rw [foldlM_bracket h]
  simp only [Kind.closing, foldlM_single, readToken, close, if_true, add, List.append_nil, List.reverse_reverse]
  simp [widthOf, Node.tokens, Kind.opening, Kind.closing, Token.text, Nat.add_assoc]

theorem reads_mark {m : Mark} {children : List Tree} (h : ∀ n ∈ children, Reads n)
    (harity : formCount children = m.arity) (hlast : children.getLast?.any Node.isForm = true) :
    Reads (.composite () (.mark m) children) := by
  intro r
  -- the last form finishes the mark, everything before it only fills it
  obtain ⟨init, last, rfl⟩ : ∃ init last, children = init ++ [last] := by
    rcases List.eq_nil_or_concat' children with rfl | ⟨init, last, rfl⟩
    · simp at hlast
    · exact ⟨init, last, rfl⟩
  have hform : last.isForm = true := by simpa using hlast
  have hcount : formCount init + 1 = m.arity := by
    rw [← harity, formCount, formCount, List.countP_append, List.countP_singleton, if_pos hform]
  have hinit : ∀ n ∈ init, Reads n := fun n hn => h n (List.mem_append_left _ hn)
  have hread : Reads last := h last (by simp)
  rw [Node.tokens, foldlM_map_append, foldlM_map_append, Kind.opening, foldlM_single]
  simp only [readToken, enter, bind, Except.bind]
  rw [Node.tokensAll_append, foldlM_map_append, foldlM_mark hinit _ _ _ _ _ _ (by rw [formCount]; simp; omega)]
  simp only [bind, Except.bind, Node.tokensAll_cons, Node.tokensAll_nil, List.append_nil]
  rw [hread]
  have hfull : formCount (last :: init.reverse) = m.arity := by
    rw [formCount_cons, if_pos hform, ← hcount, formCount, List.countP_reverse, formCount]
  simp only [Kind.closing, List.map_nil, List.foldlM_nil, add, place, if_pos hfull, pure, Except.pure]
  simp [widthOf, Node.tokens, Kind.opening, Kind.closing, Token.text, Nat.add_assoc]

theorem reads_of_inner {n : Tree} (hn : Inner n) : Reads n := by
  induction n using Node.child_induction with
  | node n ih =>
    cases n with
    | trivia label t =>
      intro r
      cases t <;> rw [Node.tokens, Trivia.token, foldlM_single] <;>
        simp [readToken, widthOf, Node.tokens, Trivia.token, Token.text]
    | atom label a =>
      intro r
      rw [Node.tokens, foldlM_single, readToken_atom r (Node.grammatical_atom_iff.mp hn.1)]
      simp [widthOf, Node.tokens]
    | composite label kind children =>
      obtain ⟨hchildren, harity⟩ := Node.grammatical_composite_iff.mp hn.1
      have hread : ∀ n ∈ children, Reads n := fun n hmem => ih n hmem (hchildren n hmem)
      cases kind with
      | root => exact absurd hn.2 (by simp [Node.isRoot])
      | bracket b => exact reads_bracket hread
      | mark m => exact reads_mark hread (harity m rfl).1 (harity m rfl).2

theorem foldlM_top {ns : List Tree} (hns : ∀ n ∈ ns, Reads n) (pos : Nat) (done : List Tree) :
    ((Node.tokensAll ns).map Lexeme.token).foldlM step ⟨pos, done, []⟩ =
      .ok ⟨pos + widthOf ns, ns.reverse ++ done, []⟩ := by
  induction ns generalizing pos done with
  | nil => rfl
  | cons n ns ih =>
    obtain ⟨hn, hns⟩ := List.forall_mem_cons.mp hns
    rw [Node.tokensAll_cons, foldlM_map_append, hn]
    simp only [bind, Except.bind, add, place]
    rw [ih hns, widthOf_cons n ns]
    simp [Nat.add_assoc]

/-- Every grammatical document is read from its tokens. -/
theorem readAll_complete {t : Tree} (hroot : t.isRoot = true) (ht : t.Grammatical) :
    readAll (t.tokens.map .token) = .ok t := by
  cases t with
  | trivia label t => simp [Node.isRoot] at hroot
  | atom label a => simp [Node.isRoot] at hroot
  | composite label kind children =>
    cases kind with
    | bracket b => simp [Node.isRoot] at hroot
    | mark m => simp [Node.isRoot] at hroot
    | root =>
      obtain ⟨hchildren, -⟩ := Node.grammatical_composite_iff.mp ht
      have hread : ∀ n ∈ children, Reads n := fun n hmem => reads_of_inner (hchildren n hmem)
      have hrun := foldlM_top hread 0 []
      simp only [readAll, Node.tokens, Kind.opening, Kind.closing, List.nil_append, List.append_nil, hrun]
      simp [bind, Except.bind, finish, Tree.root]

end Reader

/-- The reader accepts exactly the grammatical documents, and builds the one tree that flattens to the tokens of the
source: a source is read as `t` exactly if `t` is a grammatical document and the source lexes, without stray text, to
the tokens of `t`. -/
theorem Tree.read_eq_ok_iff (source : Text) (t : Tree) :
    Tree.read source = .ok t ↔ t.isRoot = true ∧ t.Grammatical ∧ lex source = t.tokens.map .token := by
  constructor
  · exact Reader.readAll_sound
  · rintro ⟨hroot, ht, hlex⟩
    rw [Tree.read, hlex]
    exact Reader.readAll_complete hroot ht

end SexprEdit
