import SexprEdit.Proofs.Reader.Grammar

/-!
# Where reading fails

Reading keeps track of where each open composite began (`Reader.Tracks`). Whatever has been read without an error can be
continued to a document: close the brackets and give the marks their forms, from the inside out (`Tracks.continues`). So
reading fails at the first token that no document continues with, or at the end, and then the innermost composite that is
unfinished there (`Reader.Unfinished`) is to blame.
-/

namespace SexprEdit

def Pending.kind : Pending → Kind
  | .bracket b _ _ => .bracket b
  | .mark m _ _ => .mark m

def Pending.start : Pending → Nat
  | .bracket _ start _ | .mark _ start _ => start

namespace Reader

def offsetOf (ts : List Token) : Nat :=
  Text.bytes (Token.texts ts)

/-- Some pieces of source can be continued to those of a document. -/
def Continues (pieces : List Lexeme) : Prop :=
  ∃ more t, readAll (pieces ++ more) = .ok t

/-- At the end of some tokens, the composite that began behind `before` is the innermost one that is unfinished: it is
neither closed nor does it have all its forms, and everything inside it is finished. -/
def Unfinished (ts before : List Token) (kind : Kind) : Prop :=
  kind ≠ .root ∧ ∃ ns, (∀ n ∈ ns, Inner n) ∧ (∀ m, kind = .mark m → formCount ns < m.arity) ∧
    ts = before ++ kind.opening ++ Node.tokensAll ns

/-- The error about tokens that end within a composite: it is about the innermost unfinished one, a bracket that is not
closed or a mark that lacks a form. -/
inductive EndsWithin (ts : List Token) : ReadError → Prop where
  | bracket {b : Bracket} {before : List Token} (h : Unfinished ts before (.bracket b)) :
      EndsWithin ts ⟨offsetOf before, .unclosed (Token.opening b).description⟩
  | mark {m : Mark} {before : List Token} (h : Unfinished ts before (.mark m)) :
      EndsWithin ts ⟨offsetOf before, .missingForm m.name⟩

/-- The error about a piece of source that cannot follow some tokens. Stray text and bad words never can. A closing
delimiter cannot if nothing is unfinished, if the innermost unfinished composite is a bracket that ends with another
delimiter, or if that is a mark, which then is to blame. -/
inductive Refuses (ts : List Token) : Lexeme → ReadError → Prop where
  | stray (text : Text) : Refuses ts (.stray text) ⟨offsetOf ts, .unrecognized (text.take snippetLength)⟩
  | literal {text : Text} {bad : BadWord} (h : Atom.ofBare text = .error bad) :
      Refuses ts (.token (.bare text)) ⟨offsetOf ts, .invalidLiteral bad.message⟩
  | unexpected (c : Closer) (h : ∀ before kind, ¬ Unfinished ts before kind) :
      Refuses ts (.token (.closing c)) ⟨offsetOf ts, .unexpectedClose (Token.closing c).description⟩
  | mismatched {b : Bracket} {c : Closer} {before : List Token} (h : Unfinished ts before (.bracket b))
      (hc : b.closer ≠ c) :
      Refuses ts (.token (.closing c))
        ⟨offsetOf ts, .mismatched (Token.closing b.closer).description (Token.closing c).description⟩
  | lacking {m : Mark} (c : Closer) {before : List Token} (h : Unfinished ts before (.mark m)) :
      Refuses ts (.token (.closing c)) ⟨offsetOf before, .missingForm m.name⟩

/-! ## Positions -/

/-- Each open composite began behind the tokens before it. -/
def PlacedFrom (done : List Tree) : List Pending → Prop
  | [] => True
  | p :: outer => p.start = offsetOf (tokensOf done outer) ∧ PlacedFrom done outer

/-- A state of reading stands for some tokens, and has the right positions. -/
structure Tracks (r : Reader) (ts : List Token) : Prop where
  sound : Sound r.done r.pending
  tokens : tokensOf r.done r.pending = ts
  pos : r.pos = offsetOf ts
  placed : PlacedFrom r.done r.pending

variable {r r' : Reader} {t : Token} {ts us : List Token} {pieces : List Lexeme} {e : ReadError}

theorem offsetOf_append (ts us : List Token) : offsetOf (ts ++ us) = offsetOf ts + offsetOf us := by
  simp [offsetOf]

theorem placedFrom_place {n : Tree} {done : List Tree} {pending : List Pending} (h : PlacedFrom done pending) :
    PlacedFrom (place n done pending).1 (place n done pending).2 := by
  induction pending generalizing n with
  | nil => trivial
  | cons p outer ih =>
    obtain ⟨hstart, houter⟩ := h
    cases p with
    | bracket b start children => exact ⟨hstart, houter⟩
    | mark m start children =>
      rw [place]
      split_ifs
      · exact ih houter
      · exact ⟨hstart, houter⟩

theorem tracks_start : Tracks {} [] :=
  ⟨⟨List.forall_mem_nil _, List.forall_mem_nil _⟩, rfl, rfl, trivial⟩

theorem placed_readToken (hr : r.Tracks ts) (h : r.readToken t = .ok r') :
    r'.pos = r.pos + Text.bytes t.text ∧ PlacedFrom r'.done r'.pending := by
  have hadd : ∀ (width : Nat) (n : Tree), (r.add width n).pos = r.pos + width ∧
      PlacedFrom (r.add width n).done (r.add width n).pending := fun width n => ⟨rfl, placedFrom_place hr.placed⟩
  by_cases hatom : ∃ a, t.atom? = some a
  · obtain ⟨a, ha⟩ := hatom
    rw [readToken_atom r ha] at h
    obtain rfl := Except.ok.inj h
    exact hadd _ _
  · cases t with
    | whitespace text | comment text =>
      obtain rfl := Except.ok.inj h
      exact hadd _ _
    | opening b | mark m =>
      obtain rfl := Except.ok.inj h
      exact ⟨rfl, hr.pos.trans (congrArg offsetOf hr.tokens.symm), hr.placed⟩
    | closing c =>
      obtain ⟨pos, done, pending⟩ := r
      rw [readToken, close] at h
      split at h
      · cases h
      · next b start children outer hpending =>
        split_ifs at h
        obtain rfl := Except.ok.inj h
        obtain rfl : pending = _ := hpending
        exact ⟨rfl, placedFrom_place hr.placed.2⟩
      · cases h
    | bare text =>
      cases hbare : Atom.ofBare text with
      | ok a => exact absurd ⟨a, by simp [Token.atom?, hbare, Except.toOption]⟩ hatom
      | error bad => simp [readToken, hbare] at h
    | string text | regex text | character text | symbolic text => exact absurd ⟨_, rfl⟩ hatom

theorem Tracks.token (hr : r.Tracks ts) (h : r.readToken t = .ok r') : r'.Tracks (ts ++ [t]) := by
  obtain ⟨htokens, hsound⟩ := readToken_sound h hr.sound
  obtain ⟨hpos, hplaced⟩ := placed_readToken hr h
  refine ⟨hsound, htokens.trans (by rw [hr.tokens]), ?_, hplaced⟩
  rw [hpos, hr.pos, offsetOf_append]
  simp [offsetOf]

theorem Tracks.run (hr : r.Tracks ts) (h : (us.map Lexeme.token).foldlM step r = .ok r') : r'.Tracks (ts ++ us) := by
  induction us generalizing r ts with
  | nil =>
    obtain rfl := Except.ok.inj h
    rwa [List.append_nil]
  | cons u us ih =>
    rw [List.map_cons, List.foldlM_cons] at h
    cases hstep : step r (.token u) with
    | error err => simp [hstep, bind, Except.bind] at h
    | ok s =>
      rw [hstep] at h
      have hrest := ih (hr.token hstep) h
      rwa [List.append_assoc] at hrest

/-! ## The innermost open composite -/

theorem Tracks.unfinished {p : Pending} {outer : List Pending} (hr : r.Tracks ts) (h : r.pending = p :: outer) :
    Unfinished ts (tokensOf r.done outer) p.kind ∧ p.start = offsetOf (tokensOf r.done outer) := by
  have htokens := hr.tokens
  have hsound := hr.sound.2
  have hplaced := hr.placed
  rw [h] at htokens hsound hplaced
  obtain ⟨hp, -⟩ := List.forall_mem_cons.mp hsound
  refine ⟨?_, hplaced.1⟩
  cases p with
  | bracket b start children =>
    refine ⟨by simp [Pending.kind], children.reverse, fun n hn => hp n (List.mem_reverse.mp hn), ?_, ?_⟩
    · intro m hm
      cases hm
    · rw [← htokens, tokensOf_enter]
      simp [pendingTokens, Pending.kind, Kind.opening]
  | mark m start children =>
    refine ⟨by simp [Pending.kind], children.reverse, fun n hn => hp.1 n (List.mem_reverse.mp hn), ?_, ?_⟩
    · rintro m' ⟨⟩
      rw [formCount, List.countP_reverse]
      exact hp.2
    · rw [← htokens, tokensOf_enter]
      simp [pendingTokens, Pending.kind, Kind.opening]

theorem Unfinished.pending {before : List Token} {kind : Kind} (h : Unfinished ts before kind)
    (hrun : (ts.map Lexeme.token).foldlM step {} = .ok r) :
    ∃ p outer, r.pending = p :: outer ∧ tokensOf r.done outer = before ∧ p.kind = kind := by
  obtain ⟨hkind, ns, hns, harity, rfl⟩ := h
  have hreads : ∀ n ∈ ns, Reads n := fun n hn => reads_of_inner (hns n hn)
  rw [foldlM_map_append, foldlM_map_append] at hrun
  cases hbefore : (before.map Lexeme.token).foldlM step {} with
  | error err => simp [hbefore, bind, Except.bind] at hrun
  | ok s =>
    have hs : s.Tracks before := tracks_start.run hbefore
    cases kind with
    | root => exact absurd rfl hkind
    | bracket b =>
      rw [hbefore, Kind.opening] at hrun
      simp only [bind, Except.bind, foldlM_single, readToken, enter] at hrun
      rw [foldlM_bracket hreads] at hrun
      obtain rfl := Except.ok.inj hrun
      exact ⟨_, _, rfl, hs.tokens, rfl⟩
    | mark m =>
      have hopen : formCount [] + formCount ns < m.arity := by
        have hlacks := harity m rfl
        simpa [formCount] using hlacks
      rw [hbefore, Kind.opening] at hrun
      simp only [bind, Except.bind, foldlM_single, readToken, enter] at hrun
      rw [foldlM_mark hreads _ _ _ _ _ _ hopen] at hrun
      obtain rfl := Except.ok.inj hrun
      exact ⟨_, _, rfl, hs.tokens, rfl⟩

/-- At most one composite is the innermost unfinished one. -/
theorem Unfinished.unique {before before' : List Token} {kind kind' : Kind} (h : Unfinished ts before kind)
    (h' : Unfinished ts before' kind') (hrun : (ts.map Lexeme.token).foldlM step {} = .ok r) :
    before = before' ∧ kind = kind' := by
  obtain ⟨p, outer, hp, rfl, rfl⟩ := h.pending hrun
  obtain ⟨p', outer', hp', rfl, rfl⟩ := h'.pending hrun
  rw [hp] at hp'
  obtain ⟨rfl, rfl⟩ := List.cons.inj hp'
  exact ⟨rfl, rfl⟩

/-! ## Continuing -/

def filler : Tree :=
  .atom () ⟨.symbol, "x".toList⟩

theorem inner_filler : Inner filler :=
  inner_atom (t := .bare "x".toList) (by decide)

theorem exists_finish {p : Pending} (hp : PendingSound p) :
    ∃ more n, Inner n ∧ n.tokens = pendingTokens p ++ more := by
  cases p with
  | bracket b start children =>
    refine ⟨[.closing b.closer], .composite () (.bracket b) children.reverse, ⟨?_, rfl⟩, ?_⟩
    · refine Node.grammatical_composite_iff.mpr ⟨fun n hn => hp n (List.mem_reverse.mp hn), ?_⟩
      intro m hm
      cases hm
    · simp [Node.tokens, pendingTokens, Kind.opening, Kind.closing]
  | mark m start children =>
    obtain ⟨hchildren, hopen⟩ := hp
    -- the mark gets as many words as it lacks forms, at least one
    obtain ⟨k, hk⟩ : ∃ k, formCount children + (k + 1) = m.arity := ⟨m.arity - formCount children - 1, by omega⟩
    let fillers := List.replicate (k + 1) filler
    refine ⟨Node.tokensAll fillers, .composite () (.mark m) (children.reverse ++ fillers), ⟨?_, rfl⟩, ?_⟩
    · refine Node.grammatical_composite_iff.mpr ⟨fun n hn => ?_, fun m' hm' => ?_⟩
      · rcases List.mem_append.mp hn with hn | hn
        · exact hchildren n (List.mem_reverse.mp hn)
        · rw [List.eq_of_mem_replicate hn]
          exact inner_filler
      · obtain rfl := Kind.mark.inj hm'
        refine ⟨?_, by simp [fillers, List.replicate_succ', filler, Node.isForm]⟩
        have hfillers : fillers.countP Node.isForm = k + 1 := by
          simp [fillers, List.countP_replicate, filler, Node.isForm]
        rw [Node.formCount, List.countP_append, List.countP_reverse, hfillers]
        exact hk
    · simp [Node.tokens, pendingTokens, Kind.opening, Kind.closing]

theorem length_place_le (n : Tree) (done : List Tree) (pending : List Pending) :
    (place n done pending).2.length ≤ pending.length := by
  induction pending generalizing n with
  | nil => rfl
  | cons p outer ih =>
    cases p with
    | bracket b start children => rfl
    | mark m start children =>
      rw [place]
      split_ifs
      · exact (ih _).trans (Nat.le_succ _)
      · rfl

theorem exists_finish_all {done : List Tree} {pending : List Pending} (h : Sound done pending) :
    ∃ more ns, (∀ n ∈ ns, Inner n) ∧ Node.tokensAll ns = tokensOf done pending ++ more := by
  -- a finished composite may finish marks around it, so the induction is on how many composites are open
  induction hlen : pending.length using Nat.strong_induction_on generalizing done pending with
  | _ len ih =>
    cases pending with
    | nil => exact ⟨[], done.reverse, fun n hn => h.1 n (List.mem_reverse.mp hn), by simp [tokensOf]⟩
    | cons p outer =>
      obtain ⟨hp, houter⟩ := List.forall_mem_cons.mp h.2
      obtain ⟨more, n, hn, htokens⟩ := exists_finish hp
      have hrest : Sound done outer := ⟨h.1, houter⟩
      obtain ⟨hplaced, hsound⟩ := place_sound hn hrest
      have hfewer : (place n done outer).2.length < len := by
        have hle := length_place_le n done outer
        rw [List.length_cons] at hlen
        omega
      obtain ⟨rest, ns, hns, hall⟩ := ih _ hfewer hsound rfl
      refine ⟨more ++ rest, ns, hns, ?_⟩
      rw [hall, hplaced, htokens, tokensOf_enter]
      simp

/-- What was read without an error can be continued to a document. -/
theorem Tracks.continues (hr : r.Tracks ts) : Continues (ts.map Lexeme.token) := by
  obtain ⟨more, ns, hns, hall⟩ := exists_finish_all hr.sound
  have hroot : (Tree.root ns).Grammatical := by
    refine Node.grammatical_composite_iff.mpr ⟨hns, ?_⟩
    intro m hm
    cases hm
  refine ⟨more.map Lexeme.token, Tree.root ns, ?_⟩
  rw [← List.map_append, ← hr.tokens, ← hall]
  have hread := readAll_complete rfl hroot
  simpa [Tree.root, Node.tokens, Kind.opening, Kind.closing] using hread

/-! ## Failing -/

theorem exists_of_foldlM_error (h : pieces.foldlM step r = .error e) :
    ∃ (ts : List Token) (piece : Lexeme) (rest : List Lexeme) (s : Reader), pieces = ts.map .token ++ piece :: rest ∧
      (ts.map Lexeme.token).foldlM step r = .ok s ∧ s.step piece = .error e := by
  induction pieces generalizing r with
  | nil => cases h
  | cons piece pieces ih =>
    rw [List.foldlM_cons] at h
    cases hstep : step r piece with
    | error err =>
      obtain rfl : err = e := by simpa [hstep, bind, Except.bind] using h
      exact ⟨[], piece, pieces, r, rfl, rfl, hstep⟩
    | ok next =>
      rw [hstep] at h
      obtain ⟨ts, bad, rest, s, rfl, hrun, hbad⟩ := ih h
      cases piece with
      | stray text => simp [step] at hstep
      | token t => exact ⟨t :: ts, bad, rest, s, rfl, by rw [List.map_cons, List.foldlM_cons, hstep]; exact hrun, hbad⟩

/-- No document continues with a piece that the reader refuses. -/
theorem not_continues_of_step {piece : Lexeme} (hrun : (ts.map Lexeme.token).foldlM step {} = .ok r)
    (h : r.step piece = .error e) : ¬ Continues (ts.map Lexeme.token ++ [piece]) := by
  rintro ⟨more, t, hread⟩
  rw [readAll, List.append_assoc, List.foldlM_append, hrun] at hread
  simp [bind, Except.bind, h] at hread

theorem Tracks.refuses {piece : Lexeme} (hr : r.Tracks ts) (hrun : (ts.map Lexeme.token).foldlM step {} = .ok r)
    (h : r.step piece = .error e) : Refuses ts piece e := by
  have hpos := hr.pos
  cases piece with
  | stray text =>
    obtain rfl := Except.error.inj h
    rw [hpos]
    exact .stray text
  | token t =>
    cases t with
    | bare text =>
      rw [step, readToken] at h
      cases hbare : Atom.ofBare text with
      | ok a => simp [hbare] at h
      | error bad =>
        obtain rfl : _ = e := by simpa [hbare] using h
        rw [hpos]
        exact .literal hbare
    | closing c =>
      rw [step, readToken, close] at h
      split at h
      · next hpending =>
        obtain rfl := Except.error.inj h
        rw [hpos]
        refine .unexpected c fun before kind hopen => ?_
        obtain ⟨p, outer, hp, -⟩ := hopen.pending hrun
        rw [hpending] at hp
        cases hp
      · next b start children outer hpending =>
        split_ifs at h with hc
        obtain rfl := Except.error.inj h
        rw [hpos]
        exact .mismatched (hr.unfinished hpending).1 hc
      · next m start children outer hpending =>
        obtain rfl := Except.error.inj h
        obtain ⟨hopen, hstart⟩ := hr.unfinished hpending
        obtain rfl : start = _ := hstart
        exact .lacking c hopen
    | _ => cases h

theorem Tracks.endsWithin (hr : r.Tracks ts) (h : r.finish = .error e) : EndsWithin ts e := by
  rw [finish] at h
  split at h
  · cases h
  · next b start children outer hpending =>
    obtain rfl := Except.error.inj h
    obtain ⟨hopen, hstart⟩ := hr.unfinished hpending
    obtain rfl : start = _ := hstart
    exact .bracket hopen
  · next m start children outer hpending =>
    obtain rfl := Except.error.inj h
    obtain ⟨hopen, hstart⟩ := hr.unfinished hpending
    obtain rfl : start = _ := hstart
    exact .mark hopen

/-! ## Where pieces begin -/

/-- An offset at which a piece of the source begins: it is the length of the pieces before, and the rest of the source
lexes to that piece and the ones behind it. -/
def StartsPiece (source : Text) (pos : Nat) : Prop :=
  ∃ i < (lex source).length, ∃ front back, source = front ++ back ∧
    front = ((lex source).take i).flatMap Lexeme.text ∧ lex back = (lex source).drop i ∧ pos = Text.bytes front

theorem exists_of_lex_append {source : Text} (h : lex source = ts.map .token ++ pieces) :
    ∃ back, source = Token.texts ts ++ back ∧ lex back = pieces := by
  induction ts generalizing source with
  | nil => exact ⟨source, rfl, h⟩
  | cons t ts ih =>
    obtain ⟨rest, rfl, -, -, hrest⟩ := lex_eq_cons_iff.mp h
    obtain ⟨back, rfl, hback⟩ := ih hrest
    exact ⟨back, by simp, hback⟩

theorem startsPiece_of_lex {source : Text} (h : lex source = ts.map .token ++ pieces) (hpieces : pieces ≠ []) :
    StartsPiece source (offsetOf ts) := by
  obtain ⟨back, hsource, hback⟩ := exists_of_lex_append h
  have hfront : Token.texts ts = ((lex source).take ts.length).flatMap Lexeme.text := by
    rw [h, List.take_left' (List.length_map _), List.flatMap_map]
    rfl
  refine ⟨ts.length, ?_, Token.texts ts, back, hsource, hfront, ?_, rfl⟩
  · have hpos := List.length_pos_iff.mpr hpieces
    rw [h, List.length_append, List.length_map]
    omega
  · rw [hback, h, List.drop_left' (List.length_map _)]

theorem Unfinished.startsPiece {source : Text} {before : List Token} {kind : Kind} (h : Unfinished ts before kind)
    (hlex : lex source = ts.map .token ++ pieces) : StartsPiece source (offsetOf before) := by
  obtain ⟨hkind, ns, -, -, rfl⟩ := h
  rw [List.append_assoc, List.map_append, List.append_assoc] at hlex
  refine startsPiece_of_lex hlex ?_
  cases kind with
  | root => exact absurd rfl hkind
  | bracket b => simp [Kind.opening]
  | mark m => simp [Kind.opening]

theorem EndsWithin.startsPiece {source : Text} (h : EndsWithin ts e) (hlex : lex source = ts.map .token ++ pieces) :
    StartsPiece source e.pos := by
  cases h with
  | bracket h => exact h.startsPiece hlex
  | mark h => exact h.startsPiece hlex

theorem Refuses.startsPiece {source : Text} {piece : Lexeme} (h : Refuses ts piece e)
    (hlex : lex source = ts.map .token ++ piece :: pieces) : StartsPiece source e.pos := by
  have hhere : StartsPiece source (offsetOf ts) := startsPiece_of_lex hlex (List.cons_ne_nil _ _)
  cases h with
  | lacking c h => exact h.startsPiece hlex
  | _ => exact hhere

theorem EndsWithin.cause_ne (h : EndsWithin ts e) : e.cause ≠ .unclosed "form" := by
  cases h with
  | bracket h =>
    intro hform
    have hquote := congrArg (fun text : String => text.toList.head?) (ReadError.Cause.unclosed.inj hform)
    simp [Token.description] at hquote
  | mark h => simp

theorem Refuses.cause_ne {piece : Lexeme} (h : Refuses ts piece e) : e.cause ≠ .unclosed "form" := by
  cases h <;> simp

end Reader

/-- Reading fails as early as it can, and blames the right construct. The tokens before the failure can be continued to a
document. Either they are all there is, and the error is about the innermost composite that is unfinished at their end,
of which there is one; or no document continues with the next piece, and the error is about that piece, or about the mark
that lacks a form before a closing delimiter. In any case the error stands where a piece of the source begins, and a
composite that it calls unclosed is named by its bracket. -/
theorem Tree.read_error_earliest {source : Text} {e : ReadError} (h : Tree.read source = .error e) :
    ∃ (ts : List Token) (rest : List Lexeme), lex source = ts.map .token ++ rest ∧ Reader.Continues (ts.map .token) ∧
      (∀ before kind before' kind', Reader.Unfinished ts before kind → Reader.Unfinished ts before' kind' →
        before = before' ∧ kind = kind') ∧
      ((rest = [] ∧ Reader.EndsWithin ts e) ∨
        ∃ piece more, rest = piece :: more ∧ ¬ Reader.Continues (ts.map .token ++ [piece]) ∧
          Reader.Refuses ts piece e) ∧
      Reader.StartsPiece source e.pos ∧ e.cause ≠ .unclosed "form" := by
  rw [Tree.read, Reader.readAll] at h
  cases hrun : (lex source).foldlM Reader.step {} with
  | ok r =>
    have hfinish : r.finish = .error e := by simpa [hrun, bind, Except.bind] using h
    obtain ⟨ts, hlex, -⟩ := Reader.foldlM_sound hrun Reader.tracks_start.sound
    rw [hlex] at hrun
    have hr := Reader.tracks_start.run hrun
    have hends := hr.endsWithin hfinish
    have hall : lex source = ts.map .token ++ [] := by rw [hlex, List.append_nil]
    exact ⟨ts, [], hall, hr.continues, fun _ _ _ _ hopen hopen' => hopen.unique hopen' hrun, .inl ⟨rfl, hends⟩,
      hends.startsPiece hall, hends.cause_ne⟩
  | error err =>
    obtain rfl : err = e := by simpa [hrun, bind, Except.bind] using h
    obtain ⟨ts, piece, more, r, hlex, hts, hstep⟩ := Reader.exists_of_foldlM_error hrun
    have hr := Reader.tracks_start.run hts
    have hrefuses := hr.refuses hts hstep
    exact ⟨ts, piece :: more, hlex, hr.continues, fun _ _ _ _ hopen hopen' => hopen.unique hopen' hts,
      .inr ⟨piece, more, rfl, Reader.not_continues_of_step hts hstep, hrefuses⟩,
      hrefuses.startsPiece hlex, hrefuses.cause_ne⟩

/-- Metadata that lacks its form is to blame when the bracket around it closes. -/
theorem Tree.read_error_earliest_metadata :
    Tree.read "['a ^b]".toList = .error ⟨4, .missingForm "meta"⟩ ∧ Reader.StartsPiece "['a ^b]".toList 4 ∧
      ∃ ts, lex "['a ^b]".toList = ts.map .token ++ [.token (.closing .square)] ∧ Reader.Continues (ts.map .token) ∧
        ¬ Reader.Continues (ts.map .token ++ [.token (.closing .square)]) ∧
          Reader.Refuses ts (.token (.closing .square)) ⟨4, .missingForm "meta"⟩ := by
  have hread : Tree.read "['a ^b]".toList = .error ⟨4, .missingForm "meta"⟩ := rfl
  obtain ⟨ts, rest, hlex, hcontinues, -, hcases, hstarts, -⟩ := Tree.read_error_earliest hread
  refine ⟨hread, hstarts, ts, ?_⟩
  have hlast : lex "['a ^b]".toList = [.opening .vector, .mark .quote, .bare ['a'], .whitespace [' '], .mark .metadata,
      .bare ['b']].map Lexeme.token ++ [.token (.closing .square)] := rfl
  rcases hcases with ⟨rfl, -⟩ | ⟨piece, more, rfl, hends, hrefuses⟩
  · rw [List.append_nil] at hlex
    rw [← hlex, hlast] at hcontinues
    exact absurd hcontinues (Reader.not_continues_of_step rfl rfl)
  obtain rfl | ⟨most, last, rfl⟩ := List.eq_nil_or_concat more
  · obtain ⟨-, hpiece⟩ := List.append_inj' (hlex.symm.trans hlast) rfl
    obtain rfl := List.singleton_inj.mp hpiece
    exact ⟨hlex, hcontinues, hends, hrefuses⟩
  · -- all pieces but the last can be continued, by a form and the bracket
    rw [List.concat_eq_append, ← List.cons_append, ← List.append_assoc] at hlex
    obtain ⟨hfront, -⟩ := List.append_inj' (hlex.symm.trans hlast) rfl
    obtain ⟨more, t, hmore⟩ : Reader.Continues (ts.map .token ++ piece :: most) := by
      rw [hfront]
      exact ⟨[.token (.bare ['c']), .token (.closing .square)], _, rfl⟩
    rw [List.append_cons, List.append_assoc] at hmore
    exact absurd ⟨most ++ more, t, hmore⟩ hends

end SexprEdit
