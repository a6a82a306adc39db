import SexprEdit.Proofs.Node.Shape
import SexprEdit.Proofs.Reader.Grammar

/-!
# Trivia do not matter to the shape

Two states of reading are alike if they differ in trivia and positions only. A token that is trivia leads to a state
alike, and any other token leads from states alike to states alike. So the shape of what is read, and whether reading
fails, depends on the tokens that are no trivia (`Reader.readAll_of_filter`).
-/

namespace SexprEdit

namespace Reader

/-- An open composite without trivia and its position. -/
def shapePending : Pending → Pending
  | .bracket b _ children => .bracket b 0 (Node.shapeAll children)
  | .mark m _ children => .mark m 0 (Node.shapeAll children)

/-- States that differ in trivia and positions only. -/
def Alike (done : List Tree) (pending : List Pending) (done' : List Tree) (pending' : List Pending) : Prop :=
  Node.shapeAll done = Node.shapeAll done' ∧ pending.map shapePending = pending'.map shapePending

theorem formCount_eq {ns ms : List Tree} (h : Node.shapeAll ns = Node.shapeAll ms) : formCount ns = formCount ms := by
  have hlen := congrArg List.length h
  rwa [Node.length_shapeAll, Node.length_shapeAll] at hlen

theorem shapePending_bracket {b : Bracket} {start : Nat} {children : List Tree} {p : Pending}
    (h : shapePending (.bracket b start children) = shapePending p) :
    ∃ start' children', p = .bracket b start' children' ∧ Node.shapeAll children = Node.shapeAll children' := by
  cases p with
  | mark m start' children' => simp [shapePending] at h
  | bracket b' start' children' =>
    obtain ⟨rfl, -, hchildren⟩ := Pending.bracket.inj h
    exact ⟨start', children', rfl, hchildren⟩

theorem shapePending_mark {m : Mark} {start : Nat} {children : List Tree} {p : Pending}
    (h : shapePending (.mark m start children) = shapePending p) :
    ∃ start' children', p = .mark m start' children' ∧ Node.shapeAll children = Node.shapeAll children' := by
  cases p with
  | bracket b start' children' => simp [shapePending] at h
  | mark m' start' children' =>
    obtain ⟨rfl, -, hchildren⟩ := Pending.mark.inj h
    exact ⟨start', children', rfl, hchildren⟩

/-! ## Single nodes -/

theorem place_trivia_alike {n : Tree} (hn : n.isForm = false) {done : List Tree} {pending : List Pending}
    (h : Sound done pending) : Alike (place n done pending).1 (place n done pending).2 done pending := by
  cases pending with
  | nil => simp [place, Alike, Node.shapeAll_cons, hn]
  | cons p outer =>
    cases p with
    | bracket b start children => simp [place, Alike, shapePending, Node.shapeAll_cons, hn]
    | mark m start children =>
      obtain ⟨hp, -⟩ := List.forall_mem_cons.mp h.2
      have hopen : ¬formCount (n :: children) = m.arity := by
        have := hp.2
        rw [formCount_cons, hn]
        simp only [Bool.false_eq_true, if_false]
        omega
      rw [place, if_neg hopen]
      simp [Alike, shapePending, Node.shapeAll_cons, hn]

theorem place_form_alike {n m : Tree} (hn : n.isForm = true) (hshape : n.shape = m.shape)
    {done done' : List Tree} {pending pending' : List Pending} (h : Alike done pending done' pending') :
    Alike (place n done pending).1 (place n done pending).2 (place m done' pending').1 (place m done' pending').2 := by
  have hm : m.isForm = true := by rw [← Node.isForm_shape, ← hshape, Node.isForm_shape, hn]
  induction pending generalizing n m pending' with
  | nil =>
    obtain rfl : pending' = [] := List.map_eq_nil_iff.mp h.2.symm
    simp [place, Alike, Node.shapeAll_cons, hn, hm, hshape, h.1]
  | cons p outer ih =>
    obtain ⟨p', outer', rfl, hp, houter⟩ := List.map_eq_cons_iff.mp h.2.symm
    cases p with
    | bracket b start children =>
      obtain ⟨start', children', rfl, hchildren⟩ := shapePending_bracket hp.symm
      simp [place, Alike, shapePending, Node.shapeAll_cons, hn, hm, hshape, hchildren, h.1, houter]
    | mark k start children =>
      obtain ⟨start', children', rfl, hchildren⟩ := shapePending_mark hp.symm
      have hall : Node.shapeAll (n :: children) = Node.shapeAll (m :: children') := by
        simp [Node.shapeAll_cons, hn, hm, hshape, hchildren]
      by_cases hfull : formCount (n :: children) = k.arity
      · rw [place, if_pos hfull, place, if_pos (by rw [← formCount_eq hall, hfull])]
        refine ih rfl ?_ ⟨h.1, houter.symm⟩ rfl
        rw [Node.shape, Node.shape, Node.shapeAll_reverse, Node.shapeAll_reverse, hall]
      · rw [place, if_neg hfull, place, if_neg (by rw [← formCount_eq hall]; exact hfull)]
        simp [Alike, shapePending, hall, h.1, houter]

/-! ## Single tokens -/

theorem readToken_trivia {r : Reader} {t : Token} (ht : t.isTrivia = true) (hr : Sound r.done r.pending) :
    ∃ s, r.readToken t = .ok s ∧ Alike s.done s.pending r.done r.pending := by
  cases t with
  | whitespace text => exact ⟨_, rfl, place_trivia_alike rfl hr⟩
  | comment text => exact ⟨_, rfl, place_trivia_alike rfl hr⟩
  | _ => simp [Token.isTrivia] at ht

theorem close_alike {r r' s' : Reader} {c : Closer} (h : Alike r.done r.pending r'.done r'.pending)
    (hs : r'.close c = .ok s') : ∃ s, r.close c = .ok s ∧ Alike s.done s.pending s'.done s'.pending := by
  obtain ⟨pos, done, pending⟩ := r
  obtain ⟨pos', done', pending'⟩ := r'
  cases pending' with
  | nil => simp [close] at hs
  | cons p' outer' =>
    obtain ⟨p, outer, rfl, hp, houter⟩ := List.map_eq_cons_iff.mp h.2
    cases p' with
    | mark m start children => simp [close] at hs
    | bracket b start' children' =>
      obtain ⟨start, children, rfl, hchildren⟩ := shapePending_bracket hp.symm
      rw [close] at hs ⊢
      simp only at hs ⊢
      split_ifs at hs ⊢ with hc
      obtain rfl := Except.ok.inj hs
      refine ⟨_, rfl, place_form_alike rfl ?_ ⟨h.1, houter⟩⟩
      rw [Node.shape, Node.shape, Node.shapeAll_reverse, Node.shapeAll_reverse, hchildren]

theorem readToken_alike {r r' s' : Reader} {t : Token} (ht : t.isTrivia = false)
    (h : Alike r.done r.pending r'.done r'.pending) (hs : r'.readToken t = .ok s') :
    ∃ s, r.readToken t = .ok s ∧ Alike s.done s.pending s'.done s'.pending := by
  by_cases hatom : ∃ a, t.atom? = some a
  · obtain ⟨a, ha⟩ := hatom
    rw [readToken_atom r' ha] at hs
    obtain rfl := Except.ok.inj hs
    exact ⟨_, readToken_atom r ha, place_form_alike rfl rfl h⟩
  · cases t with
    | whitespace text | comment text => simp [Token.isTrivia] at ht
    | opening b | mark m =>
      obtain rfl := Except.ok.inj hs
      exact ⟨_, rfl, h.1, by simp [enter, shapePending, h.2]⟩
    | closing c => exact close_alike h hs
    | bare text =>
      cases hbare : Atom.ofBare text with
      | ok a => exact absurd ⟨a, by simp [Token.atom?, hbare, Except.toOption]⟩ hatom
      | error bad => simp [readToken, hbare] at hs
    | string text | regex text | character text | symbolic text => exact absurd ⟨_, rfl⟩ hatom

/-! ## Whole documents -/

theorem foldlM_of_filter {ts : List Token} {r r' s' : Reader} (hr : Sound r.done r.pending)
    (h : Alike r.done r.pending r'.done r'.pending)
    (hs : ((ts.filter (!·.isTrivia)).map Lexeme.token).foldlM step r' = .ok s') :
    ∃ s, (ts.map Lexeme.token).foldlM step r = .ok s ∧ Alike s.done s.pending s'.done s'.pending := by
  induction ts generalizing r r' with
  | nil =>
    obtain rfl := Except.ok.inj hs
    exact ⟨r, rfl, h⟩
  | cons t ts ih =>
    by_cases ht : t.isTrivia = true
    · rw [List.filter_cons_of_neg (by simpa using ht)] at hs
      obtain ⟨r₁, hread, halike⟩ := readToken_trivia ht hr
      obtain ⟨-, hsound⟩ := readToken_sound hread hr
      obtain ⟨s, hrun, hs⟩ := ih hsound ⟨halike.1.trans h.1, halike.2.trans h.2⟩ hs
      refine ⟨s, ?_, hs⟩
      simp [step, hread, bind, Except.bind, hrun]
    · rw [Bool.not_eq_true] at ht
      rw [List.filter_cons_of_pos (by simpa using ht), List.map_cons, List.foldlM_cons] at hs
      cases hread' : r'.readToken t with
      | error e => simp [step, hread', bind, Except.bind] at hs
      | ok r₁' =>
        obtain ⟨r₁, hread, halike⟩ := readToken_alike ht h hread'
        obtain ⟨-, hsound⟩ := readToken_sound hread hr
        obtain ⟨s, hrun, hs⟩ := ih hsound halike (by simpa [step, hread', bind, Except.bind] using hs)
        refine ⟨s, ?_, hs⟩
        simp [step, hread, bind, Except.bind, hrun]

/-- Tokens with trivia between them are read as a document of the same shape. -/
theorem readAll_of_filter {ts : List Token} {t : Tree}
    (h : readAll ((ts.filter (!·.isTrivia)).map .token) = .ok t) :
    ∃ t', readAll (ts.map .token) = .ok t' ∧ t'.shape = t.shape := by
  rw [readAll] at h
  cases hrun' : ((ts.filter (!·.isTrivia)).map Lexeme.token).foldlM step {} with
  | error e => simp [hrun', bind, Except.bind] at h
  | ok s' =>
    obtain ⟨s, hrun, halike⟩ := foldlM_of_filter (r := {}) ⟨List.forall_mem_nil _, List.forall_mem_nil _⟩
      ⟨rfl, rfl⟩ hrun'
    have hfinish : s'.finish = .ok t := by simpa [hrun', bind, Except.bind] using h
    obtain ⟨pos, done, pending⟩ := s
    obtain ⟨pos', done', pending'⟩ := s'
    cases pending' with
    | cons p outer => cases p <;> simp [finish] at hfinish
    | nil =>
      obtain rfl := Except.ok.inj hfinish
      obtain rfl : pending = [] := List.map_eq_nil_iff.mp halike.2
      refine ⟨Tree.root done.reverse, by simp [readAll, hrun, bind, Except.bind, finish], ?_⟩
      rw [Tree.root, Tree.root, Node.shape, Node.shape, Node.shapeAll_reverse, Node.shapeAll_reverse, halike.1]

end Reader

end SexprEdit
