import SexprEdit.Proofs.Node.Labels

/-!
# Seams between siblings

Whether a composite is spaced is decided seam by seam: between its front and its first child, between each child and
the next, and at its end. So siblings can be put in, taken out and exchanged by looking at the new seams only. Where
no comment begins with a hash, trivia never make a bad seam, and the test for a gap (`Node.needsGap`) finds all seams
that need a blank.
-/

namespace SexprEdit

/-! ## Classes of tokens -/

/-- Whether a token is a comment that begins with a hash. -/
def Token.isHashComment : Token → Bool
  | .comment ('#' :: _) => true
  | _ => false

/-- A token of the lexical grammar that is no comment with a hash in front. -/
def Token.Tame (t : Token) : Prop :=
  t.Genuine ∧ t.isHashComment = false

/-- A class of tokens of the lexical grammar that leaves out no more than comments with a hash in front. -/
structure Token.Lawful (P : Token → Prop) : Prop where
  genuine : ∀ t, P t → t.Genuine
  of_tame : ∀ t, t.Tame → P t

theorem Token.lawful_genuine : Token.Lawful Token.Genuine :=
  ⟨fun _ h => h, fun _ h => h.1⟩

theorem Token.lawful_tame : Token.Lawful Token.Tame :=
  ⟨fun _ h => h.1, fun _ h => h⟩

theorem Token.Lawful.closing {P : Token → Prop} (hP : Token.Lawful P) (c : Closer) : P (.closing c) :=
  hP.of_tame _ ⟨trivial, rfl⟩

theorem Token.Tame.stop_front {t : Token} (ht : t.Tame) (htrivia : t.isTrivia = true) :
    ∃ c rest, t.text = c :: rest ∧ isStop c = true := by
  cases t with
  | whitespace text =>
    obtain ⟨hne, hall⟩ := ht.1
    obtain ⟨c, rest, rfl⟩ := List.exists_cons_of_ne_nil hne
    exact ⟨c, rest, rfl, isStop_of_isBlank (by simpa using List.all_eq_true.mp hall c (by simp))⟩
  | comment text =>
    obtain ⟨⟨body, rfl | rfl, -⟩, hhash⟩ := ht
    · exact ⟨';', body, rfl, by decide⟩
    · simp [Token.isHashComment] at hhash
  | _ => simp [Token.isTrivia] at htrivia

theorem fuses_stop {t u : Token} (ht : t.Genuine) (htrivia : t.isTrivia = false) (hu : u.Genuine) {c : Char}
    {rest : Text} (htext : u.text = c :: rest) (hc : isStop c = true) : fuses t.text u.text = false := by
  rw [fuses_eq ht hu, htext, ht.stopsBefore_stop htrivia hc rest, Bool.not_true]

namespace Node

variable {ι κ : Type} {P : Token → Prop} {kind : Kind}

/-- Nodes that can be the children of a composite. -/
def MadeAll (P : Token → Prop) (ns : List (Node ι)) : Prop :=
  ∀ n ∈ ns, n.Made P ∧ n.isRoot = false

@[simp] theorem madeAll_nil : MadeAll P ([] : List (Node ι)) := by
  simp [MadeAll]

theorem madeAll_cons {n : Node ι} {ns : List (Node ι)} :
    MadeAll P (n :: ns) ↔ (n.Made P ∧ n.isRoot = false) ∧ MadeAll P ns :=
  List.forall_mem_cons

theorem madeAll_append {ns ms : List (Node ι)} : MadeAll P (ns ++ ms) ↔ MadeAll P ns ∧ MadeAll P ms :=
  List.forall_mem_append

theorem madeAll_map {κ : Type} {f : ι → κ} {ns : List (Node ι)} :
    MadeAll P (ns.map (Node.map f)) ↔ MadeAll P ns := by
  simp only [MadeAll, List.forall_mem_map, made_map, isRoot_map]

theorem Made.mono {Q : Token → Prop} (hPQ : ∀ t, P t → Q t) {n : Node ι} (h : n.Made P) : n.Made Q :=
  ⟨h.grammatical, fun t ht => hPQ t (h.token t ht)⟩

/-! ## Seams -/

/-- The seams in front of some children that begin a composite. -/
def FrontSpaced (kind : Kind) (ns : List (Node ι)) : Prop :=
  (none :: ns.map some).IsChain fun left right => runsInto kind left right = false

/-- The seams behind some children that end a composite. -/
def BackSpaced (kind : Kind) (ns : List (Node ι)) : Prop :=
  (ns.map some ++ [none]).IsChain fun left right => runsInto kind left right = false

theorem getLast?_none_cons (ns : List (Node ι)) : (none :: ns.map some).getLast? = some ns.getLast? := by
  rw [List.getLast?_cons, List.getLast?_map]
  cases ns.getLast? <;> rfl

theorem head?_append_none (ns : List (Node ι)) : (ns.map some ++ [none]).head? = some ns.head? := by
  cases ns <;> rfl

@[simp] theorem frontSpaced_nil : FrontSpaced kind ([] : List (Node ι)) := by
  simp [FrontSpaced]

@[simp] theorem backSpaced_nil : BackSpaced kind ([] : List (Node ι)) := by
  simp [BackSpaced]

theorem frontSpaced_concat {ns : List (Node ι)} {n : Node ι} :
    FrontSpaced kind (ns ++ [n]) ↔ FrontSpaced kind ns ∧ runsInto kind ns.getLast? (some n) = false := by
  rw [FrontSpaced, List.map_append, ← List.cons_append, List.isChain_append, getLast?_none_cons]
  simp [FrontSpaced]

theorem backSpaced_cons {n : Node ι} {ns : List (Node ι)} :
    BackSpaced kind (n :: ns) ↔ runsInto kind (some n) ns.head? = false ∧ BackSpaced kind ns := by
  rw [BackSpaced, List.map_cons, List.cons_append, List.isChain_cons, head?_append_none]
  simp [BackSpaced]

theorem FrontSpaced.left {ns ms : List (Node ι)} (h : FrontSpaced kind (ns ++ ms)) : FrontSpaced kind ns := by
  rw [FrontSpaced, List.map_append, ← List.cons_append] at h
  exact h.left_of_append

theorem BackSpaced.right {ns ms : List (Node ι)} (h : BackSpaced kind (ns ++ ms)) : BackSpaced kind ms := by
  rw [BackSpaced, List.map_append, List.append_assoc] at h
  exact h.right_of_append

theorem frontSpaced_map (f : ι → κ) (ns : List (Node ι)) : FrontSpaced kind (ns.map (map f)) ↔ FrontSpaced kind ns := by
  have hlist : none :: (ns.map (map f)).map some = (none :: ns.map some).map (Option.map (map f)) := by simp
  rw [FrontSpaced, hlist, List.isChain_map]
  simp only [runsInto_map, FrontSpaced]

theorem backSpaced_map (f : ι → κ) (ns : List (Node ι)) : BackSpaced kind (ns.map (map f)) ↔ BackSpaced kind ns := by
  have hlist : (ns.map (map f)).map some ++ [none] = (ns.map some ++ [none]).map (Option.map (map f)) := by simp
  rw [BackSpaced, hlist, List.isChain_map]
  simp only [runsInto_map, BackSpaced]

theorem needsGap_map (f : ι → κ) (left right : Option (Node ι)) :
    needsGap kind (left.map (map f)) (right.map (map f)) = needsGap kind left right := by
  cases left <;> cases right <;> simp [needsGap]

/-- A composite is spaced if its children are, and the seams at a place among them, before it and behind it are. -/
theorem spaced_append_iff {label : ι} {ns ms : List (Node ι)} :
    (composite label kind (ns ++ ms)).Spaced ↔
      (∀ n ∈ ns ++ ms, n.Spaced) ∧ FrontSpaced kind ns ∧ runsInto kind ns.getLast? ms.head? = false ∧
        BackSpaced kind ms := by
  have hlist : none :: (ns ++ ms).map some ++ [none] = (none :: ns.map some) ++ (ms.map some ++ [none]) := by simp
  rw [Spaced, every_iff, wellSpaced, decide_eq_true_eq, hlist, List.isChain_append, getLast?_none_cons,
    head?_append_none]
  simp [FrontSpaced, BackSpaced, Spaced, children]
  tauto

theorem spaced_iff_backSpaced {label : ι} {ns : List (Node ι)} :
    (composite label kind ns).Spaced ↔
      (∀ n ∈ ns, n.Spaced) ∧ runsInto kind none ns.head? = false ∧ BackSpaced kind ns := by
  have h : (composite label kind ([] ++ ns)).Spaced ↔ _ := spaced_append_iff
  simpa [frontSpaced_nil] using h

/-! ## Good seams -/

theorem fuses_left_stop (hkind : ∀ t ∈ kind.opening, t.Genuine) {left : Option (Node ι)}
    (hleft : ∀ n ∈ left, n.Sound ∧ n.isRoot = false) (hform : left.all isForm = true) {u : Token} (hu : u.Genuine)
    {c : Char} {rest : Text} (htext : u.text = c :: rest) (hc : isStop c = true) :
    fuses ((left.map tailText).getD kind.opener) u.text = false := by
  cases left with
  | none =>
    cases kind with
    | root => rfl
    | bracket b => exact fuses_stop (hkind (.opening b) (by simp [Kind.opening])) rfl hu htext hc
    | mark m => exact fuses_stop (hkind (.mark m) (by simp [Kind.opening])) rfl hu htext hc
  | some n =>
    obtain ⟨hn, hroot⟩ := hleft n rfl
    have hform : n.isForm = true := hform
    obtain ⟨us, t, htokens, htail⟩ := exists_tail_token hn hform hroot
    have hmem : t ∈ n.shape.tokens := by rw [htokens]; simp
    rw [Option.map_some, Option.getD_some, ← htail]
    exact fuses_stop (hn.token t (mem_tokens_of_mem_shape hform hmem)) (isTrivia_of_mem_tokens_shape hform hmem) hu
      htext hc

theorem runsInto_of_trivia {n : Node ι} (hn : n.isForm = false) (right : Option (Node ι)) :
    runsInto kind (some n) right = false := by
  simp [runsInto, hn]

theorem runsInto_trivia (hkind : ∀ t ∈ kind.opening, t.Genuine) {left : Option (Node ι)}
    (hleft : ∀ n ∈ left, n.Sound ∧ n.isRoot = false) {n : Node ι} (hn : n.Made Token.Tame) (htrivia : n.isForm = false) :
    runsInto kind left (some n) = false := by
  cases n with
  | trivia label t =>
    have ht : t.token.Tame := hn.token t.token (by simp [tokens])
    obtain ⟨c, rest, htext, hc⟩ := ht.stop_front (by cases t <;> rfl)
    by_cases hform : left.all isForm = true
    · have hfuses := fuses_left_stop hkind hleft hform ht.1 htext hc
      rw [Trivia.text_token] at hfuses
      simpa [runsInto, headText, hform] using hfuses
    · simp [runsInto, hform]
  | _ => simp [isForm] at htrivia

theorem runsInto_none (hkind : ∀ t ∈ kind.opening, t.Genuine) {left : Option (Node ι)}
    (hleft : ∀ n ∈ left, n.Sound ∧ n.isRoot = false) : runsInto kind left none = false := by
  cases kind with
  | bracket b =>
    by_cases hform : left.all isForm = true
    · have hstop : ∃ c, (Token.closing b.closer).text = [c] ∧ isStop c = true := by
        cases b.closer
        · exact ⟨')', rfl, by decide⟩
        · exact ⟨']', rfl, by decide⟩
        · exact ⟨'\x7d', rfl, by decide⟩
      obtain ⟨c, htext, hc⟩ := hstop
      have hfuses := fuses_left_stop (u := .closing b.closer) hkind hleft hform trivial htext hc
      simpa [runsInto, Kind.closer, hform, Token.text] using hfuses
    · simp [runsInto, hform]
  | _ => simp [runsInto, Kind.closer, fuses_nil_right]

theorem runsInto_first (hvariadic : ∀ m, kind ≠ .mark m) (hkind : ∀ t ∈ kind.opening, t.Genuine) {n : Node ι}
    (hn : n.Sound ∧ n.isRoot = false) : runsInto kind none (some n) = false := by
  cases kind with
  | root => rfl
  | bracket b =>
    exact runsInto_bracket_none (hkind _ (by simp [Kind.opening])) [n] (by simpa using hn)
  | mark m => exact absurd rfl (hvariadic m)

theorem runsInto_of_needsGap (hkind : ∀ t ∈ kind.opening, t.Genuine) {left right : Option (Node ι)}
    (hleft : ∀ n ∈ left, n.Sound ∧ n.isRoot = false) (hright : ∀ n ∈ right, n.Made Token.Tame)
    (hgap : needsGap kind left right = false) : runsInto kind left right = false := by
  cases right with
  | none => exact runsInto_none hkind hleft
  | some n =>
    by_cases hform : n.isForm = true
    · simpa [needsGap, runsInto, hform] using hgap
    · exact runsInto_trivia hkind hleft (hright n rfl) (by simpa using hform)

/-! ## Gaps -/

theorem made_space (hP : Token.Lawful P) (label : ι) : (space label).Made P := by
  refine ⟨grammatical_trivia _ _, fun t ht => hP.of_tame t ?_⟩
  obtain rfl := List.mem_singleton.mp ht
  exact ⟨⟨by simp, by decide⟩, rfl⟩

theorem made_newline (hP : Token.Lawful P) (label : ι) (indent : Nat) : (newline label indent).Made P := by
  refine ⟨grammatical_trivia _ _, fun t ht => hP.of_tame t ?_⟩
  obtain rfl := List.mem_singleton.mp ht
  refine ⟨⟨by simp, List.all_eq_true.mpr fun c hc => ?_⟩, rfl⟩
  rcases List.mem_cons.mp hc with rfl | hc
  · decide
  · rw [List.eq_of_mem_replicate hc]
    decide

theorem madeAll_blankIf (hP : Token.Lawful P) (needed : Bool) (label : ι) : MadeAll P (blankIf needed label) := by
  cases needed with
  | false => exact madeAll_nil
  | true => exact madeAll_cons.mpr ⟨⟨made_space hP label, rfl⟩, madeAll_nil⟩

theorem spaced_blankIf (needed : Bool) (label : ι) : ∀ n ∈ blankIf needed label, n.Spaced := by
  cases needed with
  | false => simp [blankIf]
  | true => simp [blankIf, spaced_of_not_isForm, space, isForm]

theorem isForm_blankIf (needed : Bool) (label : ι) : ∀ n ∈ blankIf needed label, n.isForm = false := by
  cases needed with
  | false => simp [blankIf]
  | true => simp [blankIf, space, isForm]

theorem sound_of_madeAll {ns : List (Node ι)} (h : MadeAll Token.Tame ns) (n : Node ι) (hn : n ∈ ns) :
    n.Sound ∧ n.isRoot = false :=
  ⟨(h n hn).1.mono fun _ ht => ht.1, (h n hn).2⟩

theorem FrontSpaced.gap (hkind : ∀ t ∈ kind.opening, t.Genuine) {ns : List (Node ι)} (hns : MadeAll Token.Tame ns)
    (h : FrontSpaced kind ns) {right : Option (Node ι)} (hright : ∀ n ∈ right, n.Made Token.Tame) (label : ι) :
    FrontSpaced kind (ns ++ blankIf (needsGap kind ns.getLast? right) label) ∧
      runsInto kind (ns ++ blankIf (needsGap kind ns.getLast? right) label).getLast? right = false := by
  have hlast : ∀ n ∈ ns.getLast?, n.Sound ∧ n.isRoot = false := fun n hn =>
    sound_of_madeAll hns n (List.mem_of_getLast? hn)
  cases hgap : needsGap kind ns.getLast? right with
  | false =>
    rw [blankIf, if_neg (by simp), List.append_nil]
    exact ⟨h, runsInto_of_needsGap hkind hlast hright hgap⟩
  | true =>
    rw [blankIf, if_pos rfl, List.getLast?_concat]
    refine ⟨frontSpaced_concat.mpr ⟨h, ?_⟩, runsInto_of_trivia rfl right⟩
    exact runsInto_trivia hkind hlast (made_space Token.lawful_tame label) rfl

theorem BackSpaced.gap (hkind : ∀ t ∈ kind.opening, t.Genuine) {ns : List (Node ι)} (hns : MadeAll Token.Tame ns)
    (h : BackSpaced kind ns) {left : Option (Node ι)} (hleft : ∀ n ∈ left, n.Sound ∧ n.isRoot = false) (label : ι) :
    runsInto kind left (blankIf (needsGap kind left ns.head?) label ++ ns).head? = false ∧
      BackSpaced kind (blankIf (needsGap kind left ns.head?) label ++ ns) := by
  cases hgap : needsGap kind left ns.head? with
  | false =>
    rw [blankIf, if_neg (by simp), List.nil_append]
    refine ⟨runsInto_of_needsGap hkind hleft (fun n hn => ?_) hgap, h⟩
    exact (hns n (List.mem_of_head? hn)).1
  | true =>
    rw [blankIf, if_pos rfl, List.singleton_append]
    refine ⟨runsInto_trivia hkind hleft (made_space Token.lawful_tame label) rfl, ?_⟩
    exact backSpaced_cons.mpr ⟨runsInto_of_trivia rfl _, h⟩

/-! ## Children in exchange for others -/

theorem made_variadic_iff (hP : Token.Lawful P) (hvariadic : ∀ m, kind ≠ .mark m) {label : ι} {ns : List (Node ι)} :
    (composite label kind ns).Made P ↔ MadeAll P ns ∧ ∀ t ∈ kind.opening, P t := by
  rw [made_composite_iff hP.closing]
  constructor
  · rintro ⟨hns, hkind, -⟩
    exact ⟨hns, hkind⟩
  · rintro ⟨hns, hkind⟩
    exact ⟨hns, hkind, fun m hm => absurd hm (hvariadic m)⟩

theorem Made.children (hP : Token.Lawful P) {label : ι} {ns : List (Node ι)} (h : (composite label kind ns).Made P) :
    MadeAll P ns :=
  ((made_composite_iff hP.closing).mp h).1

theorem Made.opening (hP : Token.Lawful P) {label : ι} {ns : List (Node ι)} (h : (composite label kind ns).Made P) :
    ∀ t ∈ kind.opening, t.Genuine := fun t ht =>
  hP.genuine t (((made_composite_iff hP.closing).mp h).2.1 t ht)

theorem formCount_append (ns ms : List (Node ι)) : formCount (ns ++ ms) = formCount ns + formCount ms :=
  List.countP_append

theorem formCount_cons_eq (n : Node ι) (ns : List (Node ι)) :
    formCount (n :: ns) = (if n.isForm then 1 else 0) + formCount ns := by
  rw [formCount, List.countP_cons, formCount, Nat.add_comm]

theorem formCount_eq_zero {ns : List (Node ι)} (h : ∀ n ∈ ns, n.isForm = false) : formCount ns = 0 := by
  rw [formCount, List.countP_eq_zero]
  intro n hn
  rw [h n hn]
  simp

/-- A child may be exchanged for another, with trivia around it. A mark must still end with a form. -/
theorem Made.exchange (hP : Token.Lawful P) {label : ι} (label' : ι) {before after front back : List (Node ι)}
    {n m : Node ι} (h : (composite label kind (before ++ n :: after)).Made P) (hm : m.Made P ∧ m.isRoot = false)
    (hform : m.isForm = n.isForm) (hfront : MadeAll P front) (hback : MadeAll P back)
    (hfrontTrivia : ∀ k ∈ front, k.isForm = false) (hbackTrivia : ∀ k ∈ back, k.isForm = false)
    (hlast : ∀ k, kind = .mark k → after = [] → back = []) :
    (composite label' kind (before ++ front ++ m :: (back ++ after))).Made P := by
  obtain ⟨hchildren, hkind, harity⟩ := (made_composite_iff hP.closing).mp h
  obtain ⟨hbefore, hrest⟩ := madeAll_append.mp hchildren
  obtain ⟨-, hafter⟩ := madeAll_cons.mp hrest
  refine (made_composite_iff hP.closing).mpr ⟨?_, hkind, fun k hk => ?_⟩
  · exact madeAll_append.mpr
      ⟨madeAll_append.mpr ⟨hbefore, hfront⟩, madeAll_cons.mpr ⟨hm, madeAll_append.mpr ⟨hback, hafter⟩⟩⟩
  · obtain ⟨hcount, hend⟩ := harity k hk
    constructor
    · rw [← hcount]
      simp only [formCount_append, formCount_cons_eq, formCount_eq_zero hfrontTrivia, formCount_eq_zero hbackTrivia, hform]
      omega
    · cases hafterCases : after with
      | nil =>
        rw [hafterCases] at hend
        rw [hlast k hk hafterCases, List.append_nil, List.getLast?_concat]
        rw [List.getLast?_concat] at hend
        simpa [hform] using hend
      | cons a as =>
        rw [hafterCases] at hend
        rw [List.getLast?_append, List.getLast?_cons_cons] at hend
        simpa [List.getLast?_append, List.getLast?_cons, Option.or_assoc] using hend

end Node

end SexprEdit
