import SexprEdit.Proofs.Node.Seams

/-!
# Trees before and after an edit

`Edited` relates a tree to what an edit makes of it. The two differ at the end of a path; on the way there every
composite keeps its children, trivia included, in their order, and may gain blanks beside the child that the path goes
through. Such a change is a change of the shape at the same path (`Edited.shape`), and it leaves the comments beside the
path where they are (`Edited.comments`).
-/

namespace SexprEdit

namespace Node

variable {ι : Type}

/-! ## Trees without trivia -/

def subtree? : List Nat → Node ι → Option (Node ι)
  | [], n => some n
  | k :: path, n => n.children[k]?.bind (subtree? path)

/-- The tree with a change of the node that a path leads to. -/
def modifyAt (f : Node ι → Node ι) : List Nat → Node ι → Node ι
  | [], n => f n
  | k :: path, composite label kind children => composite label kind (children.modify k (modifyAt f path))
  | _ :: _, n => n

/-- The node with a change of its list of children. -/
def mapChildren (f : List (Node ι) → List (Node ι)) : Node ι → Node ι
  | composite label kind children => composite label kind (f children)
  | n => n

/-- The tree with one more child, at place `k`, for the node that a path leads to. -/
def insertAt (n : Node ι) (path : List Nat) (k : Nat) (child : Node ι) : Node ι :=
  n.modifyAt (mapChildren (·.insertIdx k child)) path

/-- The tree without the child at place `k` of the node that a path leads to. -/
def eraseAt (n : Node ι) (path : List Nat) (k : Nat) : Node ι :=
  n.modifyAt (mapChildren (·.eraseIdx k)) path

theorem modify_length {α : Type} (front back : List α) (a : α) (f : α → α) :
    (front ++ a :: back).modify front.length f = front ++ f a :: back := by
  induction front with
  | nil => rfl
  | cons b front ih => simpa using ih

theorem insertIdx_length {α : Type} (front back : List α) (a : α) :
    (front ++ back).insertIdx front.length a = front ++ a :: back := by
  induction front with
  | nil => rfl
  | cons b front ih => simpa using ih

theorem eraseIdx_length {α : Type} (front back : List α) (a : α) :
    (front ++ a :: back).eraseIdx front.length = front ++ back := by
  rw [List.eraseIdx_append_of_length_le (Nat.le_refl _), Nat.sub_self, List.eraseIdx_cons_zero]

/-! ## Comments -/

mutual

def comments : Node ι → List Text
  | composite _ _ children => commentsAll children
  | trivia _ (.comment text) => [text]
  | _ => []

def commentsAll : List (Node ι) → List Text
  | [] => []
  | n :: ns => comments n ++ commentsAll ns

end

@[simp] theorem commentsAll_append (ns ms : List (Node ι)) : commentsAll (ns ++ ms) = commentsAll ns ++ commentsAll ms := by
  induction ns with
  | nil => rfl
  | cons n ns ih => rw [List.cons_append, commentsAll, commentsAll, ih, List.append_assoc]

@[simp] theorem commentsAll_cons (n : Node ι) (ns : List (Node ι)) : commentsAll (n :: ns) = n.comments ++ commentsAll ns :=
  rfl

/-! ## Blanks beside a node -/

/-- At most one node, and that one blank. -/
structure Padding (ns : List Tree) : Prop where
  short : ns.length ≤ 1
  blank : ∀ n ∈ ns, n.isWhitespace = true

theorem isForm_of_isWhitespace {n : Node ι} (h : n.isWhitespace = true) : n.isForm = false := by
  cases n with
  | trivia label t => rfl
  | _ => simp [isWhitespace] at h

theorem commentsAll_eq_nil {ns : List (Node ι)} (h : ∀ n ∈ ns, n.isWhitespace = true) : commentsAll ns = [] := by
  induction ns with
  | nil => rfl
  | cons n ns ih =>
    obtain ⟨hn, hns⟩ := List.forall_mem_cons.mp h
    rw [commentsAll_cons, ih hns, List.append_nil]
    cases n with
    | trivia label t =>
      cases t with
      | whitespace text => rfl
      | comment text => simp [isWhitespace] at hn
    | _ => simp [isWhitespace] at hn

theorem shapeAll_eq_nil {ns : List (Node ι)} (h : ∀ n ∈ ns, n.isWhitespace = true) : shapeAll ns = [] := by
  rw [shapeAll_eq, List.filter_eq_nil_iff.mpr, List.map_nil]
  intro n hn
  rw [isForm_of_isWhitespace (h n hn)]
  exact Bool.false_ne_true

/-! ## Edits -/

/-- The second tree comes from the first by a change `R` of the node that a path of form numbers leads to. The composites
on the way keep their children, with padding on both sides of the child that the path goes through. Nothing is put at
the end of a composite that has no closing delimiter. -/
inductive Edited (pad : List Tree → Prop) (R : Tree → Tree → Prop) : List Nat → Tree → Tree → Prop where
  | here {t t' : Tree} (h : R t t') : Edited pad R [] t t'
  | inside (kind : Kind) (front back : List Tree) {left right : List Tree} {n m : Tree} {path : List Nat}
      (h : Edited pad R path n m) (hn : n.isForm = true) (hm : m.isForm = true) (hleft : pad left) (hright : pad right)
      (hend : right ≠ [] → back ≠ [] ∨ kind.closer ≠ []) :
      Edited pad R (formCount front :: path) (.composite () kind (front ++ n :: back))
        (.composite () kind (front ++ left ++ m :: (right ++ back)))

variable {pad : List Tree → Prop} {R : Tree → Tree → Prop} {path : List Nat} {t t' : Tree}

theorem Edited.shape (hpad : ∀ ns, pad ns → Padding ns) {f : Tree → Tree} (hR : ∀ n m, R n m → m.shape = f n.shape)
    (h : Edited pad R path t t') : t'.shape = t.shape.modifyAt f path := by
  induction h with
  | here h => exact hR _ _ h
  | @inside kind front back left right n m path _ hn hm hleft hright _ ih =>
    have hl := shapeAll_eq_nil (hpad left hleft).blank
    have hr := shapeAll_eq_nil (hpad right hright).blank
    rw [Node.shape, Node.shape, modifyAt, ← length_shapeAll]
    simp only [shapeAll_append, shapeAll_cons, hn, hm, if_true, hl, hr, List.append_nil, List.nil_append]
    rw [modify_length, ih]

theorem Edited.comments (hpad : ∀ ns, pad ns → Padding ns) {old new : List Text}
    (hR : ∀ n m, R n m → ∃ before after, n.comments = before ++ old ++ after ∧ m.comments = before ++ new ++ after)
    (h : Edited pad R path t t') :
    ∃ before after, t.comments = before ++ old ++ after ∧ t'.comments = before ++ new ++ after := by
  induction h with
  | here h => exact hR _ _ h
  | @inside kind front back left right n m path _ _ _ hleft hright _ ih =>
    obtain ⟨before, after, hn, hm⟩ := ih
    have hl := commentsAll_eq_nil (hpad left hleft).blank
    have hr := commentsAll_eq_nil (hpad right hright).blank
    refine ⟨commentsAll front ++ before, after ++ commentsAll back, ?_, ?_⟩
    · simp only [Node.comments, commentsAll_append, commentsAll_cons, hn, List.append_assoc]
    · simp only [Node.comments, commentsAll_append, commentsAll_cons, hm, hl, hr, List.append_assoc, List.nil_append]

/-- The second composite comes from the first by putting in a node as the form with number `k`, with padding on both
sides. Marks take in no forms. -/
def Inserts (k : Nat) (n t t' : Tree) : Prop :=
  ∃ kind front left right back, (∀ m, kind ≠ .mark m) ∧ formCount front = k ∧ Padding left ∧ Padding right ∧
    t = .composite () kind (front ++ back) ∧ t' = .composite () kind (front ++ left ++ n :: (right ++ back))

/-- The second composite comes from the first by taking out the form with number `k`, which is the given node, with
blanks right before and after it; padding may be put in its place. Marks lose no forms. -/
def Removes (k : Nat) (n t t' : Tree) : Prop :=
  ∃ kind front left right back gap, (∀ m, kind ≠ .mark m) ∧ formCount front = k ∧
    (∀ b ∈ left ++ right, b.isWhitespace = true) ∧ Padding gap ∧
      t = .composite () kind (front ++ left ++ n :: (right ++ back)) ∧ t' = .composite () kind (front ++ gap ++ back)

theorem Inserts.shape {k : Nat} {n : Tree} (hn : n.isForm = true) (h : Inserts k n t t') :
    t'.shape = t.shape.mapChildren (·.insertIdx k n.shape) := by
  obtain ⟨kind, front, left, right, back, -, rfl, hleft, hright, rfl, rfl⟩ := h
  have hl := shapeAll_eq_nil hleft.blank
  have hr := shapeAll_eq_nil hright.blank
  rw [Node.shape, Node.shape, mapChildren, ← length_shapeAll]
  simp only [shapeAll_append, shapeAll_cons, hn, if_true, hl, hr, List.append_nil, List.nil_append]
  rw [insertIdx_length]

theorem Inserts.comments {k : Nat} {n : Tree} (h : Inserts k n t t') :
    ∃ before after, t.comments = before ++ [] ++ after ∧ t'.comments = before ++ n.comments ++ after := by
  obtain ⟨kind, front, left, right, back, -, -, hleft, hright, rfl, rfl⟩ := h
  have hl := commentsAll_eq_nil hleft.blank
  have hr := commentsAll_eq_nil hright.blank
  refine ⟨commentsAll front, commentsAll back, ?_, ?_⟩
  · simp only [Node.comments, commentsAll_append, List.append_nil]
  · simp only [Node.comments, commentsAll_append, commentsAll_cons, hl, hr, List.nil_append, List.append_assoc]

theorem Removes.shape {k : Nat} {n : Tree} (hn : n.isForm = true) (h : Removes k n t t') :
    t'.shape = t.shape.mapChildren (·.eraseIdx k) := by
  obtain ⟨kind, front, left, right, back, gap, -, rfl, hblank, hgap, rfl, rfl⟩ := h
  obtain ⟨hleft, hright⟩ := List.forall_mem_append.mp hblank
  have hl := shapeAll_eq_nil hleft
  have hr := shapeAll_eq_nil hright
  have hg := shapeAll_eq_nil hgap.blank
  rw [Node.shape, Node.shape, mapChildren, ← length_shapeAll]
  simp only [shapeAll_append, shapeAll_cons, hn, if_true, hl, hr, hg, List.append_nil, List.nil_append]
  rw [eraseIdx_length]

theorem Removes.comments {k : Nat} {n : Tree} (h : Removes k n t t') :
    ∃ before after, t.comments = before ++ n.comments ++ after ∧ t'.comments = before ++ [] ++ after := by
  obtain ⟨kind, front, left, right, back, gap, -, -, hblank, hgap, rfl, rfl⟩ := h
  obtain ⟨hleft, hright⟩ := List.forall_mem_append.mp hblank
  have hl := commentsAll_eq_nil hleft
  have hr := commentsAll_eq_nil hright
  have hg := commentsAll_eq_nil hgap.blank
  refine ⟨commentsAll front, commentsAll back, ?_, ?_⟩
  · simp only [Node.comments, commentsAll_append, commentsAll_cons, hl, hr, List.nil_append, List.append_assoc]
  · simp only [Node.comments, commentsAll_append, hg, List.append_nil]

end Node

end SexprEdit
