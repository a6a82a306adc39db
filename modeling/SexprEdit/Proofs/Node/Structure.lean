import SexprEdit.Proofs.Node.Edited

/-!
# Trees with well built composites

A tree is built if no document stands inside a composite and every mark wraps as many forms as it has to, the last of
them at its end. This says nothing about atoms, so it holds of documents with any binding forms. Edits keep it
(`Edited.built`). It is what comments depend on: `Node.text` looks only at the next sibling of a comment and at the
delimiter of the composite around, yet in a document that is built every comment is ended (`Occurs.ended`).
-/

namespace SexprEdit

namespace Node

variable {ι κ : Type}

/-- Whether a node, if it is a composite, is built as its kind demands. -/
def wellComposed : Node ι → Bool
  | composite label kind children => wellBuilt (composite label kind children)
  | _ => true

/-- All composites of the tree are built as their kinds demand. -/
def Built (n : Node ι) : Prop :=
  n.every wellComposed = true

theorem built_composite_iff {label : ι} {kind : Kind} {children : List (Node ι)} :
    (composite label kind children).Built ↔
      (∀ n ∈ children, n.Built ∧ n.isRoot = false) ∧
        ∀ m, kind = .mark m → formCount children = m.arity ∧ children.getLast?.any isForm = true := by
  rw [Built, every_iff]
  cases kind with
  | mark m => simp [wellComposed, wellBuilt, Built, Node.children, forall_and, and_comm, and_assoc]
  | _ => simp [wellComposed, wellBuilt, Built, Node.children, forall_and, and_comm]

theorem built_variadic_iff {kind : Kind} (hvariadic : ∀ m, kind ≠ .mark m) {label : ι} {children : List (Node ι)} :
    (composite label kind children).Built ↔ ∀ n ∈ children, n.Built ∧ n.isRoot = false := by
  rw [built_composite_iff]
  exact and_iff_left fun m hm => absurd hm (hvariadic m)

theorem Grammatical.built {n : Node ι} (h : n.Grammatical) : n.Built := by
  induction n using child_induction with
  | node n ih =>
    cases n with
    | composite label kind children =>
      obtain ⟨hchildren, hmark⟩ := grammatical_composite_iff.mp h
      exact built_composite_iff.mpr ⟨fun m hm => ⟨ih m hm (hchildren m hm).1, (hchildren m hm).2⟩, hmark⟩
    | _ => rfl

@[simp] theorem built_map (f : ι → κ) (n : Node ι) : (n.map f).Built ↔ n.Built := by
  induction n using child_induction with
  | node n ih =>
    cases n with
    | composite label kind children =>
      have hlast : (children.map (map f)).getLast?.any isForm = children.getLast?.any isForm := by
        rw [List.getLast?_map]
        cases children.getLast? <;> simp
      rw [map_composite, built_composite_iff, built_composite_iff, List.forall_mem_map, formCount_map, hlast]
      simp only [isRoot_map]
      exact and_congr_left fun _ => forall₂_congr fun m hm => and_congr_left fun _ => ih m hm
    | _ => exact Iff.rfl

/-! ## Edits -/

theorem built_of_isWhitespace {n : Node ι} (h : n.isWhitespace = true) : n.Built ∧ n.isRoot = false := by
  cases n with
  | trivia label t => exact ⟨rfl, rfl⟩
  | _ => simp [isWhitespace] at h

theorem Edited.built {pad : List Tree → Prop} {R : Tree → Tree → Prop} {path : List Nat} {t t' : Tree}
    (hpad : ∀ ns, pad ns → Padding ns) (hR : ∀ n m, R n m → n.Built → m.Built ∧ m.isRoot = n.isRoot)
    (h : Edited pad R path t t') (ht : t.Built) : t'.Built ∧ t'.isRoot = t.isRoot := by
  induction h with
  | here h => exact hR _ _ h ht
  | @inside kind front back left right n m path _ hn hm hleft hright hend ih =>
    have hleft := hpad left hleft
    have hright := hpad right hright
    obtain ⟨hchildren, hmark⟩ := built_composite_iff.mp ht
    obtain ⟨hfront, hrest⟩ := List.forall_mem_append.mp hchildren
    obtain ⟨⟨hnBuilt, hnRoot⟩, hback⟩ := List.forall_mem_cons.mp hrest
    obtain ⟨hmBuilt, hmRoot⟩ := ih hnBuilt
    refine ⟨built_composite_iff.mpr ⟨?_, fun k hk => ?_⟩, by cases kind <;> rfl⟩
    · refine List.forall_mem_append.mpr ⟨List.forall_mem_append.mpr ⟨hfront, ?_⟩, List.forall_mem_cons.mpr ⟨?_, ?_⟩⟩
      · exact fun b hb => built_of_isWhitespace (hleft.blank b hb)
      · exact ⟨hmBuilt, hmRoot.trans hnRoot⟩
      · exact List.forall_mem_append.mpr ⟨fun b hb => built_of_isWhitespace (hright.blank b hb), hback⟩
    · obtain ⟨hcount, hlast⟩ := hmark k hk
      constructor
      · have hleftCount := formCount_eq_zero fun b hb => isForm_of_isWhitespace (hleft.blank b hb)
        have hrightCount := formCount_eq_zero fun b hb => isForm_of_isWhitespace (hright.blank b hb)
        rw [← hcount]
        simp only [formCount_append, formCount_cons_eq, hleftCount, hrightCount, hn, hm]
        omega
      · -- a mark has no closing delimiter, so a blank after the child is not at its end
        have hnil : back = [] → right = [] := by
          intro hback
          by_contra hne
          rcases hend hne with h | h
          · exact h hback
          · exact h (by rw [hk]; rfl)
        rcases List.eq_nil_or_concat' back with rfl | ⟨init, last, rfl⟩
        · rw [hnil rfl, List.append_nil, List.getLast?_concat]
          simpa using hm
        · have hold : front ++ n :: (init ++ [last]) = (front ++ n :: init) ++ [last] := by simp
          have hnew : front ++ left ++ m :: (right ++ (init ++ [last])) =
              (front ++ left ++ m :: (right ++ init)) ++ [last] := by simp
          rw [hold, List.getLast?_concat] at hlast
          rwa [hnew, List.getLast?_concat]

variable {t t' n : Tree} {k : Nat}

theorem Inserts.built (h : Inserts k n t t') (hn : n.Built) (hroot : n.isRoot = false) (ht : t.Built) :
    t'.Built ∧ t'.isRoot = t.isRoot := by
  obtain ⟨kind, front, left, right, back, hvariadic, -, hleft, hright, rfl, rfl⟩ := h
  obtain ⟨hfront, hback⟩ := List.forall_mem_append.mp ((built_variadic_iff hvariadic).mp ht)
  refine ⟨(built_variadic_iff hvariadic).mpr ?_, by cases kind <;> rfl⟩
  refine List.forall_mem_append.mpr ⟨List.forall_mem_append.mpr ⟨hfront, ?_⟩, List.forall_mem_cons.mpr ⟨⟨hn, hroot⟩, ?_⟩⟩
  · exact fun b hb => built_of_isWhitespace (hleft.blank b hb)
  · exact List.forall_mem_append.mpr ⟨fun b hb => built_of_isWhitespace (hright.blank b hb), hback⟩

theorem Removes.built (h : Removes k n t t') (ht : t.Built) : t'.Built ∧ t'.isRoot = t.isRoot := by
  obtain ⟨kind, front, left, right, back, gap, hvariadic, -, -, hgap, rfl, rfl⟩ := h
  have hchildren := (built_variadic_iff hvariadic).mp ht
  refine ⟨(built_variadic_iff hvariadic).mpr ?_, by cases kind <;> rfl⟩
  refine List.forall_mem_append.mpr ⟨List.forall_mem_append.mpr ⟨?_, ?_⟩, ?_⟩
  · exact fun m hm => hchildren m (by simp [hm])
  · exact fun b hb => built_of_isWhitespace (hgap.blank b hb)
  · exact fun m hm => hchildren m (by simp [hm])

/-! ## Comments in the source -/

/-- The text that ends a node before its next sibling: comments that would run on are ended by a line feed. -/
def ending (closed : Bool) (n : Node ι) (back : List (Node ι)) : Text :=
  if n.isComment && endsBefore back.head? closed then ['\n'] else []

theorem startsWithNewline_of_isForm {n : Node ι} (h : n.isForm = true) : n.startsWithNewline = false := by
  cases n with
  | trivia label t => simp [isForm] at h
  | _ => rfl

theorem ending_of_isForm {n : Node ι} (h : n.isForm = true) (closed : Bool) (back : List (Node ι)) :
    ending closed n back = [] := by
  rw [ending, isComment_of_isForm h]
  rfl

/-- A node stands in a tree, with the given texts before and after it in the source of the tree. -/
inductive Occurs (m : Node ι) : Node ι → Text → Text → Prop where
  | here : Occurs m m [] []
  | inside {label : ι} {kind : Kind} {front back : List (Node ι)} {n : Node ι} {before after : Text}
      (h : Occurs m n before after) :
      Occurs m (composite label kind (front ++ n :: back))
        (kind.opener ++ childrenText (!n.startsWithNewline) front ++ before)
        (after ++ ending (!kind.closer.isEmpty) n back ++ childrenText (!kind.closer.isEmpty) back ++ kind.closer)

theorem childrenText_append (closed : Bool) (front back : List (Node ι)) (n : Node ι) :
    childrenText closed (front ++ n :: back) =
      childrenText (!n.startsWithNewline) front ++ (n.text ++ ending closed n back ++ childrenText closed back) := by
  induction front with
  | nil => rfl
  | cons k front ih =>
    have hends : endsBefore (front ++ n :: back).head? closed = endsBefore front.head? (!n.startsWithNewline) := by
      cases front <;> rfl
    rw [List.cons_append, childrenText, childrenText, hends, ih]
    simp only [List.append_assoc]

theorem Occurs.text {m n : Node ι} {before after : Text} (h : Occurs m n before after) :
    n.text = before ++ m.text ++ after := by
  induction h with
  | here => simp
  | inside _ ih =>
    rw [Node.text, childrenText_append, ih]
    simp only [List.append_assoc]

theorem startsWithNewline_ending (closed : Bool) {n : Node ι} (hn : n.isComment = true) (back : List (Node ι))
    (h : back ≠ [] ∨ closed = true) (rest : Text) :
    Text.startsWithNewline (ending closed n back ++ childrenText closed back ++ rest) = true := by
  cases back with
  | nil =>
    have hclosed : closed = true := h.resolve_left (by simp)
    simp [ending, hn, endsBefore, hclosed, Text.startsWithNewline]
  | cons b back =>
    by_cases hb : b.startsWithNewline = true
    · cases b with
      | trivia label t =>
        have hstarts : Text.startsWithNewline t.text = true := hb
        have hending : ending closed n (trivia label t :: back) = [] := by simp [ending, endsBefore, hb]
        rw [hending, List.nil_append, childrenText, Node.text, List.append_assoc, List.append_assoc]
        exact startsWithNewline_append hstarts _
      | _ => simp [startsWithNewline] at hb
    · simp [ending, hn, endsBefore, hb, Text.startsWithNewline]

/-- A comment inside a composite other than a document is followed by a line break there. At the end of a document
nothing needs to follow. -/
theorem Occurs.ended {m n : Node ι} {before after : Text} (h : Occurs m n before after) (hm : m.isComment = true)
    (hn : n.Built) :
    Text.startsWithNewline after = true ∨ after = [] ∧ (n.isRoot = true ∨ n.isComment = true) := by
  induction h with
  | here => exact .inr ⟨rfl, .inr hm⟩
  | @inside label kind front back n before after _ ih =>
    obtain ⟨hchildren, hmark⟩ := built_composite_iff.mp hn
    obtain ⟨hnBuilt, hnRoot⟩ := hchildren n (by simp)
    rcases ih hnBuilt with hstarts | ⟨rfl, hroot | hcomment⟩
    · refine .inl ?_
      rw [List.append_assoc, List.append_assoc]
      exact startsWithNewline_append hstarts _
    · rw [hnRoot] at hroot
      cases hroot
    · rw [List.nil_append]
      by_cases hend : back ≠ [] ∨ (!kind.closer.isEmpty) = true
      · exact .inl (startsWithNewline_ending _ hcomment back hend _)
      · obtain ⟨hback, hcloser⟩ := not_or.mp hend
        obtain rfl : back = [] := not_not.mp hback
        -- a mark would end with a form
        cases kind with
        | root => exact .inr ⟨by simp [ending, endsBefore, childrenText, Kind.closer], .inl rfl⟩
        | bracket b => simp [Kind.closer, b.closer.text_ne_nil] at hcloser
        | mark k =>
          have hlast := (hmark k rfl).2
          rw [List.getLast?_concat, Option.any_some] at hlast
          rw [isComment_of_isForm hlast] at hcomment
          cases hcomment

end Node

end SexprEdit
