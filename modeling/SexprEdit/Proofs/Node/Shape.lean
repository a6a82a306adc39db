import Mathlib.Data.List.Basic
import SexprEdit.Proofs.Node.Grammar

/-!
# The shape of a tree

The shape of a tree is the tree without its trivia and labels. Its tokens are the tokens of the tree that are no
trivia, and the shape of a grammatical tree is grammatical.
-/

namespace SexprEdit

namespace Node

variable {ι κ : Type}

mutual

/-- The tree without its trivia and labels. -/
def shape : Node ι → Tree
  | composite _ kind children => composite () kind (shapeAll children)
  | atom _ a => atom () a
  | trivia _ t => trivia () t

/-- The shapes of the forms among some nodes. -/
def shapeAll : List (Node ι) → List Tree
  | [] => []
  | n :: ns => if n.isForm then shape n :: shapeAll ns else shapeAll ns

end

@[simp] theorem shapeAll_nil : shapeAll ([] : List (Node ι)) = [] := rfl

theorem shapeAll_cons (n : Node ι) (ns : List (Node ι)) :
    shapeAll (n :: ns) = if n.isForm then n.shape :: shapeAll ns else shapeAll ns := rfl

theorem shapeAll_eq (ns : List (Node ι)) : shapeAll ns = (ns.filter isForm).map shape := by
  induction ns with
  | nil => rfl
  | cons n ns ih =>
    by_cases hn : n.isForm = true
    · rw [shapeAll_cons, if_pos hn, ih, List.filter_cons_of_pos hn, List.map_cons]
    · rw [shapeAll_cons, if_neg hn, ih, List.filter_cons_of_neg hn]

@[simp] theorem shapeAll_append (ns ms : List (Node ι)) : shapeAll (ns ++ ms) = shapeAll ns ++ shapeAll ms := by
  simp [shapeAll_eq]

theorem shapeAll_reverse (ns : List (Node ι)) : shapeAll ns.reverse = (shapeAll ns).reverse := by
  simp [shapeAll_eq, List.filter_reverse]

theorem length_shapeAll (ns : List (Node ι)) : (shapeAll ns).length = formCount ns := by
  simp [shapeAll_eq, formCount, List.countP_eq_length_filter]

@[simp] theorem isForm_shape (n : Node ι) : n.shape.isForm = n.isForm := by
  cases n <;> rfl

@[simp] theorem isRoot_shape (n : Node ι) : n.shape.isRoot = n.isRoot := by
  cases n with
  | composite label kind children => cases kind <;> rfl
  | _ => rfl

theorem isForm_of_mem_shapeAll {ns : List (Node ι)} {m : Tree} (h : m ∈ shapeAll ns) : m.isForm = true := by
  rw [shapeAll_eq] at h
  obtain ⟨n, hn, rfl⟩ := List.mem_map.mp h
  rw [isForm_shape]
  exact (List.mem_filter.mp hn).2

theorem formCount_shapeAll (ns : List (Node ι)) : formCount (shapeAll ns) = formCount ns := by
  rw [formCount, List.countP_eq_length.mpr fun m hm => isForm_of_mem_shapeAll hm, length_shapeAll]

theorem shape_shape (n : Node ι) : n.shape.shape = n.shape := by
  induction n using child_induction with
  | node n ih =>
    cases n with
    | composite label kind children =>
      have hall : shapeAll (shapeAll children) = shapeAll children := by
        have hfilter : (shapeAll children).filter isForm = shapeAll children :=
          List.filter_eq_self.mpr fun m hm => isForm_of_mem_shapeAll hm
        rw [shapeAll_eq (shapeAll children), hfilter]
        refine (List.map_congr_left fun m hm => ?_).trans (List.map_id _)
        rw [shapeAll_eq] at hm
        obtain ⟨c, hc, rfl⟩ := List.mem_map.mp hm
        exact ih c (List.mem_filter.mp hc).1
      rw [shape, shape, hall]
    | _ => rfl

/-! ## Tokens -/

theorem isTrivia_token_atom (a : Atom) : a.token.isTrivia = false := by
  rw [Atom.token]
  split <;> rfl

/-- The tokens of a shape are those of the tree that are no trivia. -/
theorem filter_tokens {n : Node ι} (hn : n.isForm = true) : n.tokens.filter (!·.isTrivia) = n.shape.tokens := by
  induction n using child_induction with
  | node n ih =>
    cases n with
    | atom label a => simp [tokens, shape, isTrivia_token_atom]
    | trivia label t => simp [isForm] at hn
    | composite label kind children =>
      have hchildren : ∀ ns : List (Node ι), (∀ m ∈ ns, m ∈ children) →
          (tokensAll ns).filter (!·.isTrivia) = tokensAll (shapeAll ns) := by
        intro ns hns
        induction ns with
        | nil => rfl
        | cons m ms ihs =>
          obtain ⟨hm, hms⟩ := List.forall_mem_cons.mp hns
          rw [tokensAll_cons, List.filter_append, ihs hms, shapeAll_cons]
          by_cases hform : m.isForm = true
          · rw [if_pos hform, tokensAll_cons, ih m hm hform]
          · rw [if_neg hform]
            cases m with
            | trivia label t => cases t <;> rfl
            | _ => simp [isForm] at hform
      rw [tokens, List.filter_append, List.filter_append, hchildren children fun m hm => hm, shape, tokens]
      cases kind <;> rfl

theorem isTrivia_of_mem_tokens_shape {n : Node ι} (hn : n.isForm = true) {t : Token} (h : t ∈ n.shape.tokens) :
    t.isTrivia = false := by
  rw [← filter_tokens hn] at h
  simpa using (List.mem_filter.mp h).2

theorem mem_tokens_of_mem_shape {n : Node ι} (hn : n.isForm = true) {t : Token} (h : t ∈ n.shape.tokens) :
    t ∈ n.tokens := by
  rw [← filter_tokens hn] at h
  exact (List.mem_filter.mp h).1

theorem Grammatical.shape {n : Node ι} (hn : n.Grammatical) : n.shape.Grammatical := by
  induction n using child_induction with
  | node n ih =>
    cases n with
    | atom label a => exact grammatical_atom_iff.mpr (grammatical_atom_iff.mp hn)
    | trivia label t => exact grammatical_trivia () t
    | composite label kind children =>
      obtain ⟨hchildren, harity⟩ := grammatical_composite_iff.mp hn
      refine grammatical_composite_iff.mpr ⟨fun m hm => ?_, fun m hm => ?_⟩
      · rw [shapeAll_eq] at hm
        obtain ⟨c, hc, rfl⟩ := List.mem_map.mp hm
        have hmem : c ∈ children := (List.mem_filter.mp hc).1
        exact ⟨ih c hmem (hchildren c hmem).1, by rw [isRoot_shape]; exact (hchildren c hmem).2⟩
      · obtain ⟨hcount, hlast⟩ := harity m hm
        refine ⟨by rw [formCount_shapeAll, hcount], ?_⟩
        -- the last child is a form, so something is left, and all that is left are forms
        rcases List.eq_nil_or_concat' children with rfl | ⟨init, last, rfl⟩
        · simp at hlast
        · have hform : last.isForm = true := by simpa using hlast
          simp [shapeAll_cons, hform]

end Node

end SexprEdit
