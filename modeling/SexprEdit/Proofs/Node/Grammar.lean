import SexprEdit.Node.Basic
import SexprEdit.Node.Siblings

/-!
# The grammar of source trees

`Node.tokens` flattens a tree to the tokens that it was built from. A tree is grammatical if every node in it is
built as its kind demands (`Node.wellBuilt`): there is no document inside a composite, a mark wraps the right number
of forms and ends with one of them, and an atom is what its token denotes.
-/

namespace SexprEdit

/-! ## Tokens of a tree -/

/-- The atom that a token denotes, if it denotes one. -/
def Token.atom? : Token → Option Atom
  | .string text => some ⟨.string, text⟩
  | .regex text => some ⟨.regex, text⟩
  | .character text => some ⟨.character, text⟩
  | .symbolic text => some ⟨.number (some .symbolic), text⟩
  | .bare text => (Atom.ofBare text).toOption
  | _ => none

def Atom.token (a : Atom) : Token :=
  match a.kind with
  | .string => .string a.text
  | .regex => .regex a.text
  | .character => .character a.text
  | .number (some .symbolic) => .symbolic a.text
  | _ => .bare a.text

def Trivia.token : Trivia → Token
  | .whitespace text => .whitespace text
  | .comment text => .comment text

namespace Kind

/-- The token that begins a composite; a document has none. -/
def opening : Kind → List Token
  | root => []
  | bracket b => [.opening b]
  | mark m => [.mark m]

/-- The token that ends a composite; only delimited forms have one. -/
def closing : Kind → List Token
  | bracket b => [.closing b.closer]
  | _ => []

end Kind

namespace Node

variable {ι κ : Type}

mutual

def tokens : Node ι → List Token
  | composite _ kind children => kind.opening ++ tokensAll children ++ kind.closing
  | atom _ a => [a.token]
  | trivia _ t => [t.token]

def tokensAll : List (Node ι) → List Token
  | [] => []
  | n :: ns => tokens n ++ tokensAll ns

end

@[simp] theorem tokensAll_nil : tokensAll ([] : List (Node ι)) = [] := rfl

@[simp] theorem tokensAll_cons (n : Node ι) (ns : List (Node ι)) : tokensAll (n :: ns) = n.tokens ++ tokensAll ns := rfl

@[simp] theorem tokensAll_append (ns ms : List (Node ι)) : tokensAll (ns ++ ms) = tokensAll ns ++ tokensAll ms := by
  induction ns with
  | nil => rfl
  | cons n ns ih => rw [List.cons_append, tokensAll_cons, tokensAll_cons, ih, List.append_assoc]

/-! ## Properties of all nodes -/

theorem sizeOf_lt_of_mem_children {n m : Node ι} (h : m ∈ n.children) : sizeOf m < sizeOf n := by
  cases n with
  | composite label kind children =>
    have := List.sizeOf_lt_of_mem (show m ∈ children from h)
    simp only [composite.sizeOf_spec]
    omega
  | atom label a => simp [children] at h
  | trivia label t => simp [children] at h

/-- Induction over a tree, from the children of a node to the node. -/
theorem child_induction {motive : Node ι → Prop} (node : ∀ n, (∀ m ∈ n.children, motive m) → motive n) (n : Node ι) :
    motive n :=
  node n fun m _h => child_induction node m
termination_by sizeOf n
decreasing_by exact sizeOf_lt_of_mem_children _h

mutual

/-- Whether a test holds of every node in a tree. -/
def every (p : Node ι → Bool) : Node ι → Bool
  | composite label kind children => p (composite label kind children) && everyAll p children
  | atom label a => p (atom label a)
  | trivia label t => p (trivia label t)

/-- Whether a test holds of every node in some trees. -/
def everyAll (p : Node ι → Bool) : List (Node ι) → Bool
  | [] => true
  | n :: ns => every p n && everyAll p ns

end

theorem everyAll_iff {p : Node ι → Bool} {ns : List (Node ι)} :
    everyAll p ns = true ↔ ∀ n ∈ ns, n.every p = true := by
  induction ns with
  | nil => simp [everyAll]
  | cons n ns ih => rw [everyAll, Bool.and_eq_true, ih, List.forall_mem_cons]

theorem every_iff {p : Node ι → Bool} {n : Node ι} :
    n.every p = true ↔ p n = true ∧ ∀ m ∈ n.children, m.every p = true := by
  cases n with
  | composite label kind children => rw [every, Bool.and_eq_true, everyAll_iff]; rfl
  | atom label a => simp [every, children]
  | trivia label t => simp [every, children]

/-! ## Grammatical trees -/

/-- Whether a node is built as its kind demands, its children taken as they are. -/
def wellBuilt : Node ι → Bool
  | composite _ kind children =>
    children.all (!·.isRoot) &&
      match kind with
      | .mark m => formCount children == m.arity && children.getLast?.any isForm
      | _ => true
  | atom _ a => a.token.atom? == some a
  | trivia _ _ => true

/-- All nodes of the tree are built as their kinds demand. -/
def Grammatical (n : Node ι) : Prop :=
  n.every wellBuilt = true

theorem grammatical_composite_iff {label : ι} {kind : Kind} {children : List (Node ι)} :
    (composite label kind children).Grammatical ↔
      (∀ n ∈ children, n.Grammatical ∧ n.isRoot = false) ∧
        ∀ m, kind = .mark m → formCount children = m.arity ∧ children.getLast?.any isForm = true := by
  rw [Grammatical, every_iff]
  cases kind with
  | mark m => simp [wellBuilt, Grammatical, Node.children, forall_and, and_comm, and_assoc]
  | _ => simp [wellBuilt, Grammatical, Node.children, forall_and, and_comm]

theorem grammatical_atom_iff {label : ι} {a : Atom} : (atom label a).Grammatical ↔ a.token.atom? = some a := by
  simp [Grammatical, every, wellBuilt]

@[simp] theorem grammatical_trivia (label : ι) (t : Trivia) : (trivia label t).Grammatical := rfl

end Node

end SexprEdit
