import SexprEdit.Atom.Basic

/-!
# Source trees

A node is a composite with its children, an atom, or trivia (whitespace or a comment). Every character of a
source stands in some node, so `Node.text` gives the source back. Nodes carry a label: plain trees have none,
and the nodes under a cursor carry the stamps that tell one node from another with the same content.
-/

namespace SexprEdit

/-- What a composite is: the document, a form between delimiters, or a mark with the forms that it wraps. -/
inductive Kind where
  | root
  | bracket (bracket : Bracket)
  | mark (mark : Mark)
deriving DecidableEq, Repr

/-- Text without meaning: blanks, or a comment. -/
inductive Trivia where
  | whitespace (text : Text)
  | comment (text : Text)
deriving DecidableEq, Repr

/-- A node of a source tree, labelled with values of `ι`. -/
inductive Node (ι : Type) where
  | composite (label : ι) (kind : Kind) (children : List (Node ι))
  | atom (label : ι) (atom : Atom)
  | trivia (label : ι) (trivia : Trivia)
deriving Repr

/-- A source tree without labels. -/
abbrev Tree := Node Unit

namespace Kind

def opener : Kind → Text
  | root => []
  | bracket b => b.opener
  | mark m => m.text

/-- The closing text; only delimited forms have one. -/
def closer : Kind → Text
  | bracket b => b.closer.text
  | _ => []

/-- The number of forms that a mark wraps; other composites hold any number. -/
def arity? : Kind → Option Nat
  | mark m => some m.arity
  | _ => none

def name : Kind → String
  | root => "root"
  | bracket b => b.name
  | mark m => m.name

end Kind

namespace Trivia

def text : Trivia → Text
  | whitespace text | comment text => text

def name : Trivia → String
  | whitespace _ => "whitespace"
  | comment _ => "comment"

end Trivia

namespace Node

variable {ι κ : Type}

def label : Node ι → ι
  | composite label _ _ | atom label _ | trivia label _ => label

/-- Whether a node carries meaning: it is no trivia. -/
def isForm : Node ι → Bool
  | trivia _ _ => false
  | _ => true

def isComment : Node ι → Bool
  | trivia _ (.comment _) => true
  | _ => false

def isWhitespace : Node ι → Bool
  | trivia _ (.whitespace _) => true
  | _ => false

/-- Whether a node consists of blanks with a line break among them. -/
def isLineBreak : Node ι → Bool
  | trivia _ (.whitespace text) => text.contains '\n'
  | _ => false

/-- Whether a node is trivia that begins with a line break. -/
def startsWithNewline : Node ι → Bool
  | trivia _ t => Text.startsWithNewline t.text
  | _ => false

def children : Node ι → List (Node ι)
  | composite _ _ children => children
  | _ => []

def forms (n : Node ι) : List (Node ι) :=
  n.children.filter isForm

def isRoot : Node ι → Bool
  | composite _ .root _ => true
  | _ => false

def symbol? : Node ι → Option Text
  | atom _ a => if a.kind = .symbol then some a.text else none
  | _ => none

/-- The name of the node's kind in messages. -/
def kindName : Node ι → String
  | composite _ kind _ => kind.name
  | atom _ a => a.kind.name
  | trivia _ t => t.name

/-- Whether a comment that ends a list of siblings has to be ended there, given the node that follows. -/
def endsBefore : Option (Node ι) → Bool → Bool
  | some next, _ => !next.startsWithNewline
  | none, closed => closed

/-! ## Source text

A comment is ended by a line feed unless the next sibling brings one, or nothing follows in its composite. -/

mutual

def text : Node ι → Text
  | composite _ kind children => kind.opener ++ childrenText (!kind.closer.isEmpty) children ++ kind.closer
  | atom _ a => a.text
  | trivia _ t => t.text

/-- The source of siblings; `closed` says whether a comment at their end has to be ended. -/
def childrenText (closed : Bool) : List (Node ι) → Text
  | [] => []
  | n :: ns =>
    text n ++ (if n.isComment && endsBefore ns.head? closed then ['\n'] else []) ++ childrenText closed ns

end

/-- Length in bytes of the source of a node. -/
def bytes (n : Node ι) : Nat :=
  Text.bytes n.text

/-! ## Labels -/

mutual

/-- The tree with a function applied to its labels. -/
def map (f : ι → κ) : Node ι → Node κ
  | composite label kind children => composite (f label) kind (mapAll f children)
  | atom label a => atom (f label) a
  | trivia label t => trivia (f label) t

/-- The trees with a function applied to their labels. -/
def mapAll (f : ι → κ) : List (Node ι) → List (Node κ)
  | [] => []
  | n :: ns => map f n :: mapAll f ns

end

def plain (n : Node ι) : Tree :=
  n.map fun _ => ()

mutual

/-- Whether two trees are equal, labels included. -/
def same [DecidableEq ι] : Node ι → Node ι → Bool
  | composite label kind children, composite label' kind' children' =>
    label == label' && kind == kind' && sameAll children children'
  | atom label a, atom label' a' => label == label' && a == a'
  | trivia label t, trivia label' t' => label == label' && t == t'
  | _, _ => false

def sameAll [DecidableEq ι] : List (Node ι) → List (Node ι) → Bool
  | [], [] => true
  | n :: ns, m :: ms => same n m && sameAll ns ms
  | _, _ => false

end

/-! ## Size -/

mutual

def weight : Node ι → Nat
  | composite _ _ children => weightAll children + 1
  | atom _ _ => 1
  | trivia _ _ => 0

def weightAll : List (Node ι) → Nat
  | [] => 0
  | n :: ns => weight n + weightAll ns

end

end Node

def Tree.root (children : List Tree) : Tree :=
  .composite () .root children

end SexprEdit
