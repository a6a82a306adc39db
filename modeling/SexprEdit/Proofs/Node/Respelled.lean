import Mathlib.Data.List.Forall2
import SexprEdit.Proofs.Node.Places
import SexprEdit.Proofs.Node.Shape

/-!
# Trees with other atoms

A tree is respelled when its atoms are put through a function and single blanks are put between its nodes, while all
else, the trivia included, stays and stays in order. Without trivia, that is the tree with its atoms put through the
function (`Respelled.shape`), and every path leads in both trees to the same place (`Respelled.formAt?`).
-/

namespace SexprEdit

namespace Node

variable {ι : Type}

mutual

/-- The tree with its atoms put through a function. -/
def mapAtoms (f : Atom → Atom) : Node ι → Node ι
  | composite label kind children => composite label kind (mapAtomsAll f children)
  | atom label a => atom label (f a)
  | trivia label t => trivia label t

/-- Siblings with their atoms put through a function. -/
def mapAtomsAll (f : Atom → Atom) : List (Node ι) → List (Node ι)
  | [] => []
  | n :: ns => mapAtoms f n :: mapAtomsAll f ns

end

/-- Each sibling goes over into another one, and single blanks are put between them. -/
inductive Spread (R : Tree → Tree → Prop) : List Tree → List Tree → Prop where
  | nil : Spread R [] []
  | cons {n m : Tree} {ns ms : List Tree} (h : R n m) (hs : Spread R ns ms) : Spread R (n :: ns) (m :: ms)
  | blank {ns ms : List Tree} (hs : Spread R ns ms) : Spread R ns (space () :: ms)

/-- The second tree is the first with its atoms put through a function and with single blanks put between its nodes. -/
inductive Respelled (f : Atom → Atom) : Tree → Tree → Prop where
  | composite {kind : Kind} {ns ms : List Tree} (h : Spread (Respelled f) ns ms) :
      Respelled f (.composite () kind ns) (.composite () kind ms)
  | atom {a : Atom} : Respelled f (.atom () a) (.atom () (f a))
  | trivia {t : Trivia} : Respelled f (.trivia () t) (.trivia () t)

variable {R : Tree → Tree → Prop} {ns ms ns' ms' : List Tree} {f : Atom → Atom} {n m : Tree}

theorem Spread.append (h : Spread R ns ms) (h' : Spread R ns' ms') : Spread R (ns ++ ns') (ms ++ ms') := by
  induction h with
  | nil => exact h'
  | cons hn _ ih => exact .cons hn ih
  | blank _ ih => exact .blank ih

theorem Spread.blanks (h : Spread R ns ms) (k : Nat) : Spread R ns (List.replicate k (space ()) ++ ms) := by
  induction k with
  | zero => exact h
  | succ k ih => exact .blank ih

theorem spread_self (h : ∀ n ∈ ns, R n n) : Spread R ns ns := by
  induction ns with
  | nil => exact .nil
  | cons n ns ih =>
    obtain ⟨hn, hns⟩ := List.forall_mem_cons.mp h
    exact .cons hn (ih hns)

theorem mem_atomsAll {a : Atom} {ns : List (Node ι)} : a ∈ atomsAll ns ↔ ∃ n ∈ ns, a ∈ n.atoms := by
  induction ns with
  | nil => simp [atomsAll]
  | cons n ns ih => simp [atomsAll, ih]

theorem respelled_self (h : ∀ a ∈ n.atoms, f a = a) : Respelled f n n := by
  induction n using child_induction with
  | node n ih =>
    cases n with
    | composite label kind children =>
      refine .composite (spread_self fun k hk => ih k hk fun a ha => h a ?_)
      exact mem_atomsAll.mpr ⟨k, hk, ha⟩
    | atom label a =>
      have hatom : Respelled f (.atom () a) (.atom () (f a)) := .atom
      rwa [h a (by simp [atoms])] at hatom
    | trivia label t => exact .trivia

theorem atoms_of_trivia {n : Node ι} (h : n.isForm = false) : n.atoms = [] := by
  cases n with
  | trivia label t => rfl
  | _ => cases h

theorem spread_of_trivia (h : ∀ n ∈ ns, n.isForm = false) : Spread (Respelled f) ns ns :=
  spread_self fun n hn => respelled_self (by simp [atoms_of_trivia (h n hn)])

/-! ## What stays -/

theorem Respelled.isForm (h : Respelled f n m) : m.isForm = n.isForm := by
  cases h <;> rfl

theorem Respelled.isRoot (h : Respelled f n m) : m.isRoot = n.isRoot := by
  cases h with
  | @composite kind => cases kind <;> rfl
  | atom => rfl
  | trivia => rfl

theorem Spread.atomsAll (h : Spread (Respelled f) ns ms)
    (hatoms : ∀ n ∈ ns, ∀ m, Respelled f n m → m.atoms = n.atoms.map f) : atomsAll ms = (atomsAll ns).map f := by
  induction h with
  | nil => rfl
  | cons hn _ ih =>
    obtain ⟨hfirst, hrest⟩ := List.forall_mem_cons.mp hatoms
    rw [Node.atomsAll, Node.atomsAll, List.map_append, hfirst _ hn, ih hrest]
  | blank _ ih => exact ih hatoms

/-- The atoms of a respelled tree are those of the tree put through the function. -/
theorem Respelled.atoms (h : Respelled f n m) : m.atoms = n.atoms.map f := by
  induction n using child_induction generalizing m with
  | node n ih =>
    cases h with
    | composite h => exact h.atomsAll fun n hn m hnm => ih n hn hnm
    | atom => rfl
    | trivia => rfl

theorem mapAtomsAll_eq (f : Atom → Atom) (ns : List (Node ι)) : mapAtomsAll f ns = ns.map (mapAtoms f) := by
  induction ns with
  | nil => rfl
  | cons n ns ih => rw [mapAtomsAll, ih, List.map_cons]

theorem mapAtoms_mapAtoms_eq_self {g : Atom → Atom} {n : Node ι} (h : ∀ a ∈ n.atoms, g (f a) = a) :
    (n.mapAtoms f).mapAtoms g = n := by
  induction n using child_induction with
  | node n ih =>
    cases n with
    | composite label kind children =>
      simp only [mapAtoms, mapAtomsAll_eq, List.map_map, composite.injEq, true_and]
      refine (List.map_congr_left fun k hk => ?_).trans children.map_id
      exact ih k hk fun a ha => h a (mem_atomsAll.mpr ⟨k, hk, ha⟩)
    | atom label a => exact congrArg (Node.atom label) (h a (List.mem_singleton_self a))
    | trivia label t => rfl

theorem atomsAll_shapeAll {ns : List (Node ι)} (h : ∀ n ∈ ns, n.shape.atoms = n.atoms) :
    atomsAll (shapeAll ns) = atomsAll ns := by
  induction ns with
  | nil => rfl
  | cons n ns ih =>
    obtain ⟨hn, hns⟩ := List.forall_mem_cons.mp h
    rw [shapeAll_cons]
    split_ifs with hform
    · rw [atomsAll, atomsAll, hn, ih hns]
    · rw [atomsAll, atoms_of_trivia (Bool.eq_false_of_not_eq_true hform), List.nil_append, ih hns]

theorem atoms_shape (n : Node ι) : n.shape.atoms = n.atoms := by
  induction n using child_induction with
  | node n ih =>
    cases n with
    | composite label kind children => exact atomsAll_shapeAll ih
    | atom label a => rfl
    | trivia label t => rfl

theorem Spread.forms (h : Spread (Respelled f) ns ms) :
    List.Forall₂ (fun n m => n ∈ ns ∧ Respelled f n m) (ns.filter Node.isForm) (ms.filter Node.isForm) := by
  induction h with
  | nil => exact .nil
  | @cons n m ns ms hn _ ih =>
    have hrest := ih.imp fun k l hk => And.imp_left (List.mem_cons_of_mem n) hk
    by_cases hform : n.isForm = true
    · rw [List.filter_cons_of_pos hform, List.filter_cons_of_pos (hn.isForm.trans hform)]
      exact .cons ⟨List.mem_cons_self, hn⟩ hrest
    · rw [List.filter_cons_of_neg hform, List.filter_cons_of_neg (by rwa [hn.isForm])]
      exact hrest
  | blank _ ih => exact ih

/-- Without its trivia, a respelled tree is the tree with its atoms put through the function. -/
theorem Respelled.shape (h : Respelled f n m) : m.shape = n.shape.mapAtoms f := by
  induction n using child_induction generalizing m with
  | node n ih =>
    cases h with
    | @composite kind ns ms h =>
      have ih : ∀ k ∈ ns, ∀ {l : Tree}, Respelled f k l → l.shape = k.shape.mapAtoms f := ih
      have hforms : (ms.filter Node.isForm).map Node.shape = (ns.filter Node.isForm).map (mapAtoms f ∘ Node.shape) := by
        have hall := h.forms
        generalize ms.filter Node.isForm = ys, ns.filter Node.isForm = xs at hall
        induction hall with
        | nil => rfl
        | cons hn _ ihs => rw [List.map_cons, List.map_cons, ihs, ih _ hn.1 hn.2, Function.comp_apply]
      rw [Node.shape, Node.shape, mapAtoms, mapAtomsAll_eq, shapeAll_eq, shapeAll_eq, hforms, List.map_map]
    | atom => rfl
    | trivia => rfl

theorem Respelled.forms (h : Respelled f n m) : List.Forall₂ (Respelled f) n.forms m.forms := by
  cases h with
  | composite h => exact h.forms.imp fun _ _ hk => hk.2
  | atom => exact .nil
  | trivia => exact .nil

theorem exists_getElem?_of_forall₂ {α β : Type} {R : α → β → Prop} {as : List α} {bs : List β} (h : List.Forall₂ R as bs)
    {i : Nat} {a : α} (ha : as[i]? = some a) : ∃ b, bs[i]? = some b ∧ R a b := by
  obtain ⟨hi, rfl⟩ := List.getElem?_eq_some_iff.mp ha
  have hi' : i < bs.length := h.length_eq ▸ hi
  exact ⟨bs[i], List.getElem?_eq_getElem hi', h.get hi hi'⟩

theorem Respelled.formAt? {p : List Nat} {k : Tree} (h : Respelled f n m) (hk : n.formAt? p = some k) :
    ∃ l, m.formAt? p = some l ∧ Respelled f k l := by
  induction p generalizing n m with
  | nil =>
    obtain rfl := Option.some.inj hk
    exact ⟨m, rfl, h⟩
  | cons i p ih =>
    obtain ⟨child, hchild, hinner⟩ := Option.bind_eq_some_iff.mp hk
    obtain ⟨child', hchild', hrel⟩ := exists_getElem?_of_forall₂ h.forms hchild
    obtain ⟨l, hl, hkl⟩ := ih hrel hinner
    exact ⟨l, Option.bind_eq_some_iff.mpr ⟨child', hchild', hl⟩, hkl⟩

end Node

end SexprEdit
