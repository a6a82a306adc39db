import Mathlib.Data.List.Lex
import Mathlib.Data.List.Nodup
import SexprEdit.Proofs.Node.Structure

/-!
# Places of a tree

The places of a tree are its root and the forms inside, each with the path that leads to it and the text that is written
before it. `Node.places` lists them in document order: a composite comes before what it holds, and siblings come from
left to right. Their paths are those that lead to a form (`placedByPaths`), and they are in lexicographic order
(`pairwise_places`), so that every place stands in the list once.
-/

namespace SexprEdit

/-- A node with the path that leads to it and the text that is written before it. -/
structure Place where
  path : List Nat
  before : Text
  node : Tree

def Place.atom? (p : Place) : Option Atom :=
  match p.node with
  | .atom _ a => some a
  | _ => none

namespace Node

variable {ι κ : Type}

/-- The node that a path of form numbers leads to. -/
def formAt? : List Nat → Node ι → Option (Node ι)
  | [], n => some n
  | k :: path, n => n.forms[k]?.bind (formAt? path)

mutual

/-- The places at and inside a node that a path leads to, given the text before it. -/
def places (path : List Nat) (before : Text) : Node ι → List Place
  | composite label kind children =>
    ⟨path, before, (composite label kind children).plain⟩ ::
      placesAll path 0 (!kind.closer.isEmpty) (before ++ kind.opener) children
  | atom _ a => [⟨path, before, atom () a⟩]
  | trivia _ t => [⟨path, before, trivia () t⟩]

/-- The places in siblings, of which the first form has number `index` in the composite that a path leads to. -/
def placesAll (path : List Nat) (index : Nat) (closed : Bool) (before : Text) : List (Node ι) → List Place
  | [] => []
  | n :: ns =>
    (if n.isForm then places (path ++ [index]) before n else []) ++
      placesAll path (if n.isForm then index + 1 else index) closed (before ++ n.text ++ ending closed n ns) ns

/-- The atoms at and inside a node, in document order. -/
def atoms : Node ι → List Atom
  | composite _ _ children => atomsAll children
  | atom _ a => [a]
  | trivia _ _ => []

def atomsAll : List (Node ι) → List Atom
  | [] => []
  | n :: ns => atoms n ++ atomsAll ns

end

/-! ## Siblings -/

section

variable {path : List Nat} {index : Nat} {closed : Bool} {before : Text} {n : Node ι} {ns : List (Node ι)}

theorem placesAll_cons :
    placesAll path index closed before (n :: ns) =
      (if n.isForm then places (path ++ [index]) before n else []) ++
        placesAll path (if n.isForm then index + 1 else index) closed (before ++ n.text ++ ending closed n ns) ns :=
  rfl

theorem placesAll_of_isForm (hn : n.isForm = true) :
    placesAll path index closed before (n :: ns) =
      places (path ++ [index]) before n ++ placesAll path (index + 1) closed (before ++ n.text) ns := by
  rw [placesAll_cons, if_pos hn, if_pos hn, ending_of_isForm hn, List.append_nil]

theorem placesAll_of_trivia (h : ∀ m ∈ ns, m.isForm = false) : placesAll path index closed before ns = [] := by
  induction ns generalizing before with
  | nil => rfl
  | cons n ns ih =>
    obtain ⟨hn, hns⟩ := List.forall_mem_cons.mp h
    simp only [placesAll_cons, hn, Bool.false_eq_true, if_false, List.nil_append]
    exact ih hns

theorem placesAll_append (front : List (Node ι)) :
    placesAll path index closed before (front ++ n :: ns) =
      placesAll path index (!n.startsWithNewline) before front ++
        placesAll path (index + formCount front) closed
          (before ++ childrenText (!n.startsWithNewline) front) (n :: ns) := by
  induction front generalizing index before with
  | nil => simp [placesAll, childrenText, formCount]
  | cons k front ih =>
    have hending : ending closed k (front ++ n :: ns) = ending (!n.startsWithNewline) k front := by
      cases front <;> rfl
    have hindex : (if k.isForm then index + 1 else index) + formCount front = index + formCount (k :: front) := by
      rw [formCount_cons_eq]
      split_ifs <;> omega
    rw [List.cons_append, placesAll_cons (n := k), placesAll_cons (n := k), ih, hending, hindex, childrenText, ← ending]
    simp only [List.append_assoc]

theorem placesAll_append_trivia {front : List (Node ι)} (hfront : ∀ m ∈ front, m.isForm = false) (hn : n.isForm = true) :
    placesAll path index closed before (front ++ n :: ns) =
      places (path ++ [index]) (before ++ childrenText true front) n ++
        placesAll path (index + 1) closed (before ++ childrenText true front ++ n.text) ns := by
  rw [placesAll_append, placesAll_of_trivia hfront, formCount_eq_zero hfront, startsWithNewline_of_isForm hn,
    List.nil_append, placesAll_of_isForm hn]
  rfl

end

/-! ## Labels -/

theorem ending_map (f : ι → κ) (closed : Bool) (n : Node ι) (ns : List (Node ι)) :
    ending closed (n.map f) (ns.map (map f)) = ending closed n ns := by
  have hends : endsBefore (ns.map (map f)).head? closed = endsBefore ns.head? closed := by
    cases ns <;> simp [endsBefore]
  rw [ending, ending, isComment_map, hends]

theorem placesAll_map (f : ι → κ) {ns : List (Node ι)}
    (h : ∀ n ∈ ns, ∀ path before, places path before (n.map f) = places path before n) (path : List Nat) (index : Nat)
    (closed : Bool) (before : Text) :
    placesAll path index closed before (ns.map (map f)) = placesAll path index closed before ns := by
  induction ns generalizing index before with
  | nil => rfl
  | cons n ns ih =>
    obtain ⟨hn, hns⟩ := List.forall_mem_cons.mp h
    rw [List.map_cons, placesAll_cons, placesAll_cons, ending_map, ih hns, hn]
    simp only [isForm_map, text_map]

@[simp] theorem places_map (f : ι → κ) (path : List Nat) (before : Text) (n : Node ι) :
    places path before (n.map f) = places path before n := by
  induction n using child_induction generalizing path before with
  | node n ih =>
    cases n with
    | composite label kind children =>
      have ih : ∀ m ∈ children, ∀ path before, places path before (m.map f) = places path before m := ih
      have hplain := plain_map f (composite label kind children)
      rw [map_composite] at hplain ⊢
      rw [places, places, hplain, placesAll_map f ih]
    | _ => rfl

theorem places_plain (path : List Nat) (before : Text) (n : Node ι) : places path before n.plain = places path before n :=
  places_map _ path before n

theorem forms_plain (n : Node ι) : n.plain.forms = n.forms.map plain := by
  cases n with
  | composite label kind children =>
    have hform : (isForm ∘ plain : Node ι → Bool) = isForm := funext isForm_plain
    rw [plain_composite, forms, forms, Node.children, Node.children, List.filter_map, hform]
  | _ => rfl

theorem formAt?_plain (p : List Nat) (n : Node ι) : n.plain.formAt? p = (n.formAt? p).map plain := by
  induction p generalizing n with
  | nil => rfl
  | cons k p ih =>
    rw [formAt?, formAt?, forms_plain, List.getElem?_map]
    cases n.forms[k]? with
    | none => rfl
    | some m => exact ih m

/-! ## Paths -/

theorem places_of_forms_eq_nil {n : Node ι} (h : n.forms = []) (path : List Nat) (before : Text) :
    places path before n = [⟨path, before, n.plain⟩] := by
  cases n with
  | composite label kind children =>
    have htrivia : ∀ m ∈ children, m.isForm = false := by simpa [forms, Node.children] using h
    rw [places, placesAll_of_trivia htrivia]
  | _ => rfl

/-- The places of a node are where the paths to forms in it lead. -/
def PlacedByPaths (n : Node ι) : Prop :=
  ∀ path before p m, (∃ text, ⟨p, text, m⟩ ∈ places path before n) ↔
    ∃ q, p = path ++ q ∧ (n.formAt? q).map plain = some m

theorem exists_mem_placesAll_iff {ns : List (Node ι)} (h : ∀ n ∈ ns, n.PlacedByPaths)
    (path : List Nat) (index : Nat) (closed : Bool) (before : Text) (p : List Nat) (m : Tree) :
    (∃ text, ⟨p, text, m⟩ ∈ placesAll path index closed before ns) ↔
      ∃ k q, p = path ++ (index + k) :: q ∧ ((ns.filter isForm)[k]?.bind (formAt? q)).map plain = some m := by
  induction ns generalizing index before with
  | nil => simp [placesAll]
  | cons n ns ih =>
    obtain ⟨hn, hns⟩ := List.forall_mem_cons.mp h
    by_cases hform : n.isForm = true
    · rw [placesAll_of_isForm hform, List.filter_cons_of_pos hform]
      simp only [List.mem_append, exists_or, hn _ before p m, ih hns]
      -- number `0` leads into this form, and number `k + 1` to where `k` leads among the others
      constructor
      · rintro (⟨q, rfl, hq⟩ | ⟨k, q, rfl, hq⟩)
        · exact ⟨0, q, by simp, hq⟩
        · exact ⟨k + 1, q, by simp [Nat.add_assoc, Nat.add_comm 1 k], hq⟩
      · rintro ⟨k, q, rfl, hq⟩
        cases k with
        | zero => exact .inl ⟨q, by simp, hq⟩
        | succ k => exact .inr ⟨k, q, by simp [Nat.add_assoc, Nat.add_comm 1 k], hq⟩
    · rw [placesAll_cons, if_neg hform, if_neg hform, List.filter_cons_of_neg hform, List.nil_append]
      exact ih hns index _

theorem placedByPaths (n : Node ι) : n.PlacedByPaths := by
  induction n using child_induction with
  | node n ih =>
    intro path before p m
    by_cases hforms : n.forms = []
    · rw [places_of_forms_eq_nil hforms]
      constructor
      · rintro ⟨text, htext⟩
        obtain ⟨rfl, rfl, rfl⟩ := Place.mk.inj (List.mem_singleton.mp htext)
        exact ⟨[], (List.append_nil _).symm, rfl⟩
      · rintro ⟨_ | ⟨k, q⟩, rfl, hq⟩
        · obtain rfl := Option.some.inj hq
          exact ⟨before, by rw [List.append_nil]; exact List.mem_singleton_self _⟩
        · simp [formAt?, hforms] at hq
    · cases n with
      | composite label kind children =>
        have hinner := exists_mem_placesAll_iff (fun m hm => ih m hm) path 0 (!kind.closer.isEmpty) (before ++ kind.opener) p m
        simp only [Node.children, Nat.zero_add] at hinner
        simp only [places, List.mem_cons, exists_or, hinner]
        constructor
        · rintro (⟨text, htext⟩ | ⟨k, q, rfl, hq⟩)
          · obtain ⟨rfl, rfl, rfl⟩ := Place.mk.inj htext
            exact ⟨[], (List.append_nil _).symm, rfl⟩
          · exact ⟨k :: q, rfl, hq⟩
        · rintro ⟨_ | ⟨k, q⟩, rfl, hq⟩
          · obtain rfl := Option.some.inj hq
            exact .inl ⟨before, by rw [List.append_nil]⟩
          · exact .inr ⟨k, q, rfl, hq⟩
      | _ => exact absurd rfl hforms

theorem exists_of_getElem?_filter {ns : List (Node ι)} {k : Nat} {n : Node ι} (h : (ns.filter isForm)[k]? = some n) :
    ∃ before after, ns = before ++ n :: after ∧ formCount before = k ∧ n.isForm = true := by
  induction ns generalizing k with
  | nil => simp at h
  | cons m ns ih =>
    by_cases hm : m.isForm = true
    · rw [List.filter_cons_of_pos hm] at h
      cases k with
      | zero =>
        obtain rfl : m = n := by simpa using h
        exact ⟨[], ns, rfl, rfl, hm⟩
      | succ k =>
        obtain ⟨before, after, rfl, hcount, hn⟩ := ih (by simpa using h)
        exact ⟨m :: before, after, rfl, by rw [formCount_cons_eq, if_pos hm, hcount, Nat.add_comm], hn⟩
    · rw [List.filter_cons_of_neg hm] at h
      obtain ⟨before, after, rfl, hcount, hn⟩ := ih h
      exact ⟨m :: before, after, rfl, by rw [formCount_cons_eq, if_neg hm, hcount, Nat.zero_add], hn⟩

/-! ## Order -/

theorem path_of_mem_places {path : List Nat} {before : Text} {n : Node ι} {p : Place} (h : p ∈ places path before n) :
    ∃ q, p.path = path ++ q := by
  obtain ⟨q, hq, -⟩ := (placedByPaths n path before p.path p.node).mp ⟨p.before, h⟩
  exact ⟨q, hq⟩

theorem path_of_mem_placesAll {path : List Nat} {index : Nat} {closed : Bool} {before : Text} {ns : List (Node ι)} {p : Place}
    (h : p ∈ placesAll path index closed before ns) : ∃ k q, p.path = path ++ (index + k) :: q := by
  obtain ⟨k, q, hq, -⟩ :=
    (exists_mem_placesAll_iff (fun n _ => placedByPaths n) path index closed before p.path p.node).mp ⟨p.before, h⟩
  exact ⟨k, q, hq⟩

theorem pairwise_placesAll {ns : List (Node ι)}
    (h : ∀ n ∈ ns, ∀ path before, (places path before n).Pairwise (·.path < ·.path)) (path : List Nat) (index : Nat)
    (closed : Bool) (before : Text) : (placesAll path index closed before ns).Pairwise (·.path < ·.path) := by
  induction ns generalizing index before with
  | nil => exact .nil
  | cons n ns ih =>
    obtain ⟨hn, hns⟩ := List.forall_mem_cons.mp h
    by_cases hform : n.isForm = true
    · rw [placesAll_of_isForm hform, List.pairwise_append]
      refine ⟨hn _ _, ih hns _ _, fun p hp r hr => ?_⟩
      obtain ⟨q, hq⟩ := path_of_mem_places hp
      obtain ⟨k, q', hq'⟩ := path_of_mem_placesAll hr
      rw [hq, hq', List.append_assoc]
      refine List.append_left_lt ?_
      exact List.cons_lt_cons_iff.mpr (.inl (by omega))
    · rw [placesAll_cons, if_neg hform, if_neg hform, List.nil_append]
      exact ih hns _ _

/-- Places come in the lexicographic order of their paths. -/
theorem pairwise_places (path : List Nat) (before : Text) (n : Node ι) :
    (places path before n).Pairwise (·.path < ·.path) := by
  induction n using child_induction generalizing path before with
  | node n ih =>
    cases n with
    | composite label kind children =>
      refine List.pairwise_cons.mpr ⟨fun p hp => ?_, pairwise_placesAll ih path 0 _ _⟩
      obtain ⟨k, q, hq⟩ := path_of_mem_placesAll hp
      rw [hq]
      have hlt : path ++ [] < path ++ (0 + k) :: q := List.append_left_lt (List.nil_lt_cons _ _)
      rwa [List.append_nil] at hlt
    | _ => exact List.pairwise_singleton _ _

/-- A path leads to one place at most. -/
theorem eq_of_mem_places {path : List Nat} {before : Text} {n : Node ι} {p q : Place} (hp : p ∈ places path before n)
    (hq : q ∈ places path before n) (h : p.path = q.path) : p = q := by
  have hnodup : ((places path before n).map Place.path).Nodup := by
    refine List.pairwise_map.mpr ((pairwise_places path before n).imp ?_)
    intro p q hlt heq
    rw [heq] at hlt
    exact List.lt_irrefl _ hlt
  exact List.inj_on_of_nodup_map hnodup hp hq h

/-! ## Atoms -/

theorem atomsAll_eq {ns : List (Node ι)} (h : ∀ n ∈ ns, ∀ path before, (places path before n).filterMap Place.atom? = n.atoms)
    (path : List Nat) (index : Nat) (closed : Bool) (before : Text) :
    (placesAll path index closed before ns).filterMap Place.atom? = atomsAll ns := by
  induction ns generalizing index before with
  | nil => rfl
  | cons n ns ih =>
    obtain ⟨hn, hns⟩ := List.forall_mem_cons.mp h
    rw [placesAll_cons, List.filterMap_append, ih hns, atomsAll]
    refine congrArg (· ++ _) ?_
    cases n with
    | trivia label t => rfl
    | _ => exact hn _ _

theorem atoms_eq (path : List Nat) (before : Text) (n : Node ι) : (places path before n).filterMap Place.atom? = n.atoms := by
  induction n using child_induction generalizing path before with
  | node n ih =>
    cases n with
    | composite label kind children =>
      rw [places, List.filterMap_cons, plain_composite]
      exact atomsAll_eq ih path 0 _ _
    | _ => rfl

theorem atoms_plain (n : Node ι) : n.plain.atoms = n.atoms := by
  rw [← atoms_eq [] [], places_plain, atoms_eq]

/-! ## Size -/

theorem length_placesAll {ns : List (Node ι)}
    (h : ∀ n ∈ ns, n.isForm = true → ∀ path before, (places path before n).length = n.weight) (path : List Nat) (index : Nat)
    (closed : Bool) (before : Text) : (placesAll path index closed before ns).length = weightAll ns := by
  induction ns generalizing index before with
  | nil => rfl
  | cons n ns ih =>
    obtain ⟨hn, hns⟩ := List.forall_mem_cons.mp h
    by_cases hform : n.isForm = true
    · rw [placesAll_of_isForm hform, List.length_append, hn hform, ih hns, weightAll]
    · rw [placesAll_cons, if_neg hform, if_neg hform, List.nil_append, ih hns, weightAll]
      cases n with
      | trivia label t => exact (Nat.zero_add _).symm
      | _ => exact absurd rfl hform

theorem length_places {n : Node ι} (hn : n.isForm = true) (path : List Nat) (before : Text) :
    (places path before n).length = n.weight := by
  induction n using child_induction generalizing path before with
  | node n ih =>
    cases n with
    | composite label kind children => exact congrArg (· + 1) (length_placesAll ih path 0 _ _)
    | atom label a => rfl
    | trivia label t => simp [isForm] at hn

end Node

end SexprEdit
