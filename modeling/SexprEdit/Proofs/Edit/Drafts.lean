import SexprEdit.Proofs.Cursor.Outline
import SexprEdit.Proofs.Edit.Runs
import SexprEdit.Proofs.Node.Places

/-!
# New forms without their trivia

What edits write anew is put together from siblings that were cut at a form and from forms with blanks between them. Here
is what such pieces come to without trivia, and which comments they have. Inside a document, putting a form in place of
another always succeeds and changes nothing else (`Cursor.Steady.replace`).
-/

namespace SexprEdit

namespace Node

variable {ι κ : Type}

/-! ## Cuts -/

theorem CutsAtForm.shapeAll {ns : List (Node ι)} {cut : Cut (Node ι)} (h : CutsAtForm ns cut) :
    Node.shapeAll ns = Node.shapeAll cut.before ++ cut.focus.shape :: Node.shapeAll cut.after := by
  rw [h.whole, shapeAll_append, shapeAll_cons, if_pos h.form]

theorem CutsAtForm.commentsAll {ns : List (Node ι)} {cut : Cut (Node ι)} (h : CutsAtForm ns cut) :
    Node.commentsAll ns = Node.commentsAll cut.before ++ (cut.focus.comments ++ Node.commentsAll cut.after) := by
  rw [h.whole, commentsAll_append, commentsAll_cons]

theorem formCount_cutAtForm? {k : Nat} {ns : List (Node ι)} {cut : Cut (Node ι)} (h : cutAtForm? k ns = some cut) :
    formCount cut.before = k := by
  induction ns generalizing k cut with
  | nil => simp [cutAtForm?] at h
  | cons n ns ih =>
    by_cases hn : n.isForm = true
    · cases k with
      | zero =>
        obtain rfl : ⟨[], n, ns⟩ = cut := by simpa [cutAtForm?, hn] using h
        rfl
      | succ k =>
        obtain ⟨inner, hinner, rfl⟩ : ∃ inner, cutAtForm? k ns = some inner ∧ inner.push n = cut := by
          simpa [cutAtForm?, hn] using h
        rw [Cut.push, formCount_cons_eq, if_pos hn, ih hinner, Nat.add_comm]
    · obtain ⟨inner, hinner, rfl⟩ : ∃ inner, cutAtForm? k ns = some inner ∧ inner.push n = cut := by
        cases k <;> simpa [cutAtForm?, hn] using h
      rw [Cut.push, formCount_cons_eq, if_neg hn, ih hinner, Nat.zero_add]

theorem cutAtForm?_eq_none_iff {k : Nat} {ns : List (Node ι)} : cutAtForm? k ns = none ↔ formCount ns ≤ k := by
  induction ns generalizing k with
  | nil => simp [cutAtForm?, formCount]
  | cons n ns ih =>
    by_cases hn : n.isForm = true
    · cases k with
      | zero => simp [cutAtForm?, hn, formCount_cons_eq]
      | succ k =>
        have hcount : formCount (n :: ns) ≤ k + 1 ↔ formCount ns ≤ k := by
          rw [formCount_cons_eq, if_pos hn]
          omega
        rw [hcount, ← ih]
        simp [cutAtForm?, hn]
    · rw [formCount_cons_eq, if_neg hn, Nat.zero_add, ← ih]
      cases k <;> simp [cutAtForm?, hn]

theorem cutAtForm?_append (before after : List (Node ι)) {n : Node ι} (hn : n.isForm = true) :
    cutAtForm? (formCount before) (before ++ n :: after) = some ⟨before, n, after⟩ := by
  induction before with
  | nil => simp [cutAtForm?, formCount, hn]
  | cons m before ih =>
    by_cases hm : m.isForm = true
    · rw [formCount_cons_eq, if_pos hm, Nat.add_comm, List.cons_append, cutAtForm?, if_pos hm]
      exact congrArg (Option.map (Cut.push m)) ih
    · rw [formCount_cons_eq, if_neg hm, Nat.zero_add, List.cons_append, cutAtForm?.eq_def]
      simp only [if_neg hm, ih]
      rfl

/-! ## Lists of drafts -/

theorem shapeAll_map (f : ι → κ) (ns : List (Node ι)) : shapeAll (ns.map (map f)) = shapeAll ns := by
  induction ns with
  | nil => rfl
  | cons n ns ih => rw [List.map_cons, shapeAll_cons, shapeAll_cons, isForm_map, shape_map, ih]

theorem commentsAll_map (f : ι → κ) (ns : List (Node ι)) : commentsAll (ns.map (map f)) = commentsAll ns := by
  induction ns with
  | nil => rfl
  | cons n ns ih => rw [List.map_cons, commentsAll_cons, commentsAll_cons, comments_map, ih]

@[simp] theorem shape_kept (n : Cell) : n.kept.shape = n.shape :=
  shape_map some n

@[simp] theorem isForm_kept (n : Cell) : n.kept.isForm = n.isForm :=
  isForm_map some n

@[simp] theorem comments_kept (n : Cell) : n.kept.comments = n.comments :=
  comments_map some n

@[simp] theorem shapeAll_map_kept (ns : List Cell) : shapeAll (ns.map kept) = shapeAll ns :=
  shapeAll_map some ns

@[simp] theorem commentsAll_map_kept (ns : List Cell) : commentsAll (ns.map kept) = commentsAll ns :=
  commentsAll_map some ns

theorem shapeAll_intersperse {blank : Node ι} (hblank : blank.isForm = false) {ns : List (Node ι)}
    (hns : ∀ n ∈ ns, n.isForm = true) : shapeAll (ns.intersperse blank) = ns.map shape := by
  induction ns with
  | nil => rfl
  | cons n ns ih =>
    obtain ⟨hn, hns⟩ := List.forall_mem_cons.mp hns
    cases ns with
    | nil => simp [shapeAll_cons, hn]
    | cons m ns =>
      rw [List.intersperse_cons_cons, shapeAll_cons, if_pos hn, shapeAll_cons, if_neg (by simp [hblank]), ih hns]
      rfl

theorem commentsAll_intersperse {blank : Node ι} (hblank : blank.comments = []) (ns : List (Node ι)) :
    commentsAll (ns.intersperse blank) = commentsAll ns := by
  induction ns with
  | nil => rfl
  | cons n ns ih =>
    cases ns with
    | nil => rfl
    | cons m ns =>
      rw [List.intersperse_cons_cons, commentsAll_cons, commentsAll_cons, ih, hblank, List.nil_append, ← commentsAll_cons]

/-! ## Forms -/

/-- The forms among some nodes, without their labels. -/
def plainForms (ns : List (Node ι)) : List Tree :=
  (ns.filter isForm).map plain

theorem plainForms_append (ns ms : List (Node ι)) : plainForms (ns ++ ms) = plainForms ns ++ plainForms ms := by
  rw [plainForms, List.filter_append, List.map_append, plainForms, plainForms]

theorem plainForms_cons {n : Node ι} (hn : n.isForm = true) (ns : List (Node ι)) :
    plainForms (n :: ns) = n.plain :: plainForms ns := by
  rw [plainForms, List.filter_cons_of_pos hn, List.map_cons, plainForms]

theorem plainForms_cons_trivia {n : Node ι} (hn : n.isForm = false) (ns : List (Node ι)) :
    plainForms (n :: ns) = plainForms ns := by
  rw [plainForms, List.filter_cons_of_neg (by simp [hn]), plainForms]

theorem plainForms_eq_nil {ns : List (Node ι)} (h : ∀ n ∈ ns, n.isForm = false) : plainForms ns = [] := by
  induction ns with
  | nil => rfl
  | cons n ns ih =>
    obtain ⟨hn, hns⟩ := List.forall_mem_cons.mp h
    rw [plainForms_cons_trivia hn, ih hns]

theorem CutsAtForm.plainForms {ns : List (Node ι)} {cut : Cut (Node ι)} (h : CutsAtForm ns cut) :
    Node.plainForms ns = Node.plainForms cut.before ++ cut.focus.plain :: Node.plainForms cut.after := by
  rw [h.whole, plainForms_append, plainForms_cons h.form]

theorem length_plainForms (ns : List (Node ι)) : (plainForms ns).length = formCount ns := by
  rw [plainForms, List.length_map, formCount, List.countP_eq_length_filter]

theorem forms_plain_eq (n : Node ι) : n.plain.forms = plainForms n.children :=
  forms_plain n

theorem plain_kept (n : Cell) : n.kept.plain = n.plain :=
  plain_map some n

theorem plainForms_kept (ns : List Cell) : plainForms (ns.map kept) = plainForms ns := by
  induction ns with
  | nil => rfl
  | cons n ns ih =>
    by_cases hn : n.isForm = true
    · rw [List.map_cons, plainForms_cons ((isForm_kept n).trans hn), plainForms_cons hn, plain_kept, ih]
    · have hn : n.isForm = false := Bool.eq_false_iff.mpr hn
      rw [List.map_cons, plainForms_cons_trivia ((isForm_kept n).trans hn), plainForms_cons_trivia hn, ih]

theorem map_shape_plainForms (ns : List (Node ι)) : (plainForms ns).map shape = shapeAll ns := by
  rw [plainForms, List.map_map, shapeAll_eq]
  exact List.map_congr_left fun n _ => shape_plain n

theorem shape_composite (label : ι) (kind : Kind) (children : List (Node ι)) :
    (composite label kind children).shape =
      .composite () kind ((composite label kind children).plain.forms.map shape) := by
  rw [forms_plain_eq, Node.children, map_shape_plainForms, shape]

end Node

namespace Draft

open Node

theorem shape_spaced (b : Bracket) {ds : List Draft} (hds : ∀ d ∈ ds, d.isForm = true) :
    (spaced b ds).shape = .composite () (.bracket b) (ds.map shape) := by
  rw [spaced, shape, shapeAll_intersperse rfl hds]

theorem comments_spaced (b : Bracket) (ds : List Draft) : (spaced b ds).comments = commentsAll ds := by
  rw [spaced, comments, commentsAll_intersperse rfl]

end Draft

/-! ## Bindings -/

def Tree.symbol (text : Text) : Tree :=
  .atom () ⟨.symbol, text⟩

namespace Node

variable {ns : List Cell} {name : Text} {value : Cell}

theorem isWhitespace_of_isLineBreak {n : Cell} (h : n.isLineBreak = true) : n.isWhitespace = true := by
  cases n with
  | trivia label t =>
    cases t with
    | whitespace text => rfl
    | comment text => cases h
  | _ => cases h

theorem isWhitespace_kept (n : Cell) : n.kept.isWhitespace = n.isWhitespace := by
  rw [← isWhitespace_plain, plain_kept, isWhitespace_plain]

theorem isWhitespace_bindingSeparator (ns : List Cell) : (bindingSeparator ns).isWhitespace = true := by
  rw [bindingSeparator]
  split
  · next n _ =>
    split_ifs with hbreak
    · rw [isWhitespace_kept, isWhitespace_of_isLineBreak hbreak]
    · rfl
  · rfl

theorem comments_of_isWhitespace {ι : Type} {n : Node ι} (h : n.isWhitespace = true) : n.comments = [] := by
  have hall : commentsAll [n] = [] := commentsAll_eq_nil (List.forall_mem_singleton.mpr h)
  rwa [commentsAll_cons, commentsAll, List.append_nil] at hall

theorem plainForms_binding (hvalue : value.isForm = true) (ds : List Draft) :
    plainForms (Draft.symbol name :: Draft.blank :: value.kept :: ds) =
      Tree.symbol name :: value.plain :: plainForms ds := by
  rw [plainForms_cons rfl, plainForms_cons_trivia rfl, plainForms_cons ((isForm_kept value).trans hvalue), plain_kept]
  rfl

theorem forms_appendBinding (hvalue : value.isForm = true) :
    (appendBinding ns name value).plain.forms = plainForms ns ++ [Tree.symbol name, value.plain] := by
  have hsep := isForm_of_isWhitespace (isWhitespace_bindingSeparator ns)
  rw [forms_plain_eq, appendBinding, children]
  cases hcut : cutAtLast? ns with
  | none =>
    have hnone := plainForms_eq_nil (cutAtLast?_eq_none hcut)
    show plainForms (Draft.symbol name :: Draft.blank :: value.kept :: ns.map kept) = _
    rw [plainForms_binding hvalue, plainForms_kept, hnone]
    rfl
  | some cut =>
    obtain ⟨hcuts, hafter⟩ := cutAtLast?_eq_some hcut
    have hnone := plainForms_eq_nil hafter
    show plainForms (cut.before.map kept ++ cut.focus.kept :: bindingSeparator ns :: (Draft.symbol name :: Draft.blank ::
      value.kept :: []) ++ cut.after.map kept) = _
    rw [plainForms_append, plainForms_append, plainForms_kept, plainForms_kept, hnone,
      plainForms_cons ((isForm_kept _).trans hcuts.form), plainForms_cons_trivia hsep, plainForms_binding hvalue,
      plain_kept, hcuts.plainForms, hnone]
    simp [plainForms]

theorem shape_appendBinding (hvalue : value.isForm = true) :
    (appendBinding ns name value).shape =
      .composite () (.bracket .vector) (shapeAll ns ++ [Tree.symbol name, value.shape]) := by
  refine (shape_composite none (.bracket .vector) _).trans ?_
  show composite () (.bracket .vector) ((appendBinding ns name value).plain.forms.map shape) = _
  rw [forms_appendBinding hvalue, List.map_append, map_shape_plainForms, List.map_cons, List.map_cons, shape_plain]
  rfl

theorem forms_insertBinding {pair : Nat} (hvalue : value.isForm = true) (hpair : pair * 2 < formCount ns) :
    (insertBinding ns pair name value).plain.forms =
      (plainForms ns).take (pair * 2) ++ Tree.symbol name :: value.plain :: (plainForms ns).drop (pair * 2) := by
  have hsep := isForm_of_isWhitespace (isWhitespace_bindingSeparator ns)
  rw [forms_plain_eq, insertBinding, children]
  cases hcut : cutAtForm? (pair * 2) ns with
  | none =>
    have hle := cutAtForm?_eq_none_iff.mp hcut
    omega
  | some cut =>
    have hcuts : CutsAtForm ns cut := cutAtForm?_eq_some hcut
    have hcount : (plainForms cut.before).length = pair * 2 := by
      rw [length_plainForms, formCount_cutAtForm? hcut]
    show plainForms (cut.before.map kept ++ (Draft.symbol name :: Draft.blank :: value.kept :: [bindingSeparator ns]) ++
      cut.focus.kept :: cut.after.map kept) = _
    rw [plainForms_append, plainForms_append, plainForms_kept, plainForms_binding hvalue, plainForms_cons_trivia hsep,
      plainForms_cons ((isForm_kept _).trans hcuts.form), plainForms_kept, plain_kept, hcuts.plainForms, ← hcount,
      List.take_left, List.drop_left]
    simp [plainForms]

theorem shape_insertBinding {pair : Nat} (hvalue : value.isForm = true) (hpair : pair * 2 < formCount ns) :
    (insertBinding ns pair name value).shape = .composite () (.bracket .vector)
      ((shapeAll ns).take (pair * 2) ++ Tree.symbol name :: value.shape :: (shapeAll ns).drop (pair * 2)) := by
  refine (shape_composite none (.bracket .vector) _).trans ?_
  show composite () (.bracket .vector) ((insertBinding ns pair name value).plain.forms.map shape) = _
  rw [forms_insertBinding hvalue hpair, List.map_append, List.map_cons, List.map_cons, List.map_take, List.map_drop,
    map_shape_plainForms, shape_plain]
  rfl

theorem comments_binding (ds : List Draft) :
    commentsAll (Draft.symbol name :: Draft.blank :: value.kept :: ds) = value.comments ++ commentsAll ds := by
  rw [commentsAll_cons, commentsAll_cons, commentsAll_cons, comments_kept]
  rfl

theorem comments_appendBinding :
    List.Perm (appendBinding ns name value).comments (commentsAll ns ++ value.comments) := by
  have hsep := comments_of_isWhitespace (isWhitespace_bindingSeparator ns)
  refine List.perm_iff_count.mpr fun text => ?_
  rw [appendBinding, comments]
  cases hcut : cutAtLast? ns with
  | none =>
    show List.count text (commentsAll (Draft.symbol name :: Draft.blank :: value.kept :: ns.map kept)) = _
    rw [comments_binding, commentsAll_map_kept, List.count_append, List.count_append, Nat.add_comm]
  | some cut =>
    obtain ⟨hcuts, -⟩ := cutAtLast?_eq_some hcut
    show List.count text (commentsAll (cut.before.map kept ++ cut.focus.kept :: bindingSeparator ns ::
      (Draft.symbol name :: Draft.blank :: value.kept :: []) ++ cut.after.map kept)) = _
    rw [commentsAll_append, commentsAll_append, commentsAll_map_kept, commentsAll_map_kept, commentsAll_cons,
      commentsAll_cons, comments_binding, comments_kept, hsep, hcuts.commentsAll]
    simp only [List.count_append, commentsAll, List.append_nil, List.nil_append]
    omega

theorem comments_insertBinding {pair : Nat} :
    List.Perm (insertBinding ns pair name value).comments (commentsAll ns ++ value.comments) := by
  have hsep := comments_of_isWhitespace (isWhitespace_bindingSeparator ns)
  refine List.perm_iff_count.mpr fun text => ?_
  rw [insertBinding, comments]
  cases hcut : cutAtForm? (pair * 2) ns with
  | none =>
    show List.count text (commentsAll (ns.map kept ++ (Draft.symbol name :: Draft.blank :: value.kept ::
      [bindingSeparator ns]))) = _
    rw [commentsAll_append, comments_binding, commentsAll_map_kept, commentsAll_cons, hsep]
    simp only [commentsAll, List.append_nil]
  | some cut =>
    have hcuts : CutsAtForm ns cut := cutAtForm?_eq_some hcut
    show List.count text (commentsAll (cut.before.map kept ++ (Draft.symbol name :: Draft.blank :: value.kept ::
      [bindingSeparator ns]) ++ cut.focus.kept :: cut.after.map kept)) = _
    rw [commentsAll_append, commentsAll_append, commentsAll_map_kept, comments_binding, commentsAll_cons,
      commentsAll_cons, commentsAll_map_kept, comments_kept, hsep, hcuts.commentsAll]
    simp only [List.count_append, commentsAll, List.append_nil]
    omega

theorem forms_bindingVector (hvalue : value.isForm = true) :
    (Draft.spaced .vector [Draft.symbol name, value.kept]).plain.forms = [Tree.symbol name, value.plain] := by
  rw [forms_plain_eq]
  exact plainForms_binding hvalue []

theorem forms_wrapInBinding {head : Text} {form : Cell} (hform : form.isForm = true) :
    (wrapInBinding head name value form).plain.forms =
      [Tree.symbol head, (Draft.spaced .vector [Draft.symbol name, value.kept]).plain, form.plain] := by
  rw [forms_plain_eq, wrapInBinding, children, plainForms_cons rfl, plainForms_cons_trivia rfl, plainForms_cons rfl]
  split_ifs <;>
    rw [plainForms_cons_trivia rfl, plainForms_cons ((isForm_kept form).trans hform), plain_kept] <;> rfl

theorem shape_wrapInBinding {head : Text} {form : Cell} (hvalue : value.isForm = true) (hform : form.isForm = true) :
    (wrapInBinding head name value form).shape = .composite () (.bracket .list) [Tree.symbol head,
      .composite () (.bracket .vector) [Tree.symbol name, value.shape], form.shape] := by
  refine (shape_composite none (.bracket .list) _).trans ?_
  show composite () (.bracket .list) ((wrapInBinding head name value form).plain.forms.map shape) = _
  have hitems : ∀ d ∈ [Draft.symbol name, value.kept], d.isForm = true :=
    List.forall_mem_cons.mpr ⟨rfl, List.forall_mem_singleton.mpr ((isForm_kept value).trans hvalue)⟩
  rw [forms_wrapInBinding hform, List.map_cons, List.map_cons, List.map_cons, shape_plain, shape_plain,
    Draft.shape_spaced .vector hitems, List.map_cons, List.map_cons, shape_kept]
  rfl

theorem comments_wrapInBinding {head : Text} {form : Cell} :
    List.Perm (wrapInBinding head name value form).comments (form.comments ++ value.comments) := by
  have hvector : (Draft.spaced .vector [Draft.symbol name, value.kept]).comments = value.comments := by
    rw [Draft.comments_spaced, commentsAll_cons, commentsAll_cons, comments_kept]
    exact List.append_nil _
  rw [wrapInBinding, comments, commentsAll_cons, commentsAll_cons, commentsAll_cons, commentsAll_cons, commentsAll_cons,
    hvector, comments_kept]
  split_ifs <;> simpa [Draft.symbol, Draft.blank, space, newline, comments, commentsAll] using List.perm_append_comm

end Node

/-! ## Replacing -/

namespace Cursor

open Node

variable {c : Cursor} {d : Draft}

/-- Inside a document any form can take the place of another. -/
theorem Steady.replace (hc : c.Steady) (hframes : c.frames ≠ []) (hd : KeepsBelow c.fresh d) (hform : d.isForm = true) :
    ∃ c', c.replace d = .ok c' ∧ c'.Steady ∧ c'.node.plain = d.plain ∧ c'.path = c.path ∧
      Edited Padding (fun m m' => m = c.node.plain ∧ m' = d.plain) c.path c.tree.plain c'.tree.plain := by
  obtain ⟨f, outer, hf⟩ := List.exists_cons_of_ne_nil hframes
  obtain ⟨c', hreplace⟩ : ∃ c', c.replace d = .ok c' := by
    rw [Cursor.replace, checkForm, if_pos hform]
    simp [adopt, hf, bind, Except.bind, pure, Except.pure]
  have hfits : (Operation.replace d).Fits False c.fresh := by
    rintro _ ⟨⟩
    exact ⟨hd, False.elim⟩
  have hc' : c'.Steady := (Operation.replace d).steady_run hc hfits hreplace
  have hpath : c.path ≠ [] := by rw [path_of_frames hf]; simp
  obtain ⟨hsame, hedited⟩ := replace_keeps hc hd hreplace
  rw [if_neg hpath, ← hc.stamps.plain_tree, ← hc'.stamps.plain_tree] at hedited
  refine ⟨c', hreplace, hc', ?_, hsame, hedited⟩
  obtain ⟨-, ⟨hnil, -⟩ | ⟨hnil, -⟩ | ⟨f, outer, -, rfl⟩⟩ := replace_eq_ok rfl hreplace
  · exact absurd hnil hframes
  · exact absurd hnil hframes
  · exact plain_of_stamp hd rfl

end Cursor

end SexprEdit
