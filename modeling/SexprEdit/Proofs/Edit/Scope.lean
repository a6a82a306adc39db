import SexprEdit.Proofs.Edit.Drafts

/-!
# The scope of a binding

Seen without trivia, a binding form is a scope for what stands in its body or inside one of its bindings
(`Tree.Scope`). The search along the frames of a cursor finds the innermost scope on its path, although the frames may be
out of step (`Cursor.site_of_frames`): what tells a binding form is on its outside, and that is never out of date.
-/

namespace SexprEdit

open Node

/-- A list without trivia whose head is the name of a binding form and whose second form is a vector. -/
def Tree.Binds (config : Config) (n : Tree) : Prop :=
  ∃ head bindings body, config.isBindingForm head = true ∧
    n = .composite () (.bracket .list)
      (.atom () ⟨.symbol, head⟩ :: .composite () (.bracket .vector) bindings :: body)

/-- There is a binding form at the end of a path, and `inner` leads on from there, neither through its head nor just to
its vector. -/
structure Tree.Scope (config : Config) (t : Tree) (q inner : List Nat) : Prop where
  binds : ∃ n, t.subtree? q = some n ∧ Tree.Binds config n
  inside : inner ≠ []
  not_head : ∀ rest, inner ≠ 0 :: rest
  not_vector : inner ≠ [1]

/-- Of all scopes on a path the innermost. -/
structure Tree.InnermostScope (config : Config) (t : Tree) (p q inner : List Nat) : Prop where
  path : p = q ++ inner
  scope : Tree.Scope config t q inner
  innermost : ∀ q' inner', p = q' ++ inner' → Tree.Scope config t q' inner' → q'.length ≤ q.length

/-- Where a binding goes that is extracted at the end of a path. The names and patterns of bindings stand at even places
of the vector, their values at odd ones. -/
inductive Tree.Site (config : Config) (t : Tree) (p : List Nat) : Except EditError BindingSite → Prop where
  | top (h : ∀ q inner, p = q ++ inner → ¬ Tree.Scope config t q inner) : Site config t p (.ok .top)
  | pattern {q rest : List Nat} {i : Nat} (h : Tree.InnermostScope config t p q (1 :: 2 * i :: rest)) :
      Site config t p (.error .bindingName)
  | value {q rest : List Nat} {i : Nat} (h : Tree.InnermostScope config t p q (1 :: (2 * i + 1) :: rest)) :
      Site config t p (.ok (.value q.length i))
  | body {q rest : List Nat} {k : Nat} (h : Tree.InnermostScope config t p q (k :: rest)) (hk : 2 ≤ k) :
      Site config t p (.ok (.body q.length))

section

variable {config : Config} {t : Tree} {p q q' inner inner' : List Nat}

theorem Tree.InnermostScope.unique (h : Tree.InnermostScope config t p q inner)
    (h' : Tree.InnermostScope config t p q' inner') : q = q' ∧ inner = inner' := by
  have hle := h.innermost q' inner' h'.path h'.scope
  have hge := h'.innermost q inner h.path h.scope
  exact List.append_inj (h.path.symm.trans h'.path) (Nat.le_antisymm hge hle)

theorem Tree.Site.eq_value {rest : List Nat} {i : Nat} {found : Except EditError BindingSite}
    (h : Tree.Site config t p found) (hscope : Tree.InnermostScope config t p q (1 :: (2 * i + 1) :: rest)) :
    found = .ok (.value q.length i) := by
  cases h with
  | top hnone => exact absurd hscope.scope (hnone q _ hscope.path)
  | pattern hother =>
    have hplace := (List.cons.inj (List.cons.inj (hother.unique hscope).2).2).1
    omega
  | @value q' _ j hother =>
    obtain ⟨rfl, hinner⟩ := hother.unique hscope
    have hplace := (List.cons.inj (List.cons.inj hinner).2).1
    obtain rfl : j = i := by omega
    rfl
  | body hother hk =>
    have hplace := (List.cons.inj (hother.unique hscope).2).1
    omega

theorem Tree.length_lt_of_not_scope (hpath : p = q ++ inner) (hno : ¬ Tree.Scope config t q inner)
    (hle : ∀ q' inner', p = q' ++ inner' → Tree.Scope config t q' inner' → q'.length ≤ q.length)
    (hpath' : p = q' ++ inner') (hscope : Tree.Scope config t q' inner') : q'.length < q.length := by
  refine Nat.lt_of_le_of_ne (hle q' inner' hpath' hscope) fun hlength => ?_
  obtain ⟨rfl, rfl⟩ := List.append_inj (hpath'.symm.trans hpath) hlength
  exact hno hscope

end

namespace Node

variable {ι : Type} {config : Config}

theorem symbol?_eq_some_iff {n : Node ι} {text : Text} : n.symbol? = some text ↔ n.shape = .atom () ⟨.symbol, text⟩ := by
  cases n with
  | atom label a =>
    obtain ⟨kind, spelling⟩ := a
    simp [symbol?, shape]
  | _ => simp [symbol?, shape]

theorem shape_eq_composite {n : Node ι} {kind : Kind} {forms : List Tree} (h : n.shape = .composite () kind forms) :
    ∃ label children, n = .composite label kind children ∧ shapeAll children = forms := by
  cases n with
  | composite label kind' children =>
    rw [shape] at h
    obtain ⟨-, rfl, rfl⟩ := composite.inj h
    exact ⟨label, children, rfl, rfl⟩
  | _ => cases h

theorem isBindingForm_iff {n : Node ι} : n.isBindingForm config = true ↔ Tree.Binds config n.shape := by
  constructor
  · intro h
    rw [isBindingForm.eq_def] at h
    split at h
    · next label children head label' bindings body hforms =>
      obtain ⟨text, hsymbol, htext⟩ : ∃ text, head.symbol? = some text ∧ config.isBindingForm text = true := by
        cases hsymbol : head.symbol? with
        | none => rw [hsymbol] at h; cases h
        | some text => exact ⟨text, rfl, by simpa [hsymbol] using h⟩
      refine ⟨text, shapeAll bindings, body.map shape, htext, ?_⟩
      have hforms : children.filter isForm = head :: .composite label' (.bracket .vector) bindings :: body := hforms
      rw [shape, shapeAll_eq, hforms, List.map_cons, List.map_cons, symbol?_eq_some_iff.mp hsymbol]
      rfl
    · cases h
  · rintro ⟨text, bindings, body, htext, hshape⟩
    obtain ⟨label, children, rfl, hforms⟩ := shape_eq_composite hshape
    rw [shapeAll_eq] at hforms
    obtain ⟨head, others, hfilter, hhead, hothers⟩ := List.map_eq_cons_iff.mp hforms
    obtain ⟨vector, rest, rfl, hvector, -⟩ := List.map_eq_cons_iff.mp hothers
    obtain ⟨label', inner, rfl, -⟩ := shape_eq_composite hvector
    have hforms : (composite label (.bracket .list) children).forms =
        head :: .composite label' (.bracket .vector) inner :: rest := hfilter
    unfold isBindingForm
    rw [hforms]
    simp [symbol?_eq_some_iff.mpr hhead, htext]

end Node

namespace Cursor

variable {config : Config} {n : Cell} {frames : List Frame} {p inner : List Nat}

theorem isBindingForm_fill {f : Frame} (h : f.focus.face = n.face) :
    (f.fill n).isBindingForm config = f.parent.isBindingForm config := by
  have hskin : (f.fill n).skin = f.parent.skin := by
    rw [Frame.fill, Frame.parent, skin, skin, List.map_append, List.map_append, List.map_cons, List.map_cons, h]
  rw [← isBindingForm_skin, hskin, isBindingForm_skin]

theorem length_trail (frames : List Frame) : (trail frames).length = frames.length := by
  rw [trail, List.length_reverse, List.length_map]

/-- The search from some frame outwards, if there is no scope further in. -/
theorem site_of_wholeFrom (hn : frames ≠ [] → n.isForm = true) (hfaced : FacedFrom n frames)
    (hroot : (wholeFrom n frames).isRoot = true) (hp : p = trail frames ++ inner)
    (hinner : ∀ q rest, p = q ++ rest → Tree.Scope config (wholeFrom n frames).shape q rest → q.length < frames.length) :
    Tree.Site config (wholeFrom n frames).shape p (bindingSite config inner.head? frames) := by
  induction frames generalizing n inner with
  | nil =>
    refine .top fun q rest hq hscope => ?_
    have hlt : q.length < 0 := hinner q rest hq hscope
    omega
  | cons f outer ih =>
    cases outer with
    | nil =>
      refine .top fun q rest hq hscope => ?_
      have hlt : q.length < 1 := hinner q rest hq hscope
      obtain rfl : q = [] := List.eq_nil_of_length_eq_zero (by omega)
      -- the document is no list
      obtain ⟨m, hm, head, bindings, body, -, rfl⟩ := hscope.binds
      have hshape := Option.some.inj hm
      have hdocument := (isRoot_shape (wholeFrom n [f])).trans hroot
      rw [hshape] at hdocument
      cases hdocument
    | cons g outer =>
      have hpath : p = trail (g :: outer) ++ f.index :: inner := by
        rw [hp, trail, List.map_cons, List.reverse_cons, List.append_assoc]
        rfl
      have hdepth : outer.length + 1 = (trail (g :: outer)).length := (length_trail (g :: outer)).symm
      have hle : ∀ q rest, p = q ++ rest → Tree.Scope config (wholeFrom n (f :: g :: outer)).shape q rest →
          q.length ≤ (trail (g :: outer)).length := by
        intro q rest hq hscope
        rw [← hdepth]
        exact Nat.le_of_lt_succ (hinner q rest hq hscope)
      have hsub : (wholeFrom n (f :: g :: outer)).shape.subtree? (trail (g :: outer)) = some (f.fill n).shape :=
        subtree?_wholeFrom (n := f.fill n) fun _ => rfl
      -- a composite that is no scope is passed over
      have hpass : ¬ Tree.Scope config (wholeFrom n (f :: g :: outer)).shape (trail (g :: outer)) (f.index :: inner) →
          Tree.Site config (wholeFrom n (f :: g :: outer)).shape p (bindingSite config (some f.index) (g :: outer)) := by
        intro hno
        have hfill : FacedFrom (f.fill n) (g :: outer) := FacedFrom.congr (n := f.parent) rfl hfaced.2
        refine ih (fun _ => rfl) hfill hroot hpath fun q rest hq hscope => ?_
        rw [← length_trail]
        exact Tree.length_lt_of_not_scope hpath hno hle hq hscope
      unfold bindingSite
      by_cases hbinds : f.parent.isBindingForm config = true
      · rw [if_pos hbinds]
        have hbinds : ∃ m, (wholeFrom n (f :: g :: outer)).shape.subtree? (trail (g :: outer)) = some m ∧
            Tree.Binds config m := by
          refine ⟨_, hsub, isBindingForm_iff.mp ?_⟩
          rw [isBindingForm_fill hfaced.1, hbinds]
        split
        · next _ hindex =>
          refine hpass fun hscope => ?_
          rw [hindex] at hscope
          exact hscope.not_head inner rfl
        · next hindex hnone =>
          refine hpass fun hscope => ?_
          rw [hindex, List.head?_eq_none_iff.mp hnone] at hscope
          exact hscope.not_vector rfl
        · next place hindex hsome =>
          obtain ⟨rest, rfl⟩ := List.head?_eq_some_iff.mp hsome
          have hscope := Tree.InnermostScope.mk hpath ⟨hbinds, by simp, by simp [hindex], by simp⟩ hle
          rw [hindex] at hscope
          split_ifs with heven
          · have hplace : place = 2 * (place / 2) := by omega
            rw [hplace] at hscope
            exact .pattern hscope
          · have hplace : place = 2 * (place / 2) + 1 := by omega
            rw [hdepth]
            rw [hplace] at hscope
            exact .value hscope
        · next hzero hvector hbinding =>
          have hone : f.index ≠ 1 := by
            intro hone
            cases hhead : inner.head? with
            | none => exact hvector hone hhead
            | some place => exact hbinding place hone hhead
          have hindex : 2 ≤ f.index := by
            have hzero : f.index ≠ 0 := hzero
            omega
          rw [hdepth]
          refine .body ⟨hpath, ⟨hbinds, List.cons_ne_nil _ _, fun rest hhead => ?_, fun hvector => ?_⟩, hle⟩ hindex
          · exact hzero (List.cons.inj hhead).1
          · exact hone (List.cons.inj hvector).1
      · rw [if_neg hbinds]
        refine hpass fun hscope => ?_
        obtain ⟨m, hm, hother⟩ := hscope.binds
        obtain rfl := Option.some.inj (hsub.symm.trans hm)
        rw [← isBindingForm_iff, isBindingForm_fill hfaced.1] at hother
        exact hbinds hother

/-- The search of a cursor finds the innermost scope on its path. -/
theorem site_of_frames {start : Stamp} {c : Cursor} {t : Tree} (h : Runs False (ofTree start t) c)
    (hroot : c.tree.isRoot = true) :
    Tree.Site config c.tree.shape c.path (bindingSite config none c.frames) := by
  have hc : c.Steady := h.steady (steady_ofTree start t)
  have hwhole : c.whole.isRoot = true := by
    rw [← isRoot_plain, ← hc.stamps.plain_tree, isRoot_plain, hroot]
  have hpath : c.path = trail c.frames ++ [] := (List.append_nil _).symm
  rw [hc.shape_tree, shape_plain]
  refine site_of_wholeFrom hc.form (h.faced (steady_ofTree start t) trivial) hwhole hpath fun q rest hq hscope => ?_
  have hrest := List.length_pos_iff.mpr hscope.inside
  have hlength := congrArg List.length hq
  rw [hpath, List.append_nil, length_trail, List.length_append] at hlength
  omega

end Cursor

end SexprEdit
