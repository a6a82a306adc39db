import SexprEdit.Proofs.Cursor.Order
import SexprEdit.Proofs.Edit.Scope

/-!
# What extraction binds

Extraction makes two edits, at different depths: the name takes the place of the form, and the binding goes into the
vector of the innermost scope, or into a new binding form around the form at the top. Both are changes of one node each
(`Cursor.Steady.editBindings`), so that together they are a change of the tree without trivia that can be written down
(`Outline.Extracted`). Once a site is found nothing fails, since the vector that the site speaks of is there.
-/

namespace SexprEdit

open Node

/-! ## Trees -/

namespace Node

variable {ι : Type}

theorem subtree?_modifyAt (f : Node ι → Node ι) (q r : List Nat) (n : Node ι) :
    subtree? q (modifyAt f (q ++ r) n) = (subtree? q n).map (modifyAt f r) := by
  induction q generalizing n with
  | nil => rfl
  | cons k q ih =>
    cases n with
    | composite label kind children =>
      show (children.modify k (modifyAt f (q ++ r)))[k]?.bind (subtree? q) = (children[k]?.bind (subtree? q)).map _
      rw [List.getElem?_modify_eq]
      cases children[k]? with
      | none => rfl
      | some child => exact ih child
    | _ => rfl

theorem modifyAt_congr {f g : Node ι → Node ι} {p : List Nat} {t n : Node ι} (hn : t.subtree? p = some n)
    (h : f n = g n) : t.modifyAt f p = t.modifyAt g p := by
  induction p generalizing t with
  | nil =>
    obtain rfl := Option.some.inj hn
    exact h
  | cons k p ih =>
    cases t with
    | composite label kind children =>
      obtain ⟨child, hchild, hn⟩ := Option.bind_eq_some_iff.mp hn
      have hchild : children[k]? = some child := hchild
      rw [modifyAt, modifyAt, List.modify_eq_set_getElem?, List.modify_eq_set_getElem?, hchild]
      show composite label kind (children.set k (modifyAt f p child)) =
        composite label kind (children.set k (modifyAt g p child))
      rw [ih hn]
    | _ => rfl

theorem formAt?_append (p q : List Nat) (n : Node ι) : formAt? (p ++ q) n = (formAt? p n).bind (formAt? q) := by
  induction p generalizing n with
  | nil => rfl
  | cons k p ih =>
    rw [List.cons_append, formAt?, formAt?, Option.bind_assoc]
    exact congrArg _ (funext ih)

theorem formAt?_composite {label : ι} {kind : Kind} (front back : List (Node ι)) {n : Node ι} (hn : n.isForm = true)
    (path : List Nat) :
    (composite label kind (front ++ n :: back)).formAt? (formCount front :: path) = n.formAt? path := by
  rw [formAt?, forms, children, List.filter_append, List.filter_cons_of_pos hn, formCount, List.countP_eq_length_filter,
    List.getElem?_append_right (Nat.le_refl _), Nat.sub_self]
  rfl

theorem shape_formAt? (p : List Nat) (n : Node ι) : (n.formAt? p).map shape = n.shape.subtree? p := by
  induction p generalizing n with
  | nil => rfl
  | cons k p ih =>
    have hforms : n.shape.children = n.forms.map shape := by
      cases n with
      | composite label kind children => exact shapeAll_eq children
      | _ => rfl
    rw [formAt?, subtree?, hforms, List.getElem?_map]
    cases n.forms[k]? with
    | none => rfl
    | some child => exact ih child

end Node

theorem Node.Edited.comments_perm {R : Tree → Tree → Prop} {path : List Nat} {t t' : Tree} {lost gained : List Text}
    (hR : ∀ m m', R m m' → List.Perm (m'.comments ++ lost) (m.comments ++ gained)) (h : Edited Padding R path t t') :
    List.Perm (t'.comments ++ lost) (t.comments ++ gained) := by
  induction h with
  | here h => exact hR _ _ h
  | inside kind front back _ _ _ hleft hright _ ih =>
    refine List.perm_iff_count.mpr fun text => ?_
    have hcount := ih.count_eq text
    simp only [Node.comments, commentsAll_append, commentsAll_cons, commentsAll_eq_nil hleft.blank,
      commentsAll_eq_nil hright.blank, List.count_append, List.count_nil] at hcount ⊢
    omega

section

variable {ι κ : Type} {path : List Nat} {t t' old : Node ι} {new : Node κ} {lost gained : List Text}

theorem Node.Edited.shape_replaced
    (h : Edited Padding (fun m m' => m = old.plain ∧ m' = new.plain) path t.plain t'.plain) :
    t'.shape = t.shape.modifyAt (fun _ => new.shape) path := by
  rw [← shape_plain t, ← shape_plain t']
  refine h.shape (fun _ hpad => hpad) ?_
  rintro m m' ⟨-, rfl⟩
  exact shape_plain new

theorem Node.Edited.comments_replaced
    (h : Edited Padding (fun m m' => m = old.plain ∧ m' = new.plain) path t.plain t'.plain)
    (hcomments : List.Perm (new.comments ++ lost) (old.comments ++ gained)) :
    List.Perm (t'.comments ++ lost) (t.comments ++ gained) := by
  rw [← comments_plain t, ← comments_plain t']
  refine h.comments_perm ?_
  rintro m m' ⟨rfl, rfl⟩
  rwa [comments_plain, comments_plain]

end

/-! ## Moves -/

namespace Cursor

variable {c d : Cursor} {q inner : List Nat}

theorem formAt?_wholeFrom {n : Cell} {frames : List Frame} (hn : frames ≠ [] → n.isForm = true) :
    (wholeFrom n frames).formAt? (trail frames) = some n := by
  induction frames generalizing n with
  | nil => rfl
  | cons f outer ih =>
    have hchild : (f.fill n).formAt? [f.index] = some n := formAt?_composite f.before f.after (hn (by simp)) []
    rw [trail, List.map_cons, List.reverse_cons, formAt?_append]
    exact (congrArg (Option.bind · _) (ih (n := f.fill n) fun _ => rfl)).trans hchild

theorem Steady.formAt? (h : c.Steady) : c.tree.plain.formAt? c.path = some c.node.plain := by
  rw [h.stamps.plain_tree, formAt?_plain]
  exact congrArg (Option.map plain) (formAt?_wholeFrom h.form)

theorem Walk.plain_tree (h : Walk c d) (hc : c.Steady) : d.tree.plain = c.tree.plain := by
  rw [(hc.walk h).stamps.plain_tree, h.plain_whole hc.stamps, hc.stamps.plain_tree]

theorem path_eq_nil_iff : c.path = [] ↔ c.frames = [] := by
  simp [path]

theorem frames_ne_nil_of_path {k : Nat} (hpath : c.path = q ++ [k]) : c.frames ≠ [] := by
  refine path_eq_nil_iff.not.mp ?_
  rw [hpath]
  exact List.concat_ne_nil k q

theorem exists_up {k : Nat} (hpath : c.path = q ++ [k]) : ∃ d, c.up = .ok d ∧ Walk c d ∧ d.path = q := by
  cases hframes : c.frames with
  | nil => simp [path, hframes] at hpath
  | cons f outer =>
    obtain ⟨d, hup⟩ : ∃ d, c.up = .ok d := by rw [up, hframes]; exact ⟨_, rfl⟩
    refine ⟨d, hup, Walk.refl.up hup, ?_⟩
    rw [up, hframes] at hup
    obtain rfl := Except.ok.inj hup
    rw [path_of_frames hframes] at hpath
    exact (List.append_inj' hpath rfl).1

theorem exists_upBy (hpath : c.path = q ++ inner) : ∃ d, upBy inner.length c = .ok d ∧ Walk c d ∧ d.path = q := by
  induction inner using List.reverseRecOn generalizing c with
  | nil => exact ⟨c, rfl, .refl, by rw [hpath, List.append_nil]⟩
  | append_singleton inner k ih =>
    rw [← List.append_assoc] at hpath
    obtain ⟨e, hup, hwalk, hpath⟩ := exists_up hpath
    obtain ⟨d, hupBy, hwalk', hpath⟩ := ih hpath
    refine ⟨d, ?_, hwalk.trans hwalk', hpath⟩
    rw [List.length_append, List.length_singleton, upBy, hup]
    exact hupBy

theorem exists_ascend (hpath : c.path = q ++ inner) : ∃ d, c.ascend q.length = .ok d ∧ Walk c d ∧ d.path = q := by
  have hdepth : c.depth - q.length = inner.length := by
    have hlength := congrArg List.length hpath
    rw [List.length_append, path, List.length_reverse, List.length_map] at hlength
    rw [depth]
    omega
  rw [ascend, hdepth]
  exact exists_upBy hpath

theorem exists_second {second : Tree} (hc : c.Steady) (h : c.tree.plain.formAt? (c.path ++ [1]) = some second) :
    ∃ first vector, c.down = .ok first ∧ first.right = .ok vector ∧ Walk c vector ∧ vector.path = c.path ++ [1] ∧
      vector.node.plain = second := by
  have hnode : c.node.plain.formAt? [1] = some second := by
    rwa [formAt?_append, hc.formAt?] at h
  rw [formAt?_plain] at hnode
  obtain ⟨n, hn, -⟩ := Option.map_eq_some_iff.mp hnode
  obtain ⟨vector, hfollow⟩ := exists_follow_of_formAt? hn
  have hwalk : Walk c vector := Walk.refl.follow hfollow
  have hpath : vector.path = c.path ++ [1] := hc.path_follow hfollow
  rw [follow] at hfollow
  obtain ⟨first, hdown, hfollow⟩ := Except.exists_ok_of_bind hfollow
  obtain ⟨next, hrightBy, hfollow⟩ := Except.exists_ok_of_bind hfollow
  obtain rfl := Except.ok.inj hfollow
  rw [rightBy] at hrightBy
  obtain ⟨second, hright, hrest⟩ := Except.exists_ok_of_bind hrightBy
  obtain rfl := Except.ok.inj hrest
  refine ⟨first, second, hdown, hright, hwalk, hpath, ?_⟩
  have hthere := (hc.walk hwalk).formAt?
  rw [hpath, hwalk.plain_tree hc, h] at hthere
  exact (Option.some.inj hthere).symm

theorem Steady.exists_bindingsAt {vector : Tree} (hc : c.Steady) (hpath : c.path = q ++ inner)
    (hvector : c.tree.plain.formAt? (q ++ [1]) = some vector) :
    ∃ v : Cursor, c.bindingsAt q.length = .ok v ∧ v.path = q ++ [1] ∧ v.node.plain = vector := by
  obtain ⟨form, hascend, hwalk, rfl⟩ := exists_ascend hpath
  rw [← hwalk.plain_tree hc] at hvector
  obtain ⟨first, v, hdown, hright, -, hvpath, rfl⟩ := exists_second (hc.walk hwalk) hvector
  refine ⟨v, ?_, hvpath, rfl⟩
  rw [bindingsAt, hascend]
  simp only [bind, Except.bind, hdown, hright]

theorem editBindings_of_bindingsAt {depth : Nat} {edit : List Cell → Draft} {v r : Cursor}
    (hv : c.bindingsAt depth = .ok v) (hreplace : v.replace (edit v.node.children) = .ok r) (hup : r.up = .ok d) :
    c.editBindings depth edit = .ok d := by
  obtain ⟨form, hascend, hv⟩ := Except.exists_ok_of_bind hv
  obtain ⟨first, hdown, hright⟩ := Except.exists_ok_of_bind hv
  rw [Cursor.editBindings, hascend]
  simp only [bind, Except.bind, hdown, hright, hreplace, hup]

/-- The bindings of a form around the cursor can be replaced, and nothing else changes. -/
theorem Steady.editBindings {vector : Tree} {edit : List Cell → Draft} (hc : c.Steady) (hpath : c.path = q ++ inner)
    (hvector : c.tree.plain.formAt? (q ++ [1]) = some vector)
    (hkeeps : ∀ v : Cursor, Walk c v → KeepsBelow v.fresh (edit v.node.children))
    (hform : ∀ ns, (edit ns).isForm = true) :
    ∃ (d : Cursor) (v : Cell), c.editBindings q.length edit = .ok d ∧ d.Steady ∧ d.path = q ∧ v.plain = vector ∧
      d.tree.plain.formAt? (q ++ [1]) = some (edit v.children).plain ∧
        Edited Padding (fun m m' => m = vector ∧ m' = (edit v.children).plain) (q ++ [1]) c.tree.plain d.tree.plain := by
  obtain ⟨v, hv, hvpath, rfl⟩ := hc.exists_bindingsAt hpath hvector
  have hwalk := walk_bindingsAt hv
  obtain ⟨r, hreplace, hr, hrnode, hrpath, hedited⟩ :=
    (hc.walk hwalk).replace (frames_ne_nil_of_path hvpath) (hkeeps v hwalk) (hform v.node.children)
  rw [hvpath] at hrpath hedited
  obtain ⟨d, hup, hdwalk, hdpath⟩ := exists_up hrpath
  refine ⟨d, v.node, editBindings_of_bindingsAt hv hreplace hup, hr.walk hdwalk, hdpath, rfl, ?_, ?_⟩
  · rw [hdwalk.plain_tree hr, ← hrnode, ← hrpath]
    exact hr.formAt?
  · rw [hdwalk.plain_tree hr, ← hwalk.plain_tree hc]
    exact hedited

end Cursor

/-! ## Extraction -/

/-- What extraction makes of a tree without trivia and of the path of the cursor, and where the form stands afterwards.
The name takes the place of the form. In the body of the innermost scope, the binding goes behind the others; inside the
value of binding `i`, it goes in front of that one; without a scope, the form at the top is wrapped in a new binding
form. -/
inductive Outline.Extracted (config : Config) (name : Text) (form : Tree) : Outline → Outline → List Nat → Prop where
  | body {t : Tree} {p q rest : List Nat} {k : Nat} {bindings : List Tree}
      (h : Tree.InnermostScope config t p q (k :: rest)) (hk : 2 ≤ k)
      (hbindings : t.subtree? (q ++ [1]) = some (.composite () (.bracket .vector) bindings)) :
      Extracted config name form ⟨t, p⟩
        ⟨(t.modifyAt (fun _ => Tree.symbol name) p).modifyAt (mapChildren (· ++ [Tree.symbol name, form])) (q ++ [1]), q⟩
        (q ++ [1, bindings.length + 1])
  | value {t : Tree} {p q rest : List Nat} {i : Nat} (h : Tree.InnermostScope config t p q (1 :: (2 * i + 1) :: rest)) :
      Extracted config name form ⟨t, p⟩
        ⟨(t.modifyAt (fun _ => Tree.symbol name) p).modifyAt
          (mapChildren fun bindings => bindings.take (2 * i) ++ Tree.symbol name :: form :: bindings.drop (2 * i))
          (q ++ [1]), q⟩
        (q ++ [1, 2 * i + 1])
  | top {t : Tree} {rest : List Nat} {k : Nat} (h : ∀ q inner, k :: rest = q ++ inner → ¬ Tree.Scope config t q inner) :
      Extracted config name form ⟨t, k :: rest⟩
        ⟨(t.modifyAt (fun _ => Tree.symbol name) (k :: rest)).modifyAt (fun top => .composite () (.bracket .list)
          [Tree.symbol (config.bindingForms.head?.getD "let".toList),
            .composite () (.bracket .vector) [Tree.symbol name, form], top]) [k], [k]⟩
        [k, 1, 1]

namespace Cursor

variable {c r d : Cursor} {config : Config} {name : Text} {q inner rest : List Nat}

/-- What a cursor is after the name took the place of the form: at the same path, in a tree that differs there only. -/
structure Referenced (name : Text) (c r : Cursor) : Prop where
  replaced : c.replace (Draft.symbol name) = .ok r
  steady : r.Steady
  path : r.path = c.path
  edited : Edited Padding (fun m m' => m = c.node.plain ∧ m' = (Draft.symbol name).plain) c.path c.tree.plain r.tree.plain
  below : c.node.Below r.fresh

theorem Steady.exists_referenced (hc : c.Steady) (hframes : c.frames ≠ []) (name : Text) : ∃ r, Referenced name c r := by
  have hname : Draft.Fits False c.fresh (Draft.symbol name) := Draft.fits_atom _
  obtain ⟨r, hreplace, hr, -, hpath, hedited⟩ := hc.replace hframes hname.keeps rfl
  have hfits : (Operation.replace (Draft.symbol name)).Fits False c.fresh := by
    rintro _ ⟨⟩
    exact hname
  exact ⟨r, hreplace, hr, hpath, hedited, hc.stamps.below.mono (Operation.fresh_le_run hc hfits hreplace)⟩

theorem Referenced.shape (h : Referenced name c r) :
    r.tree.shape = c.tree.shape.modifyAt (fun _ => Tree.symbol name) c.path :=
  h.edited.shape_replaced

theorem Referenced.comments (h : Referenced name c r) :
    List.Perm (r.tree.comments ++ c.node.comments) c.tree.comments := by
  have hname : List.Perm ((Draft.symbol name).comments ++ c.node.comments) (c.node.comments ++ []) := by
    rw [List.append_nil]
    exact List.Perm.refl _
  simpa using h.edited.comments_replaced hname

theorem Referenced.fits {v : Cursor} (h : Referenced name c r) (hwalk : Walk r v) :
    v.InOrder False ∧ Draft.Fits False v.fresh c.node.kept :=
  ⟨⟨h.steady.walk hwalk, False.elim⟩, Draft.fits_kept_iff.mpr ⟨h.below.mono hwalk.fresh_le, False.elim⟩⟩

theorem Steady.exists_editBindings {bindings : List Tree} {edit : List Cell → Draft} {gained : List Text} (hc : c.Steady)
    (hpath : c.path = q ++ inner)
    (hvector : c.tree.shape.subtree? (q ++ [1]) = some (.composite () (.bracket .vector) bindings))
    (hkeeps : ∀ v : Cursor, Walk c v → KeepsBelow v.fresh (edit v.node.children))
    (hform : ∀ ns, (edit ns).isForm = true)
    (hgained : ∀ ns, List.Perm (edit ns).comments (commentsAll ns ++ gained)) :
    ∃ (d : Cursor) (ns : List Cell), c.editBindings q.length edit = .ok d ∧ d.path = q ∧ shapeAll ns = bindings ∧
      d.tree.plain.formAt? (q ++ [1]) = some (edit ns).plain ∧
        d.tree.shape = c.tree.shape.modifyAt (fun _ => (edit ns).shape) (q ++ [1]) ∧
          List.Perm d.tree.comments (c.tree.comments ++ gained) := by
  rw [← shape_plain, ← shape_formAt?] at hvector
  obtain ⟨vector, hvector, hshape⟩ := Option.map_eq_some_iff.mp hvector
  obtain ⟨d, v, hedit, -, hdpath, rfl, hplace, hedited⟩ := hc.editBindings hpath hvector hkeeps hform
  rw [shape_plain] at hshape
  obtain ⟨label, ns, rfl, rfl⟩ := shape_eq_composite hshape
  refine ⟨d, ns, hedit, hdpath, rfl, hplace, ?_, ?_⟩
  · exact hedited.shape_replaced
  · have hvector : List.Perm ((edit ns).comments ++ []) (commentsAll ns ++ gained) := by
      rw [List.append_nil]
      exact hgained ns
    simpa using hedited.comments_replaced hvector

theorem formAt?_binding {t vector : Tree} {n : Nat} {forms : List Tree} {value : Tree}
    (hvector : t.formAt? (q ++ [1]) = some vector) (hforms : vector.forms = forms) (hvalue : forms[n]? = some value) :
    t.formAt? (q ++ [1, n]) = some value := by
  rw [show q ++ [1, n] = (q ++ [1]) ++ [n] by simp, formAt?_append, hvector]
  show vector.forms[n]?.bind _ = _
  rw [hforms, hvalue]
  rfl

end Cursor

/-! ## The vector of a scope -/

namespace Tree.Scope

variable {config : Config} {t : Tree} {q rest : List Nat} {k : Nat}

theorem vector_of_body (h : Tree.Scope config t q (k :: rest)) (hk : 2 ≤ k) (f : Tree → Tree) :
    ∃ bindings, t.subtree? (q ++ [1]) = some (.composite () (.bracket .vector) bindings) ∧
      (t.modifyAt f (q ++ k :: rest)).subtree? (q ++ [1]) = some (.composite () (.bracket .vector) bindings) := by
  obtain ⟨n, hn, head, bindings, body, -, rfl⟩ := h.binds
  refine ⟨bindings, by rw [subtree?_append, hn]; rfl, ?_⟩
  rw [subtree?_append, subtree?_modifyAt, hn]
  obtain ⟨k, rfl⟩ : ∃ j, k = j + 2 := ⟨k - 2, by omega⟩
  rfl

theorem vector_of_binding (h : Tree.Scope config t q (1 :: k :: rest)) (f : Tree → Tree) :
    ∃ bindings, t.subtree? (q ++ [1]) = some (.composite () (.bracket .vector) bindings) ∧
      (t.modifyAt f (q ++ 1 :: k :: rest)).subtree? (q ++ [1]) =
        some (.composite () (.bracket .vector) (bindings.modify k (modifyAt f rest))) := by
  obtain ⟨n, hn, head, bindings, body, -, rfl⟩ := h.binds
  refine ⟨bindings, by rw [subtree?_append, hn]; rfl, ?_⟩
  rw [subtree?_append, subtree?_modifyAt, hn]
  rfl

end Tree.Scope

namespace Cursor

variable {c r d : Cursor} {config : Config} {name text : Text} {q rest : List Nat} {k i : Nat}

theorem isRoot_of_frames (hframes : c.frames ≠ []) : c.isRoot = false := by
  rw [Cursor.isRoot, List.isEmpty_eq_false_iff]
  exact hframes

theorem extract_of_pattern (hframes : c.frames ≠ []) (hname : Atom.read name = .ok ⟨.symbol, text⟩)
    (hsite : bindingSite config none c.frames = .error .bindingName) :
    c.extract config name = .error .bindingName := by
  rw [extract, isRoot_of_frames hframes, hname, hsite]
  rfl

theorem extract_of_body {depth : Nat} (hframes : c.frames ≠ []) (hname : Atom.read name = .ok ⟨.symbol, text⟩)
    (hsite : bindingSite config none c.frames = .ok (.body depth)) (hreplace : c.replace (Draft.symbol name) = .ok r)
    (hedit : r.editBindings depth (fun bindings => appendBinding bindings name c.node) = .ok d) :
    c.extract config name = .ok d := by
  rw [extract, isRoot_of_frames hframes, hname, hsite]
  simp only [bind, Except.bind, hreplace, hedit]
  rfl

theorem extract_of_value {depth : Nat} (hframes : c.frames ≠ []) (hname : Atom.read name = .ok ⟨.symbol, text⟩)
    (hsite : bindingSite config none c.frames = .ok (.value depth i)) (hreplace : c.replace (Draft.symbol name) = .ok r)
    (hedit : r.editBindings depth (fun bindings => insertBinding bindings i name c.node) = .ok d) :
    c.extract config name = .ok d := by
  rw [extract, isRoot_of_frames hframes, hname, hsite]
  simp only [bind, Except.bind, hreplace, hedit]
  rfl

theorem extract_of_top {top : Cursor} (hframes : c.frames ≠ []) (hname : Atom.read name = .ok ⟨.symbol, text⟩)
    (hsite : bindingSite config none c.frames = .ok .top) (hreplace : c.replace (Draft.symbol name) = .ok r)
    (hascend : r.ascend 1 = .ok top)
    (hedit : top.replace (wrapInBinding config.bindingHead name c.node top.node) = .ok d) :
    c.extract config name = .ok d := by
  rw [extract, isRoot_of_frames hframes, hname, hsite]
  simp only [bind, Except.bind, hreplace, hascend]
  rw [hedit]
  rfl

/-- What extraction brings about: the tree without trivia is the one that it should be, the form stands in it as it was,
and no comment is lost. -/
structure Extracts (config : Config) (name : Text) (c d : Cursor) (place : List Nat) : Prop where
  outline : Outline.Extracted config name c.node.shape c.outline d.outline place
  form : d.tree.plain.formAt? place = some c.node.plain
  comments : List.Perm d.tree.comments c.tree.comments

theorem exists_extract_body (hc : c.Steady) (hframes : c.frames ≠ []) (hname : Atom.read name = .ok ⟨.symbol, text⟩)
    (hsite : bindingSite config none c.frames = .ok (.body q.length))
    (hscope : Tree.InnermostScope config c.tree.shape c.path q (k :: rest)) (hk : 2 ≤ k) :
    ∃ d place, c.extract config name = .ok d ∧ Extracts config name c d place := by
  have hvalue : c.node.isForm = true := hc.form hframes
  obtain ⟨r, hr⟩ := hc.exists_referenced hframes name
  obtain ⟨bindings, hold, hnew⟩ := hscope.scope.vector_of_body hk fun _ => Tree.symbol name
  rw [← hscope.path, ← hr.shape] at hnew
  obtain ⟨d, ns, hedit, hpath, rfl, hvector, hshape, hcomments⟩ :=
    hr.steady.exists_editBindings (hr.path.trans hscope.path) hnew
      (fun v hwalk => (Draft.fits_appendBinding (hr.fits hwalk).1.children (hr.fits hwalk).2).keeps)
      (fun _ => rfl) (fun _ => comments_appendBinding)
  refine ⟨d, q ++ [1, (shapeAll ns).length + 1], extract_of_body hframes hname hsite hr.replaced hedit, ?_, ?_,
    hcomments.trans hr.comments⟩
  · have hchange : d.tree.shape =
        r.tree.shape.modifyAt (mapChildren (· ++ [Tree.symbol name, c.node.shape])) (q ++ [1]) :=
      hshape.trans (modifyAt_congr hnew (shape_appendBinding hvalue))
    rw [outline, outline, hpath, hchange, hr.shape]
    exact .body hscope hk hold
  · refine formAt?_binding hvector (forms_appendBinding hvalue) ?_
    rw [length_shapeAll, ← length_plainForms]
    simp

theorem exists_extract_value (hc : c.Steady) (hframes : c.frames ≠ []) (hname : Atom.read name = .ok ⟨.symbol, text⟩)
    (hsite : bindingSite config none c.frames = .ok (.value q.length i))
    (hscope : Tree.InnermostScope config c.tree.shape c.path q (1 :: (2 * i + 1) :: rest)) :
    ∃ d place, c.extract config name = .ok d ∧ Extracts config name c d place := by
  have hvalue : c.node.isForm = true := hc.form hframes
  obtain ⟨r, hr⟩ := hc.exists_referenced hframes name
  obtain ⟨bindings, hold, hnew⟩ := hscope.scope.vector_of_binding fun _ => Tree.symbol name
  -- the path goes through the value, so there are that many forms in the vector
  have hlength : 2 * i + 1 < bindings.length := by
    have hthere := hc.subtree?
    rw [← shape_plain, ← hc.shape_tree, hscope.path, show q ++ 1 :: (2 * i + 1) :: rest =
      (q ++ [1]) ++ (2 * i + 1) :: rest by simp, subtree?_append, hold, Option.bind_some] at hthere
    obtain ⟨child, hchild, -⟩ := Option.bind_eq_some_iff.mp hthere
    exact (List.getElem?_eq_some_iff.mp hchild).1
  rw [← hscope.path, ← hr.shape] at hnew
  obtain ⟨d, ns, hedit, hpath, hns, hvector, hshape, hcomments⟩ :=
    hr.steady.exists_editBindings (hr.path.trans hscope.path) hnew
      (fun v hwalk => (Draft.fits_insertBinding (hr.fits hwalk).1.children (hr.fits hwalk).2).keeps)
      (fun _ => rfl) (fun _ => comments_insertBinding)
  have hcount : i * 2 + 1 < formCount ns := by
    rw [← length_shapeAll, hns, List.length_modify]
    omega
  refine ⟨d, q ++ [1, 2 * i + 1], extract_of_value hframes hname hsite hr.replaced hedit, ?_, ?_,
    hcomments.trans hr.comments⟩
  · have hinsert : (insertBinding ns i name c.node).shape = mapChildren (fun bindings => bindings.take (2 * i) ++
        Tree.symbol name :: c.node.shape :: bindings.drop (2 * i)) (.composite () (.bracket .vector) (shapeAll ns)) := by
      rw [shape_insertBinding hvalue (by omega), Nat.mul_comm i 2]
      rfl
    rw [← hns] at hnew
    rw [outline, outline, hpath, hshape, modifyAt_congr hnew hinsert, hr.shape]
    exact .value hscope
  · refine formAt?_binding hvector (forms_insertBinding hvalue (by omega)) ?_
    have htake : ((plainForms ns).take (i * 2)).length = i * 2 := by
      rw [List.length_take, length_plainForms]
      omega
    rw [List.getElem?_append_right (by omega), htake, show 2 * i + 1 - i * 2 = 1 by omega]
    rfl

theorem exists_extract_top (hc : c.Steady) (hframes : c.frames ≠ []) (hname : Atom.read name = .ok ⟨.symbol, text⟩)
    (hsite : bindingSite config none c.frames = .ok .top)
    (hnone : ∀ q inner, c.path = q ++ inner → ¬ Tree.Scope config c.tree.shape q inner) :
    ∃ d place, c.extract config name = .ok d ∧ Extracts config name c d place := by
  have hvalue : c.node.isForm = true := hc.form hframes
  obtain ⟨r, hr⟩ := hc.exists_referenced hframes name
  obtain ⟨k, rest, hcpath⟩ : ∃ k rest, c.path = k :: rest :=
    List.exists_cons_of_ne_nil (path_eq_nil_iff.not.mpr hframes)
  have hrpath : r.path = [k] ++ rest := hr.path.trans hcpath
  obtain ⟨top, hascend, hwalk, hpath⟩ := exists_ascend hrpath
  have htop := hr.steady.walk hwalk
  have htopFrames : top.frames ≠ [] := frames_ne_nil_of_path (q := []) hpath
  have hform : top.node.isForm = true := htop.form htopFrames
  obtain ⟨horder, hkept⟩ := hr.fits hwalk
  have hfits : Draft.Fits False top.fresh (wrapInBinding config.bindingHead name c.node top.node) :=
    Draft.fits_wrapInBinding hkept (horder.node htopFrames)
  obtain ⟨d, hedit, hd, hnode, hdpath, hedited⟩ := htop.replace htopFrames hfits.keeps rfl
  rw [hpath] at hdpath
  rw [hpath, hwalk.plain_tree hr.steady] at hedited
  refine ⟨d, [k, 1, 1], extract_of_top hframes hname hsite hr.replaced hascend hedit, ?_, ?_, ?_⟩
  · have hthere : r.tree.shape.subtree? [k] = some top.node.shape := by
      rw [← hpath, ← shape_plain r.tree, ← hwalk.plain_tree hr.steady, htop.stamps.plain_tree, shape_plain]
      exact htop.subtree?
    have hwrap : d.tree.shape = r.tree.shape.modifyAt (fun top => .composite () (.bracket .list)
        [Tree.symbol (config.bindingForms.head?.getD "let".toList),
          .composite () (.bracket .vector) [Tree.symbol name, c.node.shape], top]) [k] :=
      hedited.shape_replaced.trans (modifyAt_congr hthere (shape_wrapInBinding hvalue hform))
    rw [outline, outline, hdpath, hwrap, hr.shape, hcpath]
    rw [hcpath] at hnone
    exact .top hnone
  · have hplace := hd.formAt?
    rw [hdpath, hnode] at hplace
    rw [show [k, 1, 1] = [k] ++ [1, 1] from rfl, formAt?_append, hplace]
    show (wrapInBinding config.bindingHead name c.node top.node).plain.forms[1]?.bind (Node.formAt? [1]) = _
    rw [forms_wrapInBinding hform]
    show (Draft.spaced .vector [Draft.symbol name, c.node.kept]).plain.forms[1]?.bind (Node.formAt? []) = _
    rw [forms_bindingVector hvalue]
    rfl
  · have hwrap : List.Perm ((wrapInBinding config.bindingHead name c.node top.node).comments ++ [])
        (top.node.comments ++ c.node.comments) := by
      rw [List.append_nil]
      exact comments_wrapInBinding
    have hcomments := hedited.comments_replaced hwrap
    rw [List.append_nil] at hcomments
    exact hcomments.trans hr.comments

theorem extract_of_root (hframes : c.frames = []) : c.extract config name = .error .noEnclosingScope := by
  have hroot : c.isRoot = true := by rw [Cursor.isRoot, hframes]; rfl
  rw [extract, hroot]
  rfl

theorem extract_of_not_symbol (hframes : c.frames ≠ []) (hname : ∀ text, Atom.read name ≠ .ok ⟨.symbol, text⟩) :
    c.extract config name =
      .error (.invalidFragment ("binding name must be a symbol, got '" ++ String.ofList name ++ "'")) := by
  rw [extract, isRoot_of_frames hframes]
  cases hread : Atom.read name with
  | error err => rfl
  | ok a =>
    obtain ⟨kind, text⟩ := a
    cases kind with
    | symbol => exact absurd hread (hname text)
    | _ => rfl

/-- With a name that is a symbol, extraction inside a document comes out in one of two ways. -/
theorem extract_outcomes {start : Stamp} {t : Tree} (h : Runs False (ofTree start t) c)
    (hroot : c.tree.isRoot = true) (hframes : c.frames ≠ []) (hname : Atom.read name = .ok ⟨.symbol, text⟩) :
    (c.extract config name = .error .bindingName ∧
        ∃ q i rest, Tree.InnermostScope config c.tree.shape c.path q (1 :: 2 * i :: rest)) ∨
      ((¬ ∃ q i rest, Tree.InnermostScope config c.tree.shape c.path q (1 :: 2 * i :: rest)) ∧
        ∃ d place, c.extract config name = .ok d ∧ Extracts config name c d place) := by
  have hc : c.Steady := h.steady (steady_ofTree start t)
  have hsite : Tree.Site config c.tree.shape c.path (bindingSite config none c.frames) := site_of_frames h hroot
  generalize hfound : bindingSite config none c.frames = found at hsite
  cases hsite with
  | top hnone =>
    refine .inr ⟨?_, exists_extract_top hc hframes hname hfound hnone⟩
    rintro ⟨q, i, rest, hscope⟩
    exact hnone q _ hscope.path hscope.scope
  | pattern hscope => exact .inl ⟨extract_of_pattern hframes hname hfound, _, _, _, hscope⟩
  | value hscope =>
    refine .inr ⟨?_, exists_extract_value hc hframes hname hfound hscope⟩
    rintro ⟨q, i, rest, hother⟩
    have hplace := (List.cons.inj (List.cons.inj (hother.unique hscope).2).2).1
    omega
  | body hscope hk =>
    refine .inr ⟨?_, exists_extract_body hc hframes hname hfound hscope hk⟩
    rintro ⟨q, i, rest, hother⟩
    have hplace := (List.cons.inj (hother.unique hscope).2).1
    omega

/-- Extraction does what it says. It fails at the root; else if the name is not a symbol; else exactly if the innermost
scope has the form in the name or pattern of a binding. Otherwise it succeeds: without trivia the tree is the one that it
should be, the form itself stands where it was bound as it was before, and no comment is lost. -/
theorem extract_binds {start : Stamp} {t : Tree} (config : Config) (name : Text)
    (h : Runs False (ofTree start t) c) (hroot : c.tree.isRoot = true) :
    (c.extract config name = .error .noEnclosingScope ↔ c.path = []) ∧
      (c.path ≠ [] → (c.extract config name =
          .error (.invalidFragment ("binding name must be a symbol, got '" ++ String.ofList name ++ "'")) ↔
        ∀ text, Atom.read name ≠ .ok ⟨.symbol, text⟩)) ∧
      (c.path ≠ [] → (∃ text, Atom.read name = .ok ⟨.symbol, text⟩) →
        (c.extract config name = .error .bindingName ↔
          ∃ q i rest, Tree.InnermostScope config c.tree.shape c.path q (1 :: 2 * i :: rest)) ∧
        ((¬ ∃ q i rest, Tree.InnermostScope config c.tree.shape c.path q (1 :: 2 * i :: rest)) →
          ∃ d place, c.extract config name = .ok d ∧
            Outline.Extracted config name c.node.shape c.outline d.outline place ∧
              d.tree.plain.formAt? place = some c.node.plain ∧ List.Perm d.tree.comments c.tree.comments)) := by
  by_cases hframes : c.frames = []
  · have hpath : c.path = [] := path_eq_nil_iff.mpr hframes
    exact ⟨iff_of_true (extract_of_root hframes) hpath, fun hne => absurd hpath hne, fun hne => absurd hpath hne⟩
  have hpath : c.path ≠ [] := path_eq_nil_iff.not.mpr hframes
  by_cases hname : ∃ text, Atom.read name = .ok ⟨.symbol, text⟩
  · have hsymbol : ¬ ∀ text, Atom.read name ≠ .ok ⟨.symbol, text⟩ := fun hnone => hname.elim hnone
    obtain ⟨text, hread⟩ := hname
    rcases extract_outcomes h hroot hframes hread with ⟨hresult, hpattern⟩ | ⟨hpattern, d, place, hresult, hextracts⟩
    · rw [hresult]
      exact ⟨iff_of_false (by simp) hpath, fun _ => iff_of_false (by simp) hsymbol,
        fun _ _ => ⟨iff_of_true rfl hpattern, fun hno => absurd hpattern hno⟩⟩
    · rw [hresult]
      exact ⟨iff_of_false (by simp) hpath, fun _ => iff_of_false (by simp) hsymbol,
        fun _ _ => ⟨iff_of_false (by simp) hpattern,
          fun _ => ⟨d, place, rfl, hextracts.outline, hextracts.form, hextracts.comments⟩⟩⟩
  · have hnone : ∀ text, Atom.read name ≠ .ok ⟨.symbol, text⟩ := fun text hread => hname ⟨text, hread⟩
    rw [extract_of_not_symbol hframes hnone]
    exact ⟨iff_of_false (by simp) hpath, fun _ => iff_of_true rfl hnone, fun _ hread => absurd hread hname⟩

/-- A form inside the value of the first binding, behind a comment. -/
theorem extract_binds_value :
    ∃ c, Runs False (ofTree (Supply.outside 0).first
        (.root [.composite () (.bracket .list) [.atom () ⟨.symbol, "let".toList⟩,
        .composite () (.bracket .vector) [.atom () ⟨.symbol, ['a']⟩, .composite () (.bracket .list)
          [.atom () ⟨.symbol, ['f']⟩, .trivia () (.comment [';']), .trivia () (.whitespace ['\n']),
            .atom () ⟨.keyword, [':', 'k']⟩]], .atom () ⟨.symbol, ['a']⟩]])) c ∧
      c.tree.isRoot = true ∧ c.path = [0, 1, 1, 1] ∧
        ∃ d place, c.extract {} ['x'] = .ok d ∧ d.source = "(let[x :k a(f;\nx)]a)".toList ∧
          Outline.Extracted {} ['x'] c.node.shape c.outline d.outline place ∧
            d.tree.plain.formAt? place = some c.node.plain := by
  have hreach : Runs False (ofTree (Supply.outside 0).first
      (.root [.composite () (.bracket .list) [.atom () ⟨.symbol, "let".toList⟩,
      .composite () (.bracket .vector) [.atom () ⟨.symbol, ['a']⟩, .composite () (.bracket .list)
        [.atom () ⟨.symbol, ['f']⟩, .trivia () (.comment [';']), .trivia () (.whitespace ['\n']),
          .atom () ⟨.keyword, [':', 'k']⟩]], .atom () ⟨.symbol, ['a']⟩]])) _ :=
    Runs.refl.step (.goto [0, 1, 1, 1]) (by rintro d ⟨⟩) rfl
  obtain ⟨-, -, hbinds⟩ := extract_binds {} ['x'] hreach rfl
  obtain ⟨hpattern, hextract⟩ := hbinds (by decide +kernel) ⟨['x'], rfl⟩
  refine ⟨_, hreach, rfl, rfl, ?_⟩
  generalize hresult : extract _ _ _ = result at hpattern hextract ⊢
  have hsource : result.toOption.map Cursor.source = some "(let[x :k a(f;\nx)]a)".toList := by
    rw [← hresult]
    decide +kernel
  have hok : result ≠ .error .bindingName := by
    rintro rfl
    cases hsource
  obtain ⟨d, place, rfl, hextracted, hform, -⟩ := hextract fun hpatterns => hok (hpattern.mpr hpatterns)
  exact ⟨d, place, rfl, Option.some.inj hsource, hextracted, hform⟩

end Cursor

end SexprEdit
