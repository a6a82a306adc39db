import SexprEdit.Proofs.Edit.Binding
import SexprEdit.Proofs.Reader.Excerpt

/-!
# When extraction reads back

Extraction inside the value of a binding puts its own binding right in front of that one, with no gap in front of the
name. So the name meets whatever stands before the pattern there. That is the one seam that can go wrong: after an
extraction a document reads back as the tree that it is exactly if this seam needs no gap
(`Document.extract_reads_back_iff`). The name takes the place of a form further back in the same vector, so the seam can
be told from the document before the extraction (`Cursor.NameClear`).
-/

namespace SexprEdit

open Node

/-! ## In front of a change -/

namespace Node

variable {ι : Type}

theorem children_plain (n : Node ι) : n.plain.children = n.children.map plain := by
  cases n with
  | composite label kind ns => rw [plain_composite, children, children]
  | _ => rfl

variable {pad : List Tree → Prop} {R : Tree → Tree → Prop} {t t' : Tree}

theorem Edited.formAt? (hpad : ∀ ns, pad ns → Padding ns) {q r : List Nat} (h : Edited pad R (q ++ r) t t') :
    ∃ m m', t.formAt? q = some m ∧ t'.formAt? q = some m' ∧ Edited pad R r m m' := by
  induction q generalizing t t' with
  | nil => exact ⟨t, t', rfl, rfl, h⟩
  | cons k q ih =>
    rw [List.cons_append] at h
    cases h with
    | @inside kind front back left right n n' _ h hn hn' hleft hright hend =>
      obtain ⟨m, m', hm, hm', hinner⟩ := ih h
      have hcount : formCount (front ++ left) = formCount front := by
        rw [formCount_append, formCount_eq_zero fun b hb => isForm_of_isWhitespace ((hpad left hleft).blank b hb),
          Nat.add_zero]
      refine ⟨m, m', (formAt?_composite front back hn q).trans hm, ?_, hinner⟩
      rw [← hcount]
      exact (formAt?_composite (front ++ left) (right ++ back) hn' q).trans hm'

theorem Edited.lt_formCount {kind : Kind} {ns : List Tree} {k : Nat} {path : List Nat}
    (h : Edited pad R (k :: path) (.composite () kind ns) t') : k < formCount ns := by
  generalize ht : composite () kind ns = t at h
  cases h with
  | inside kind' front back _ hn _ _ _ _ =>
    obtain ⟨-, -, rfl⟩ := composite.inj ht
    rw [formCount_append, formCount_cons_eq, if_pos hn]
    omega

theorem Edited.front {kind : Kind} {before after : List Tree} {n : Tree} {k : Nat} {path : List Nat}
    (hk : formCount before < k) (h : Edited pad R (k :: path) (.composite () kind (before ++ n :: after)) t') :
    ∃ after', t' = .composite () kind (before ++ n :: after') := by
  generalize ht : composite () kind (before ++ n :: after) = t at h
  cases h with
  | @inside kind' front back left right m m' _ _ _ _ _ _ _ =>
    obtain ⟨-, rfl, hchildren⟩ := composite.inj ht
    -- the changed child is behind the form
    obtain ⟨rest, rfl⟩ : ∃ rest, front = before ++ n :: rest := by
      rcases List.append_eq_append_iff.mp hchildren with ⟨rest, rfl, hrest⟩ | ⟨rest, rfl, hrest⟩
      · cases rest with
        | nil => simp at hk
        | cons n' rest =>
          obtain ⟨rfl, -⟩ := List.cons.inj hrest
          exact ⟨rest, rfl⟩
      · rw [formCount_append] at hk
        omega
    exact ⟨rest ++ left ++ m' :: (right ++ back), by simp⟩

end Node

/-! ## The seam in front of the name -/

/-- Where extraction puts its binding in front of another one, the name needs no gap to the node before the pattern
there. -/
def Cursor.NameClear (config : Config) (name : Text) (c : Cursor) : Prop :=
  ∀ q i rest before pattern after, Tree.InnermostScope config c.tree.shape c.path q (1 :: (2 * i + 1) :: rest) →
    c.tree.plain.formAt? (q ++ [1]) = some (.composite () (.bracket .vector) (before ++ pattern :: after)) →
      pattern.isForm = true → formCount before = 2 * i →
        needsGap (.bracket .vector) before.getLast? (some (Tree.symbol name)) = false

namespace Node

variable {ns : List Cell} {name : Text} {value : Cell} {pair : Nat}

theorem runsInto_symbol (left : Option Cell) (name : Text) :
    runsInto (.bracket .vector) (left.map kept) (some (Draft.symbol name)) =
      needsGap (.bracket .vector) (left.map plain) (some (Tree.symbol name)) := by
  have hleft : runsInto (.bracket .vector) (left.map kept) (some (Draft.symbol name)) =
      runsInto (.bracket .vector) (left.map plain) (some (Tree.symbol name)) := by
    rw [← runsInto_map fun _ => (), Option.map_map]
    exact congrArg (fun f => runsInto _ (Option.map f left) _) (funext plain_kept)
  rw [hleft, runsInto, needsGap]
  simp [Tree.symbol, isForm]

theorem clearAt_iff {before after : List Tree} {pattern : Tree} (hns : ns.map plain = before ++ pattern :: after)
    (hpattern : pattern.isForm = true) (hbefore : formCount before = 2 * pair) :
    clearAt ns pair name = true ↔ needsGap (.bracket .vector) before.getLast? (some (Tree.symbol name)) = false := by
  obtain ⟨front, back, rfl, rfl, hback⟩ := List.map_eq_append_iff.mp hns
  obtain ⟨n, back, rfl, rfl, rfl⟩ := List.map_eq_cons_iff.mp hback
  rw [isForm_plain] at hpattern
  have hcount : formCount front = pair * 2 := by
    rw [← formCount_map_plain, hbefore, Nat.mul_comm]
  rw [clearAt, ← hcount, cutAtForm?_append front back hpattern]
  simp only [Bool.not_eq_true', runsInto_symbol, List.getLast?_map]

theorem clearAt_of_spaced (h : (insertBinding ns pair name value).Spaced) : clearAt ns pair name = true := by
  rw [insertBinding] at h
  rw [clearAt]
  cases hcut : cutAtForm? (pair * 2) ns with
  | none =>
    rw [hcut] at h
    obtain ⟨-, -, hseam, -⟩ := spaced_append_iff.mp h
    rw [List.getLast?_map] at hseam
    exact congrArg not hseam
  | some cut =>
    rw [hcut] at h
    simp only [List.append_assoc] at h
    obtain ⟨-, -, hseam, -⟩ := spaced_append_iff.mp h
    rw [List.getLast?_map] at hseam
    exact congrArg not hseam

end Node

namespace Cursor

variable {c c' r v : Cursor} {config : Config} {name : Text} {q rest : List Nat} {i : Nat}

theorem extractsClear_of_value {depth : Nat} (hsite : bindingSite config none c.frames = .ok (.value depth i))
    (hreplace : c.replace (Draft.symbol name) = .ok r) (hv : r.bindingsAt depth = .ok v) :
    c.extractsClear config name = clearAt v.node.children i name := by
  rw [extractsClear, hsite, hreplace]
  simp only [hv]

theorem extractsClear_of_other (hsite : ∀ depth pair, bindingSite config none c.frames ≠ .ok (.value depth pair)) :
    c.extractsClear config name = true := by
  rw [extractsClear]
  split
  · next depth pair referenced hvalue _ => exact absurd hvalue (hsite depth pair)
  · rfl

/-- The vector of the innermost scope before and after the name took the place of a form in the value of binding `i`: up
to the pattern of that binding it is the same. -/
theorem exists_vector (hr : Referenced name c r)
    (hscope : Tree.InnermostScope config c.tree.shape c.path q (1 :: (2 * i + 1) :: rest)) :
    ∃ v before pattern after after', r.bindingsAt q.length = .ok v ∧ v.path = q ++ [1] ∧
      c.tree.plain.formAt? (q ++ [1]) = some (.composite () (.bracket .vector) (before ++ pattern :: after)) ∧
        pattern.isForm = true ∧ formCount before = 2 * i ∧
          v.node.children.map plain = before ++ pattern :: after' := by
  have hpath : c.path = (q ++ [1]) ++ (2 * i + 1) :: rest := by
    rw [hscope.path, List.append_assoc]
    rfl
  have hedited := hr.edited
  rw [hpath] at hedited
  obtain ⟨vector, vector', hvector, hvector', hedited⟩ := hedited.formAt? fun _ hpad => hpad
  obtain ⟨v, hv, hvpath, hvnode⟩ := hr.steady.exists_bindingsAt (hr.path.trans hscope.path) hvector'
  obtain ⟨bindings, hbindings, -⟩ := hscope.scope.vector_of_binding id
  have hshape : vector.shape = .composite () (.bracket .vector) bindings := by
    rw [← shape_plain, ← shape_formAt?, hvector] at hbindings
    exact Option.some.inj hbindings
  obtain ⟨_, ns, rfl, -⟩ := shape_eq_composite hshape
  have hlt := hedited.lt_formCount
  obtain ⟨cut, hcut⟩ : ∃ cut, cutAtForm? (2 * i) ns = some cut := by
    refine Option.ne_none_iff_exists'.mp fun hnone => ?_
    have hle := cutAtForm?_eq_none_iff.mp hnone
    omega
  have hcuts : CutsAtForm ns cut := cutAtForm?_eq_some hcut
  have hcount := formCount_cutAtForm? hcut
  rw [hcuts.whole] at hvector hedited
  obtain ⟨after', rfl⟩ := hedited.front (by omega)
  have hchildren : v.node.children.map plain = cut.before ++ cut.focus :: after' := by
    rw [← children_plain, hvnode, children]
  exact ⟨v, cut.before, cut.focus, cut.after, after', hv, hvpath, hvector, hcuts.form, hcount, hchildren⟩

/-- The seam can be told from the document before the extraction. -/
theorem extractsClear_iff {start : Stamp} {t : Tree} (h : Runs False (ofTree start t) c) (hroot : c.tree.isRoot = true)
    (hframes : c.frames ≠ []) : c.extractsClear config name = true ↔ c.NameClear config name := by
  have hc : c.Steady := h.steady (steady_ofTree start t)
  have hsite : Tree.Site config c.tree.shape c.path (bindingSite config none c.frames) := site_of_frames h hroot
  by_cases hvalue : ∃ q i rest, Tree.InnermostScope config c.tree.shape c.path q (1 :: (2 * i + 1) :: rest)
  · obtain ⟨q, i, rest, hscope⟩ := hvalue
    obtain ⟨r, hr⟩ := hc.exists_referenced hframes name
    obtain ⟨v, before, pattern, after, after', hv, -, hvector, hpattern, hbefore, hchildren⟩ := exists_vector hr hscope
    rw [extractsClear_of_value (hsite.eq_value hscope) hr.replaced hv, clearAt_iff hchildren hpattern hbefore]
    refine ⟨fun hgap => ?_, fun hclear => hclear q i rest before pattern after hscope hvector hpattern hbefore⟩
    -- there is no other scope and no other place in its vector
    intro q' i' rest' front pattern' back hscope' hvector' hpattern' hfront
    obtain ⟨rfl, hinner⟩ := hscope'.unique hscope
    have hplace := (List.cons.inj (List.cons.inj hinner).2).1
    obtain ⟨-, -, hsame⟩ := composite.inj (Option.some.inj (hvector'.symm.trans hvector))
    have hcut := cutAtForm?_append front back hpattern'
    rw [hsame, show formCount front = formCount before by omega, cutAtForm?_append before after hpattern] at hcut
    obtain ⟨rfl, -, -⟩ := Cut.mk.inj (Option.some.inj hcut)
    exact hgap
  · have hclear : c.NameClear config name := fun q i rest _ _ _ hscope => absurd ⟨q, i, rest, hscope⟩ hvalue
    refine iff_of_true (extractsClear_of_other fun depth pair hother => ?_) hclear
    rw [hother] at hsite
    cases hsite with
    | value hscope => exact hvalue ⟨_, _, _, hscope⟩

theorem extractsClear_of_spaced {start : Stamp} {t : Tree} (h : Runs False (ofTree start t) c)
    (hroot : c.tree.isRoot = true) (hextract : c.extract config name = .ok c') (hspaced : c'.tree.Spaced) : c.extractsClear config name = true := by
  obtain ⟨hframes, -, site, referenced, hfound, hreplace, hedit⟩ := extract_eq_ok hextract
  have hsite : Tree.Site config c.tree.shape c.path (bindingSite config none c.frames) := site_of_frames h hroot
  rw [hfound] at hsite
  cases hsite with
  | top _ => exact extractsClear_of_other (by simp [hfound])
  | body _ _ => exact extractsClear_of_other (by simp [hfound])
  | @value q rest i hscope =>
    obtain ⟨r, hr⟩ := (h.steady (steady_ofTree start t)).exists_referenced hframes name
    obtain rfl := Except.ok.inj (hreplace.symm.trans hr.replaced)
    obtain ⟨v, _, _, _, _, hv, hvpath, -⟩ := exists_vector hr hscope
    obtain ⟨v', edited, hv', hwrite, hup⟩ := editBindings_eq_ok hedit
    obtain rfl := Except.ok.inj (hv.symm.trans hv')
    have hwalk := walk_bindingsAt hv
    have hkeeps : KeepsBelow v.fresh (insertBinding v.node.children i name c.node) :=
      (Draft.fits_insertBinding (hr.fits hwalk).1.children (hr.fits hwalk).2).keeps
    obtain ⟨e, he, hsteady, hnode, -⟩ := (hr.steady.walk hwalk).replace (frames_ne_nil_of_path hvpath) hkeeps rfl
    obtain rfl := Except.ok.inj (hwrite.symm.trans he)
    -- the new vector is a part of the tree
    rw [← spaced_map fun _ => (), ← plain, (Walk.refl.up hup).plain_tree hsteady, hsteady.stamps.plain_tree, plain,
      spaced_map] at hspaced
    have hvector : edited.node.plain.Spaced := (spaced_map _ _).mpr (spaced_of_wholeFrom hspaced)
    rw [hnode] at hvector
    rw [extractsClear_of_value hfound hreplace hv]
    exact clearAt_of_spaced ((spaced_map _ _).mp hvector)

end Cursor

/-! ## Reading back -/

namespace Document

variable {start : Stamp} {d : Document} {source name : Text} {origin : Origin} {path : List Nat} {c c' : Cursor}

theorem exists_ofTree (h : Document.read start source origin = .ok d) : ∃ t, d.cursor = .ofTree start t := by
  rw [Document.read] at h
  cases hread : Tree.read source with
  | error e => simp [hread] at h
  | ok t =>
    rw [hread] at h
    obtain rfl := Except.ok.inj h
    exact ⟨t, rfl⟩

theorem runs_goto (hread : Document.read start source origin = .ok d) (hgoto : d.cursor.goto path = .ok c) :
    ∃ t, Cursor.Runs False (.ofTree start t) c ∧ c.tree.isRoot = true := by
  obtain ⟨t, ht⟩ := exists_ofTree hread
  have hkept : c.Kept .grammar := (kept_read hread (Care.grammar_allows source)).walk (Cursor.Walk.refl.goto hgoto)
  refine ⟨t, ht ▸ Cursor.Runs.refl.step (.goto path) (by rintro d ⟨⟩) hgoto, ?_⟩
  rw [← isRoot_plain, hkept.valid.on.tree, isRoot_plain]
  exact hkept.valid.root

theorem exists_of_extract {β : Type} (start : Stamp) (source : Text) (path : List Nat) (name : Text)
    (view : Cursor → Cursor → β) (value : β)
    (h : ((Document.read start source).toOption.bind fun d => (d.cursor.goto path).toOption.bind fun c =>
      (c.extract {} name).toOption.map (view c)) = some value) :
    ∃ d c c', Document.read start source = .ok d ∧ d.cursor.goto path = .ok c ∧ c.extract {} name = .ok c' ∧
      view c c' = value := by
  obtain ⟨d, hd, h⟩ := Option.bind_eq_some_iff.mp h
  obtain ⟨c, hc, h⟩ := Option.bind_eq_some_iff.mp h
  obtain ⟨c', hc', h⟩ := Option.map_eq_some_iff.mp h
  exact ⟨d, c, c', Except.ok_of_toOption hd, Except.ok_of_toOption hc, Except.ok_of_toOption hc', h⟩

/-- After an extraction, a document without comments that begin with a hash reads back as the tree that it is exactly if
the name was clear of the node in front of it. -/
theorem extract_reads_back_iff (hread : Document.read start source origin = .ok d) (hsource : hashFree source = true)
    (hgoto : d.cursor.goto path = .ok c) (hextract : c.extract {} name = .ok c') :
    (∃ t, Tree.read c'.source = .ok t ∧ t.shape = c'.tree.shape) ↔ c.NameClear {} name := by
  have hkept : ∀ care, c.Kept care := fun care =>
    (kept_read hread (Care.allows_of_hashFree hsource care)).walk (Cursor.Walk.refl.goto hgoto)
  obtain ⟨t, hruns, hroot⟩ := runs_goto hread hgoto
  obtain ⟨hframes, -⟩ := Cursor.extract_eq_ok hextract
  have hgrammar : c'.Kept .grammar := (hkept .grammar).extract (kept_bindingHead _) (by simp) hextract
  rw [← Cursor.extractsClear_iff hruns hroot hframes]
  refine (reads_back_iff (d := ⟨c', origin⟩) hgrammar).trans ⟨?_, fun hclear => ?_⟩
  · exact Cursor.extractsClear_of_spaced hruns hroot hextract
  · exact spaced_of_kept (d := ⟨c', origin⟩) ((hkept .spacing).extract (kept_bindingHead _) (fun _ => hclear) hextract)

/-- An extraction in front of a pattern, with a blank before it. -/
theorem extract_reads_back_iff_blank :
    ∃ d c c', Document.read (Supply.outside 0).first "(let [a 1 [b c](g y)] z)".toList = .ok d ∧
      hashFree "(let [a 1 [b c](g y)] z)".toList = true ∧ d.cursor.goto [0, 1, 3, 1] = .ok c ∧
        c.extract {} ['x'] = .ok c' ∧ c'.source = "(let [a 1 x y [b c](g x)] z)".toList ∧ c.NameClear {} ['x'] ∧
          ∃ t, Tree.read c'.source = .ok t ∧ t.shape = c'.tree.shape := by
  obtain ⟨d, c, c', hread, hgoto, hextract, hview⟩ := exists_of_extract (Supply.outside 0).first
    "(let [a 1 [b c](g y)] z)".toList [0, 1, 3, 1] ['x'] (fun c c' => (c.extractsClear {} ['x'], c'.source))
    (true, "(let [a 1 x y [b c](g x)] z)".toList) (by decide +kernel)
  obtain ⟨hclear, hsource⟩ := Prod.mk.inj hview
  have hfree : hashFree "(let [a 1 [b c](g y)] z)".toList = true := by decide +kernel
  obtain ⟨t, hruns, hroot⟩ := runs_goto hread hgoto
  have hclear := (Cursor.extractsClear_iff hruns hroot (Cursor.extract_eq_ok hextract).1).mp hclear
  refine ⟨d, c, c', hread, hfree, hgoto, hextract, hsource, hclear, ?_⟩
  exact (extract_reads_back_iff hread hfree hgoto hextract).mpr hclear

/-- Without a blank the name runs into a number, so that the document is not read, or into a symbol, so that it is read
with a form less in the vector. -/
theorem extract_not_read_back :
    (∃ d c c', Document.read (Supply.outside 0).first "(let [a 1[b c](g y)] z)".toList = .ok d ∧
        hashFree "(let [a 1[b c](g y)] z)".toList = true ∧ d.cursor.goto [0, 1, 3, 1] = .ok c ∧
          c.extract {} ['x'] = .ok c' ∧ ∀ t, Tree.read c'.source ≠ .ok t) ∧
      ∃ d c c', Document.read (Supply.outside 0).first "(let [a b[c d](g y)] z)".toList = .ok d ∧
        hashFree "(let [a b[c d](g y)] z)".toList = true ∧ d.cursor.goto [0, 1, 3, 1] = .ok c ∧
          c.extract {} ['x'] = .ok c' ∧ ∃ t, Tree.read c'.source = .ok t ∧ t.shape ≠ c'.tree.shape := by
  constructor
  · obtain ⟨d, c, c', hread, hgoto, hextract, hsource⟩ := exists_of_extract (Supply.outside 0).first
      "(let [a 1[b c](g y)] z)".toList [0, 1, 3, 1] ['x'] (fun _ c' => c'.source)
      "(let [a 1x y [b c](g x)] z)".toList (by decide +kernel)
    refine ⟨d, c, c', hread, by decide +kernel, hgoto, hextract, ?_⟩
    rw [hsource]
    exact not_read_of_isNone (by decide +kernel)
  · obtain ⟨d, c, c', hread, hgoto, hextract, hview⟩ := exists_of_extract (Supply.outside 0).first
      "(let [a b[c d](g y)] z)".toList [0, 1, 3, 1] ['x']
      (fun _ c' => (c'.source, (c'.tree.shape.subtree? [0, 1]).map (·.children.length)))
      ("(let [a bx y [c d](g x)] z)".toList, some 6) (by decide +kernel)
    obtain ⟨hsource, hlength⟩ := Prod.mk.inj hview
    have hother : (Tree.read "(let [a bx y [c d](g x)] z)".toList).toOption.map
        (fun t => (t.shape.subtree? [0, 1]).map (·.children.length)) = some (some 5) := by decide +kernel
    obtain ⟨t, ht, hfive⟩ := Option.map_eq_some_iff.mp hother
    refine ⟨d, c, c', hread, by decide +kernel, hgoto, hextract, t, ?_, fun hshape => ?_⟩
    · rw [hsource]
      exact Except.ok_of_toOption ht
    · rw [hshape, hlength] at hfive
      cases hfive

end Document

end SexprEdit
