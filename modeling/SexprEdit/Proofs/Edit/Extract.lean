import SexprEdit.Proofs.Edit.Thread

/-!
# What extracting a binding keeps

The new binding is written from nodes of the document with blanks between them, and goes into the vector of the binding
form. Inside the value of a binding it goes in front of that binding without a gap, so its name can run into the form
before it (`Cursor.extractsClear`). Everything else about extraction keeps a document as it should be.
-/

namespace SexprEdit

open Node

variable {care : Care} {fresh : Stamp}

/-! ## Siblings in a new bracket -/

namespace Node

variable {kind : Kind} {b : Bracket}

theorem FrontSpaced.bracket {ι : Type} (hb : (Token.opening b).Genuine) {ns : List (Node ι)} (hns : MadeAll Token.Tame ns)
    (h : FrontSpaced kind ns) : FrontSpaced (.bracket b) ns := by
  induction ns using List.reverseRecOn with
  | nil => exact frontSpaced_nil
  | append_singleton ns n ih =>
    obtain ⟨hfront, hseam⟩ := frontSpaced_concat.mp h
    obtain ⟨hbefore, -⟩ := madeAll_append.mp hns
    refine frontSpaced_concat.mpr ⟨ih hbefore hfront, ?_⟩
    cases hlast : ns.getLast? with
    | none => exact runsInto_first (by simp) (by simpa [Kind.opening] using hb) (sound_of_madeAll hns n (by simp))
    | some m => rwa [hlast] at hseam

theorem BackSpaced.bracket {ι : Type} (hb : (Token.opening b).Genuine) {ns : List (Node ι)} (hns : MadeAll Token.Tame ns)
    (h : BackSpaced kind ns) : BackSpaced (.bracket b) ns := by
  induction ns with
  | nil => exact backSpaced_nil
  | cons n ns ih =>
    obtain ⟨hseam, hback⟩ := backSpaced_cons.mp h
    refine backSpaced_cons.mpr ⟨?_, ih (madeAll_cons.mp hns).2 hback⟩
    cases hhead : ns.head? with
    | none =>
      refine runsInto_none (by simpa [Kind.opening] using hb) ?_
      rintro k ⟨⟩
      exact sound_of_madeAll hns n (by simp)
    | some m => rwa [hhead] at hseam

end Node

/-! ## Stamps on the way -/

namespace Cursor

variable {c c' : Cursor}

theorem fresh_le_replace {P : Token → Prop} {d : Draft} (hd : Ready P c.fresh d) (h : c.replace d = .ok c') :
    c.fresh ≤ c'.fresh := by
  obtain ⟨-, hle, -⟩ := stamp_spec d c.fresh hd.keeps
  obtain ⟨-, ⟨-, rfl⟩ | ⟨f, outer, -, rfl⟩⟩ := replace_cases hd h
  · exact Stamp.le_add_of_le hle _
  · exact Stamp.le_add_of_le hle _

/-- The bindings of the binding form at a depth. -/
def bindingsAt (c : Cursor) (depth : Nat) : Except CursorError Cursor := do
  let form ← c.ascend depth
  (← form.down).right

theorem walk_bindingsAt {depth : Nat} (hmove : c.bindingsAt depth = .ok c') : Walk c c' := by
  obtain ⟨form, hascend, hmove⟩ := Except.exists_ok_of_bind hmove
  obtain ⟨head, hdown, hright⟩ := Except.exists_ok_of_bind hmove
  exact ((Walk.refl.upBy hascend).down hdown).right hright

theorem editBindings_eq_ok {depth : Nat} {edit : List Cell → Draft} (h : c.editBindings depth edit = .ok c') :
    ∃ vector edited, c.bindingsAt depth = .ok vector ∧ vector.replace (edit vector.node.children) = .ok edited ∧
      edited.up = .ok c' := by
  obtain ⟨form, hascend, h⟩ := Except.exists_ok_of_bind h
  obtain ⟨head, hdown, h⟩ := Except.exists_ok_of_bind h
  obtain ⟨vector, hright, h⟩ := Except.exists_ok_of_bind h
  obtain ⟨edited, hreplace, hup⟩ := Except.exists_ok_of_bind h
  refine ⟨vector, edited, ?_, hreplace, hup⟩
  rw [Cursor.bindingsAt, hascend]
  show (form.down >>= Cursor.right) = _
  rw [hdown]
  exact hright

end Cursor

/-! ## New bindings -/

/-- The children of a node of a document, as they can be written again. -/
structure Node.HeldAll (care : Care) (fresh : Stamp) (ns : List Cell) : Prop where
  held : ∀ n ∈ ns, n.Held care fresh ∧ n.isRoot = false
  spaced : care = .spacing → ∃ kind, FrontSpaced kind ns ∧ BackSpaced kind ns

theorem Node.Held.children {n : Cell} (h : n.Held care fresh) : HeldAll care fresh n.children := by
  cases n with
  | composite label kind ns =>
    refine ⟨fun m hm => h.child hm, fun hcare => ⟨kind, ?_, ?_⟩⟩
    · have hspaced := h.spaced hcare
      rw [← List.append_nil ns] at hspaced
      exact (spaced_append_iff.mp hspaced).2.1
    · exact (spaced_iff_backSpaced.mp (h.spaced hcare)).2.2
  | _ => exact ⟨by simp [Node.children], fun _ => ⟨.root, frontSpaced_nil, backSpaced_nil⟩⟩

theorem Node.bindingSeparator_cases (ns : List Cell) :
    bindingSeparator ns = Draft.blank ∨ ∃ n ∈ ns, n.isForm = false ∧ bindingSeparator ns = n.kept := by
  rw [bindingSeparator]
  split
  · next n hn =>
    split_ifs with hbreak
    · obtain ⟨cut, hcut, hlast⟩ := Option.bind_eq_some_iff.mp hn
      refine .inr ⟨n, ?_, ?_, rfl⟩
      · rw [(cutAtForm?_eq_some hcut).whole]
        exact List.mem_append_left _ (List.mem_of_getLast? hlast)
      · cases n with
        | trivia label t => rfl
        | _ => simp [isLineBreak] at hbreak
    · exact .inl rfl
  · exact .inl rfl

namespace Draft

theorem kept_bindingSeparator {ns : List Cell} (h : HeldAll care fresh ns) :
    Kept care fresh (bindingSeparator ns) ∧ (bindingSeparator ns).isForm = false := by
  rcases bindingSeparator_cases ns with heq | ⟨n, hn, hform, heq⟩
  · rw [heq]
    exact ⟨kept_space, rfl⟩
  · rw [heq]
    exact ⟨kept_kept (h.held n hn).1 (h.held n hn).2, (isForm_map some n).trans hform⟩

variable {name : Text} {value : Cell}

theorem spaced_map_kept {ns : List Cell} (h : HeldAll .spacing fresh ns) {b : Bracket} (hb : (Token.opening b).Genuine) :
    FrontSpaced (.bracket b) (ns.map Node.kept) ∧ BackSpaced (.bracket b) (ns.map Node.kept) := by
  obtain ⟨kind, hfront, hback⟩ := h.spaced rfl
  have hmade := madeAll_of_kept (kept_map_kept h.held)
  exact ⟨((frontSpaced_map some ns).mpr hfront).bracket hb hmade, ((backSpaced_map some ns).mpr hback).bracket hb hmade⟩

theorem runsInto_rest {kind : Kind} (hkind : ∀ t ∈ kind.opening, t.Genuine) {d : Draft} (hd : Kept .spacing fresh d)
    (rest : List Draft) (hrest : ∀ e ∈ rest, Kept .spacing fresh e) (htrivia : ∀ e ∈ rest.head?, e.isForm = false) :
    runsInto kind (some d) rest.head? = false := by
  have hsound : ∀ e ∈ some d, e.Sound ∧ e.isRoot = false := by
    rintro e ⟨⟩
    exact ⟨hd.ready.made.mono fun _ ht => ht.1, hd.ready.root⟩
  cases hhead : rest.head? with
  | none => exact runsInto_none hkind hsound
  | some e => exact runsInto_trivia hkind hsound (hrest e (List.mem_of_head? hhead)).ready.made (htrivia e hhead)

/-- Two forms with a blank between them, among others in a new bracket. -/
theorem kept_pair {b : Bracket} (hb : (Token.opening b).Genuine) (before rest : List Draft) {first second : Draft}
    (hbefore : ∀ d ∈ before, Kept care fresh d) (hfirst : Kept care fresh first) (hsecond : Kept care fresh second)
    (hrest : ∀ d ∈ rest, Kept care fresh d)
    (hseams : care = .spacing → FrontSpaced (.bracket b) before ∧
      runsInto (.bracket b) before.getLast? (some first) = false ∧ (∀ d ∈ rest.head?, d.isForm = false) ∧
        BackSpaced (.bracket b) rest) :
    Kept care fresh (.composite none (.bracket b) (before ++ first :: space none :: second :: rest)) := by
  have hall : ∀ d ∈ before ++ first :: space none :: second :: rest, Kept care fresh d := by
    refine List.forall_mem_append.mpr ⟨hbefore, ?_⟩
    simp only [List.forall_mem_cons]
    exact ⟨hfirst, kept_space, hsecond, hrest⟩
  refine kept_bracket hb hall ?_
  rintro rfl
  obtain ⟨hfront, hseam, htrivia, hback⟩ := hseams rfl
  have hkind : ∀ t ∈ (Kind.bracket b).opening, t.Genuine := by simpa [Kind.opening] using hb
  refine spaced_append_iff.mpr ⟨fun d hd => (hall d hd).spaced rfl, hfront, hseam, backSpaced_cons.mpr ⟨?_, ?_⟩⟩
  · exact runsInto_rest hkind hfirst [space none] (by simpa using kept_space) (by simp [space, isForm])
  · refine backSpaced_cons.mpr ⟨runsInto_of_trivia rfl _, backSpaced_cons.mpr ⟨?_, hback⟩⟩
    exact runsInto_rest hkind hsecond _ hrest htrivia

theorem runsInto_bracket_first {b : Bracket} (hb : (Token.opening b).Genuine) {d : Draft} (hd : Kept .spacing fresh d) :
    runsInto (.bracket b) none (some d) = false :=
  runsInto_first (by simp) (by simpa [Kind.opening] using hb) ⟨hd.ready.made.mono fun _ ht => ht.1, hd.ready.root⟩

theorem kept_appendBinding {ns : List Cell} (h : HeldAll care fresh ns) (hname : Kept care fresh (Draft.symbol name))
    (hvalue : Kept care fresh value.kept) : Kept care fresh (appendBinding ns name value) := by
  obtain ⟨hsep, htrivia⟩ := kept_bindingSeparator h
  rw [appendBinding]
  cases hcut : cutAtLast? ns with
  | none =>
    refine kept_pair (b := .vector) trivial [] _ (by simp) hname hvalue (kept_map_kept h.held) ?_
    rintro rfl
    refine ⟨frontSpaced_nil, runsInto_bracket_first (b := .vector) trivial hname, fun d hd => ?_,
      (spaced_map_kept h (b := .vector) trivial).2⟩
    obtain ⟨n, hn, rfl⟩ := List.mem_map.mp (List.mem_of_head? hd)
    rw [Node.kept, isForm_map]
    exact cutAtLast?_eq_none hcut n hn
  | some cut =>
    obtain ⟨⟨rfl, hform⟩, hafter⟩ := cutAtLast?_eq_some hcut
    obtain ⟨hheld, hroot⟩ := h.held cut.focus (by simp)
    have hfocus := kept_kept hheld hroot
    have hpair : cut.before.map Node.kept ++ cut.focus.kept :: bindingSeparator (cut.before ++ cut.focus :: cut.after) ::
          [Draft.symbol name, Draft.blank, value.kept] ++ cut.after.map Node.kept =
        (cut.before.map Node.kept ++ [cut.focus.kept, bindingSeparator (cut.before ++ cut.focus :: cut.after)]) ++
          Draft.symbol name :: space none :: value.kept :: cut.after.map Node.kept := by
      simp [Draft.blank]
    simp only [hpair]
    generalize bindingSeparator (cut.before ++ cut.focus :: cut.after) = sep at hsep htrivia ⊢
    refine kept_pair (b := .vector) trivial _ _ ?_ hname hvalue (kept_map_kept fun n hn => h.held n (by simp [hn])) ?_
    · refine List.forall_mem_append.mpr ⟨kept_map_kept fun n hn => h.held n (by simp [hn]), ?_⟩
      simpa using ⟨hfocus, hsep⟩
    · rintro rfl
      obtain ⟨hfront, hback⟩ := spaced_map_kept h (b := .vector) trivial
      rw [List.map_append, List.map_cons] at hfront hback
      rw [← List.singleton_append, ← List.append_assoc] at hfront hback
      refine ⟨?_, ?_, fun d hd => ?_, hback.right⟩
      · have hlist : cut.before.map Node.kept ++ [cut.focus.kept, sep] =
            (cut.before.map Node.kept ++ [cut.focus.kept]) ++ [sep] := by simp
        rw [hlist, frontSpaced_concat, List.getLast?_concat]
        exact ⟨hfront.left, runsInto_rest (by simp [Kind.opening, Token.Genuine]) hfocus [sep]
          (by simpa using hsep) (by simpa using htrivia)⟩
      · have hlast : (cut.before.map Node.kept ++ [cut.focus.kept, sep]).getLast? = some sep := by simp
        rw [hlast]
        exact runsInto_of_trivia htrivia _
      · obtain ⟨n, hn, rfl⟩ := List.mem_map.mp (List.mem_of_head? hd)
        rw [Node.kept, isForm_map]
        exact hafter n hn

end Draft

/-- Whether the name of a new binding stands clear of the form that it is put behind. -/
def Node.clearAt (bindings : List Cell) (pair : Nat) (name : Text) : Bool :=
  match cutAtForm? (pair * 2) bindings with
  | some cut => !runsInto (.bracket .vector) (cut.before.getLast?.map Node.kept) (some (Draft.symbol name))
  | none => !runsInto (.bracket .vector) (bindings.getLast?.map Node.kept) (some (Draft.symbol name))

namespace Draft

variable {name : Text} {value : Cell}

theorem kept_insertBinding {ns : List Cell} {pair : Nat} (h : HeldAll care fresh ns)
    (hname : Kept care fresh (Draft.symbol name)) (hvalue : Kept care fresh value.kept)
    (hclear : care = .spacing → clearAt ns pair name = true) : Kept care fresh (insertBinding ns pair name value) := by
  obtain ⟨hsep, htrivia⟩ := kept_bindingSeparator h
  rw [insertBinding]
  cases hcut : cutAtForm? (pair * 2) ns with
  | none =>
    refine kept_pair (b := .vector) trivial _ [bindingSeparator ns] (kept_map_kept h.held) hname hvalue
      (by simpa using hsep) ?_
    rintro rfl
    -- no gap is put in front of the name, so this seam is the one that has to be assumed
    have hclear := hclear rfl
    rw [clearAt, hcut, Bool.not_eq_true', ← List.getLast?_map] at hclear
    refine ⟨(spaced_map_kept h (b := .vector) trivial).1, hclear, by simpa using htrivia, ?_⟩
    exact backSpaced_cons.mpr ⟨runsInto_of_trivia htrivia _, backSpaced_nil⟩
  | some cut =>
    obtain ⟨rfl, hform⟩ := cutAtForm?_eq_some hcut
    simp only [List.append_assoc, List.cons_append, List.nil_append]
    have hrest : ∀ d ∈ cut.focus.kept :: cut.after.map Node.kept, Kept care fresh d := by
      rw [← List.map_cons]
      exact kept_map_kept fun n hn => h.held n (by simp [List.mem_cons.mp hn])
    refine kept_pair (b := .vector) trivial _ _ (kept_map_kept fun n hn => h.held n (by simp [hn])) hname hvalue
      (List.forall_mem_cons.mpr ⟨hsep, hrest⟩) ?_
    rintro rfl
    have hclear := hclear rfl
    rw [clearAt, hcut] at hclear
    simp only [Bool.not_eq_true', ← List.getLast?_map] at hclear
    obtain ⟨hfront, hback⟩ := spaced_map_kept h (b := .vector) trivial
    rw [List.map_append] at hfront hback
    refine ⟨hfront.left, hclear, by simpa using htrivia, ?_⟩
    exact backSpaced_cons.mpr ⟨runsInto_of_trivia htrivia _, hback.right⟩

theorem kept_newline (indent : Nat) : Kept care fresh (newline none indent) :=
  ⟨⟨rfl, made_newline care.lawful none indent, rfl⟩, fun _ => rfl⟩

theorem kept_wrapInBinding {head : Text} {body : Cell} (hhead : Kept care fresh (Draft.symbol head))
    (hname : Kept care fresh (Draft.symbol name)) (hvalue : Kept care fresh value.kept)
    (hbody : Kept care fresh body.kept) : Kept care fresh (wrapInBinding head name value body) := by
  have hvector : Kept care fresh (Draft.spaced .vector [Draft.symbol name, value.kept]) :=
    kept_spaced (b := .vector) trivial (by simpa using ⟨hname, hvalue⟩)
  rw [wrapInBinding]
  obtain ⟨gap, hgap, hgapKept, hgapTrivia⟩ : ∃ gap : Draft,
      (if body.text.contains '\n' then .newline none 2 else Draft.blank) = gap ∧ Kept care fresh gap ∧
        gap.isForm = false := by
    split_ifs
    · exact ⟨_, rfl, kept_newline 2, rfl⟩
    · exact ⟨_, rfl, kept_space, rfl⟩
  rw [hgap]
  refine kept_pair (b := .list) trivial [] _ (by simp) hhead hvector (by simpa using ⟨hgapKept, hbody⟩) ?_
  rintro rfl
  refine ⟨frontSpaced_nil, runsInto_bracket_first (b := .list) trivial hhead, by simpa using hgapTrivia, ?_⟩
  refine backSpaced_cons.mpr ⟨runsInto_of_trivia hgapTrivia _, backSpaced_cons.mpr ⟨?_, backSpaced_nil⟩⟩
  exact runsInto_rest (by simp [Kind.opening, Token.Genuine]) hbody [] (by simp) (by simp)

end Draft

/-! ## Extraction -/

namespace Cursor

variable {c c' : Cursor} {config : Config} {name : Text}

/-- Whether the name of the new binding stands clear, where extraction puts it in front of another binding. -/
def extractsClear (config : Config) (name : Text) (c : Cursor) : Bool :=
  match bindingSite config none c.frames, c.replace (Draft.symbol name) with
  | .ok (.value depth pair), .ok referenced =>
    match referenced.bindingsAt depth with
    | .ok vector => clearAt vector.node.children pair name
    | .error _ => true
  | _, _ => true

theorem Kept.editBindings {depth : Nat} {edit : List Cell → Draft} (h : c.Kept care)
    (hedit : c.editBindings depth edit = .ok c')
    (hdraft : ∀ vector, c.bindingsAt depth = .ok vector → c.fresh ≤ vector.fresh →
      HeldAll care vector.fresh vector.node.children → Draft.Kept care vector.fresh (edit vector.node.children)) :
    c'.Kept care := by
  obtain ⟨vector, edited, hvector, hreplace, hup⟩ := editBindings_eq_ok hedit
  have hwalk := walk_bindingsAt hvector
  have hkept := h.walk hwalk
  have hdraft := hdraft vector hvector hwalk.fresh_le hkept.node.children
  exact (hkept.replace hdraft hreplace).walk (Walk.refl.up hup)

/-- Where extraction starts from, and what it does at each site. -/
theorem extract_eq_ok (h : c.extract config name = .ok c') :
    c.frames ≠ [] ∧ (∃ text, Atom.read name = .ok ⟨.symbol, text⟩) ∧
      ∃ site referenced, bindingSite config none c.frames = .ok site ∧ c.replace (Draft.symbol name) = .ok referenced ∧
        match site with
        | .body depth => referenced.editBindings depth (appendBinding · name c.node) = .ok c'
        | .value depth pair => referenced.editBindings depth (insertBinding · pair name c.node) = .ok c'
        | .top => ∃ top, referenced.ascend 1 = .ok top ∧
            top.replace (wrapInBinding config.bindingHead name c.node top.node) = .ok c' := by
  rw [Cursor.extract] at h
  by_cases hroot : c.isRoot = true
  · rw [if_pos hroot] at h
    cases h
  · rw [if_neg hroot] at h
    refine ⟨fun hframes => hroot (by rw [Cursor.isRoot, hframes, List.isEmpty_nil]), ?_⟩
    simp only at h
    split at h
    · next text hread =>
      obtain ⟨site, hsite, h⟩ := Except.exists_ok_of_bind h
      obtain ⟨referenced, hreplace, h⟩ := Except.exists_ok_of_bind (ok_of_ofCursor h)
      refine ⟨⟨text, hread⟩, site, referenced, hsite, hreplace, ?_⟩
      cases site with
      | body depth => exact h
      | value depth pair => exact h
      | top => exact Except.exists_ok_of_bind h
    · cases h

theorem length_frames_upBy {k : Nat} (h : Cursor.upBy k c = .ok c') : c'.frames.length + k = c.frames.length := by
  induction k generalizing c with
  | zero =>
    obtain rfl := Except.ok.inj h
    rfl
  | succ k ih =>
    rw [Cursor.upBy] at h
    obtain ⟨next, hup, h⟩ := Except.exists_ok_of_bind h
    have hnext := ih h
    rw [Cursor.up] at hup
    split at hup
    · simp at hup
    · next f outer hframes =>
      obtain rfl := Except.ok.inj hup
      rw [hframes, List.length_cons, ← hnext, Nat.add_assoc]

theorem frames_ne_nil_of_replace {P : Token → Prop} {d : Draft} (hd : Ready P c.fresh d) (hroot : c.frames ≠ [])
    (h : c.replace d = .ok c') : c'.frames ≠ [] := by
  obtain ⟨-, ⟨hframes, -⟩ | ⟨f, outer, -, rfl⟩⟩ := replace_cases hd h
  · exact absurd hframes hroot
  · rcases wholeFrom_keepApartOutside (stamp c.fresh d).1 (stamp c.fresh d).1.tailText ((stamp c.fresh d).2 + 3)
      (f.replaceFocus (stamp c.fresh d).1 (stamp c.fresh d).2) outer with ⟨-, heq, -⟩ | ⟨-, heq, -⟩
    · simp [heq]
    · simp [heq]

theorem Kept.node_isRoot (h : c.Kept care) (hroot : c.frames ≠ []) : c.node.isRoot = false := by
  have hmade := h.valid.made
  obtain ⟨f, outer, hframes⟩ := List.exists_cons_of_ne_nil hroot
  rw [whole, hframes] at hmade
  exact isRoot_of_wholeFrom care.lawful hmade

theorem Kept.extract (h : c.Kept care)
    (hhead : ∀ fresh, Draft.Kept care fresh (Draft.symbol config.bindingHead))
    (hclear : care = .spacing → c.extractsClear config name = true) (hedit : c.extract config name = .ok c') :
    c'.Kept care := by
  obtain ⟨hroot, ⟨text, hread⟩, site, referenced, hsite, hreplace, hedit⟩ := extract_eq_ok hedit
  have hname : ∀ fresh, Draft.Kept care fresh (Draft.symbol name) := by
    intro fresh
    obtain ⟨htext, hatom, hgenuine⟩ := Atom.read_spec hread
    obtain rfl : text = name := htext
    exact Draft.kept_atom hatom hgenuine care fresh
  have hreferenced := h.replace (hname c.fresh) hreplace
  have hle := fresh_le_replace (hname c.fresh).ready hreplace
  have hvalue : ∀ fresh, c.fresh ≤ fresh → Draft.Kept care fresh c.node.kept := fun fresh hfresh =>
    Draft.kept_kept (h.node.mono hfresh) (h.node_isRoot hroot)
  cases site with
  | body depth =>
    refine hreferenced.editBindings hedit fun vector _ hfresh hchildren => ?_
    exact Draft.kept_appendBinding hchildren (hname _) (hvalue _ (hle.trans hfresh))
  | value depth pair =>
    refine hreferenced.editBindings hedit fun vector hvector hfresh hchildren => ?_
    refine Draft.kept_insertBinding hchildren (hname _) (hvalue _ (hle.trans hfresh)) fun hcare => ?_
    simpa [extractsClear, hsite, hreplace, hvector] using hclear hcare
  | top =>
    obtain ⟨top, hascend, hedit⟩ := hedit
    have hwalk := Walk.refl.upBy hascend
    have htop := hreferenced.walk hwalk
    have htopRoot : top.frames ≠ [] := by
      have hlength := length_frames_upBy hascend
      have hpos := List.length_pos_of_ne_nil (frames_ne_nil_of_replace (hname c.fresh).ready hroot hreplace)
      rw [Cursor.depth] at hlength
      exact List.ne_nil_of_length_pos (by omega)
    refine htop.replace (Draft.kept_wrapInBinding (hhead _) (hname _) (hvalue _ (hle.trans hwalk.fresh_le)) ?_) hedit
    exact Draft.kept_kept htop.node (htop.node_isRoot htopRoot)

end Cursor

end SexprEdit
