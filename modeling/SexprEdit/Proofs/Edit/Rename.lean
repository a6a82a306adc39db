import SexprEdit.Proofs.Edit.Runs
import SexprEdit.Proofs.Node.Respelled
import SexprEdit.Proofs.Search.Cycle

/-!
# Renaming as a map over atoms

Renaming edits the tree that it walks over. A tour of the tree as it was keeps pace with it (`Cursor.Shadows`): both rest on
the same node, what follows is the same but for blanks, and what stands before is respelled. One step of renaming and one
step of the tour lead to such cursors again, or both come to the end (`Shadows.step`). So renaming visits each atom once,
as it was, and what it leaves is the tree respelled.
-/

namespace SexprEdit

open Node

namespace Matcher

/-- What an atom becomes: if it matches and is renamed to another text, the atom that this text reads as. -/
def respelled (m : Matcher) (replacement : Text) (a : Atom) : Atom :=
  if m.matchesAtom a = true ∧ m.renamed replacement a ≠ a.text then
    (Atom.read (m.renamed replacement a)).toOption.getD a
  else a

/-- An atom that matches and is renamed to another text is renamed to the text of an atom. -/
def Respells (m : Matcher) (replacement : Text) (a : Atom) : Prop :=
  m.matchesAtom a = true → m.renamed replacement a ≠ a.text → ∃ b, Atom.read (m.renamed replacement a) = .ok b

end Matcher

/-- Frames of one composite before and after its children up to the current one are respelled. -/
structure Frame.Respelled (f : Atom → Atom) (g g' : Frame) : Prop where
  kind : g'.kind = g.kind
  before : Spread (Node.Respelled f) (g.before.map plain) (g'.before.map plain)
  after : ∃ k, g'.after.map plain = List.replicate k (space ()) ++ g.after.map plain

namespace Frame

variable {f : Atom → Atom} {g g' : Frame} {n n' : Cell} {frames frames' frames'' : List Frame}

theorem Respelled.fill (h : g.Respelled f g') (hn : Node.Respelled f n.plain n'.plain)
    (htrivia : ∀ k ∈ g.after, k.isForm = false) : Node.Respelled f (g.fill n).plain (g'.fill n').plain := by
  obtain ⟨k, hafter⟩ := h.after
  have htrivia : ∀ m ∈ g.after.map plain, m.isForm = false := by simpa using htrivia
  rw [g.plain_fill, g'.plain_fill, h.kind, hafter]
  exact .composite (h.before.append (.cons hn ((spread_of_trivia htrivia).blanks k)))

theorem Respelled.cut_none (h : g.Respelled f g') (hcut : cutAtFirst? g.after = none) : cutAtFirst? g'.after = none := by
  obtain ⟨k, hafter⟩ := h.after
  have hcount : formCount g'.after = 0 := by
    have hblanks : formCount (List.replicate k (space () : Tree)) = 0 :=
      formCount_eq_zero fun m hm => by rw [List.eq_of_mem_replicate hm]; rfl
    rw [← formCount_map_plain, hafter, formCount_append, formCount_map_plain, hblanks,
      formCount_eq_zero (cutAtFirst?_eq_none hcut)]
  cases hcut' : cutAtFirst? g'.after with
  | none => rfl
  | some cut =>
    obtain ⟨⟨hwhole, hform⟩, -⟩ := cutAtFirst?_eq_some hcut'
    rw [hwhole, formCount_append, formCount_cons_eq, if_pos hform] at hcount
    omega

theorem Respelled.cut_some {cut : Cut Cell} (h : g.Respelled f g') (hcut : cutAtFirst? g.after = some cut) :
    ∃ k cut', cutAtFirst? g'.after = some cut' ∧
      cut'.before.map plain = List.replicate k (space ()) ++ cut.before.map plain ∧
        cut'.focus.plain = cut.focus.plain ∧ cut'.after.map plain = cut.after.map plain := by
  obtain ⟨k, hafter⟩ := h.after
  obtain ⟨⟨hwhole, hform⟩, htrivia⟩ := cutAtFirst?_eq_some hcut
  rw [hwhole, List.map_append, ← List.append_assoc, List.map_cons] at hafter
  obtain ⟨before, rest, hsplit, hbefore, hrest⟩ := List.map_eq_append_iff.mp hafter
  obtain ⟨focus, after, rfl, hfocus, hafter⟩ := List.map_eq_cons_iff.mp hrest
  refine ⟨k, ⟨before, focus, after⟩, ?_, hbefore, hfocus, hafter⟩
  rw [hsplit]
  refine Cursor.cutAtFirst?_append (fun m hm => ?_) (by rw [← isForm_plain, hfocus, isForm_plain, hform])
  have hmem : m.plain ∈ List.replicate k (space ()) ++ cut.before.map plain := hbefore ▸ List.mem_map_of_mem hm
  rw [← isForm_plain]
  rcases List.mem_append.mp hmem with hmem | hmem
  · rw [List.eq_of_mem_replicate hmem]
    rfl
  · obtain ⟨l, hl, heq⟩ := List.mem_map.mp hmem
    rw [← heq, isForm_plain, htrivia l hl]

theorem Loosens.respelled {fresh : Stamp} (hloosens : Loosens fresh frames' frames'')
    (h : List.Forall₂ (Respelled f) frames frames') : List.Forall₂ (Respelled f) frames frames'' := by
  induction hloosens generalizing frames with
  | refl => exact h
  | @here g' outer hend =>
    obtain ⟨g, rest, hg, hrest, rfl⟩ := List.forall₂_cons_right_iff.mp h
    obtain ⟨k, hafter⟩ := hg.after
    refine .cons ⟨hg.kind, hg.before, k + 1, ?_⟩ hrest
    rw [spaceAfter, List.map_cons, hafter]
    rfl
  | @outside g' outer outer' _ ih =>
    obtain ⟨g, rest, hg, hrest, rfl⟩ := List.forall₂_cons_right_iff.mp h
    exact .cons hg (ih hrest)

theorem map_plain_blankIf (needed : Bool) (stamp : Stamp) :
    ∃ k, (blankIf needed stamp).map plain = List.replicate k (space ()) := by
  cases needed with
  | false => exact ⟨0, rfl⟩
  | true => exact ⟨1, rfl⟩

theorem Respelled.replaceFocus (h : g.Respelled f g') (n : Cell) (fresh : Stamp) :
    g.Respelled f (g'.replaceFocus n fresh) := by
  obtain ⟨k, hafter⟩ := h.after
  obtain ⟨i, hleft⟩ := map_plain_blankIf (needsGap g'.kind g'.before.getLast? (some n)) (fresh + 1)
  obtain ⟨j, hright⟩ := map_plain_blankIf (needsGap g'.kind (some n) g'.after.head?) (fresh + 2)
  refine ⟨h.kind, ?_, j + k, ?_⟩
  · have hgap : Spread (Node.Respelled f) [] (List.replicate i (space ()) ++ []) := Spread.nil.blanks i
    rw [Frame.replaceFocus, List.map_append, hleft]
    simpa using h.before.append hgap
  · rw [Frame.replaceFocus, List.map_append, hright, hafter, List.replicate_add, List.append_assoc]

end Frame

namespace Cursor

variable {f : Atom → Atom} {o c : Cursor} {n n' : Cell} {frames frames' : List Frame} {fresh fresh' : Stamp}

/-- The second cursor is where the first one is, in the tree respelled up to there. -/
structure Shadows (f : Atom → Atom) (o c : Cursor) : Prop where
  node : c.node.plain = o.node.plain
  frames : List.Forall₂ (Frame.Respelled f) o.frames c.frames
  top : o.frames = [] → ∀ label a, o.node ≠ .atom label a

/-! ## Steps -/

theorem Shadows.down {o' : Cursor} (h : Shadows f o c) (ho : o.down = .ok o') : ∃ c', c.down = .ok c' ∧ Shadows f o' c' := by
  obtain ⟨g, hparent, hform, htrivia, rfl⟩ := down_eq_ok ho
  have hnode := h.node
  rw [← hparent, Frame.parent, plain_composite, List.map_append, List.map_cons] at hnode
  obtain ⟨node, frames, fresh⟩ := c
  cases node with
  | composite label kind children =>
    obtain ⟨-, rfl, hchildren⟩ := Node.composite.inj ((plain_composite label kind children).symm.trans hnode)
    obtain ⟨before, rest, rfl, hbefore, hrest⟩ := List.map_eq_append_iff.mp hchildren
    obtain ⟨focus, after, rfl, hfocus, hafter⟩ := List.map_eq_cons_iff.mp hrest
    have hbeforeTrivia : ∀ k ∈ before.map plain, k.isForm = false := by
      rw [hbefore]
      simpa using htrivia
    have hcut : cutAtFirst? (before ++ focus :: after) = some ⟨before, focus, after⟩ :=
      cutAtFirst?_append (by simpa using hbeforeTrivia) (by rw [← isForm_plain, hfocus, isForm_plain, hform])
    refine ⟨⟨focus, ⟨label, g.kind, before, focus, after⟩ :: frames, fresh⟩, ?_, hfocus, ?_, fun hnil => by cases hnil⟩
    · simp only [Cursor.down, hcut]
      rfl
    · refine .cons ⟨rfl, ?_, 0, hafter⟩ h.frames
      rw [← hbefore]
      exact spread_of_trivia hbeforeTrivia
  | _ => cases hnode

theorem followingFrom_shadows (hframes : List.Forall₂ (Frame.Respelled f) frames frames')
    (hn : Node.Respelled f n.plain n'.plain) (hsteady : SteadyFrom fresh n frames) (hsteady' : SteadyFrom fresh' n' frames') :
    (followingFrom n fresh frames = none ∧ followingFrom n' fresh' frames' = none ∧
        Node.Respelled f (wholeFrom n frames).plain (wholeFrom n' frames').plain) ∨
      ∃ o c, followingFrom n fresh frames = some o ∧ followingFrom n' fresh' frames' = some c ∧ Shadows f o c := by
  induction hframes generalizing n n' fresh fresh' with
  | nil => exact .inl ⟨rfl, rfl, hn⟩
  | @cons g g' outer outer' hg houter ih =>
    obtain ⟨stamp, hsettle, hparent⟩ := hsteady.settle
    obtain ⟨stamp', hsettle', hparent'⟩ := hsteady'.settle
    rw [followingFrom, followingFrom]
    cases hcut : cutAtFirst? g.after with
    | none =>
      have hfill : (g.settle n fresh).1.parent.plain = (g.fill n).plain := by rw [hsettle]; rfl
      have hfill' : (g'.settle n' fresh').1.parent.plain = (g'.fill n').plain := by rw [hsettle']; rfl
      have hcomposite := hg.fill hn (cutAtFirst?_eq_none hcut)
      rw [← hfill, ← hfill'] at hcomposite
      have hrest := ih hcomposite hparent hparent'
      rw [plain_wholeFrom hfill, plain_wholeFrom hfill'] at hrest
      simpa only [hg.cut_none hcut, wholeFrom] using hrest
    | some cut =>
      obtain ⟨k, cut', hcut', hbefore, hfocus, hafter⟩ := hg.cut_some hcut
      have htrivia : ∀ m ∈ cut.before.map plain, m.isForm = false := by simpa using (cutAtFirst?_eq_some hcut).2
      simp only [hcut', hsettle, hsettle']
      refine .inr ⟨_, _, rfl, rfl, hfocus, .cons ⟨hg.kind, ?_, 0, hafter⟩ houter, fun hnil => by cases hnil⟩
      rw [Frame.toRight, Frame.toRight, List.map_append, List.map_append, List.map_cons, List.map_cons, hbefore]
      exact hg.before.append (.cons hn ((spread_of_trivia htrivia).blanks k))

theorem next?_of_forms_eq_nil (h : c.node.forms = []) : c.next? = followingFrom c.node c.fresh c.frames := by
  rw [next?]
  cases hdown : c.down with
  | error err => rfl
  | ok child =>
    obtain ⟨g, hparent, hform, -, -⟩ := down_eq_ok hdown
    rw [← hparent, forms, Frame.parent, Node.children, List.filter_append, List.filter_cons_of_pos hform] at h
    simp at h

theorem forms_eq_nil_of_respelled (h : Node.Respelled f n.plain n'.plain) (hn : n.forms = []) : n'.forms = [] := by
  have hforms := h.forms
  rw [forms_plain, forms_plain, hn, List.map_nil, List.forall₂_nil_left_iff, List.map_eq_nil_iff] at hforms
  exact hforms

theorem next?_shadows {here : Cursor} (hforms : o.node.forms = []) (hnode : Node.Respelled f o.node.plain here.node.plain)
    (hframes : List.Forall₂ (Frame.Respelled f) o.frames here.frames) (ho : o.Steady) (hhere : here.Steady) :
    (o.next? = none ∧ here.next? = none ∧ Node.Respelled f o.whole.plain here.whole.plain) ∨
      ∃ o' c', o.next? = some o' ∧ here.next? = some c' ∧ Shadows f o' c' := by
  rw [next?_of_forms_eq_nil hforms, next?_of_forms_eq_nil (forms_eq_nil_of_respelled hnode hforms)]
  exact followingFrom_shadows hframes hnode ho.stamps hhere.stamps

section

variable {m : Matcher} {replacement : Text} {label : Stamp} {a b : Atom}

theorem Shadows.exists_atom (h : Shadows f o c) (ho : o.node = .atom label a) : ∃ label', c.node = .atom label' a := by
  have hnode := h.node
  rw [ho] at hnode
  cases hc : c.node with
  | atom label' b =>
    rw [hc] at hnode
    exact ⟨label', congrArg _ (Node.atom.inj hnode).2⟩
  | _ =>
    rw [hc] at hnode
    cases hnode

theorem respelled_eq_self (h : ¬ (m.matchesAtom a = true ∧ m.renamed replacement a ≠ a.text)) :
    m.respelled replacement a = a :=
  if_neg h

theorem respelled_eq (hmatch : m.matchesAtom a = true) (hne : m.renamed replacement a ≠ a.text)
    (hread : Atom.read (m.renamed replacement a) = .ok b) : m.respelled replacement a = b := by
  rw [Matcher.respelled, if_pos ⟨hmatch, hne⟩, hread]
  rfl

theorem Shadows.replace (h : Shadows f o c) (hc : c.Steady) (ho : o.node = .atom label a) (hb : f a = b) :
    ∃ here, c.replace (.atom none b) = .ok here ∧ here.Steady ∧ Node.Respelled f o.node.plain here.node.plain ∧
      List.Forall₂ (Frame.Respelled f) o.frames here.frames := by
  have hframes := h.frames
  cases hco : o.frames with
  | nil => exact absurd ho (h.top hco label a)
  | cons g outer =>
    rw [hco] at hframes
    obtain ⟨g', outer', hg, houter, hcs⟩ := List.forall₂_cons_left_iff.mp hframes
    obtain ⟨outer'', hapart, hloosens⟩ := Frame.loosens_keepApartOutside (Node.atom c.fresh b).tailText (c.fresh + 1 + 3)
      (g'.replaceFocus (.atom c.fresh b) (c.fresh + 1)) outer'
    have hreplace : c.replace (.atom none b) =
        .ok ⟨.atom c.fresh b, g'.replaceFocus (.atom c.fresh b) (c.fresh + 1) :: outer'', c.fresh + 1 + 5⟩ := by
      rw [← hapart, Cursor.replace]
      simp only [adopt, hcs]
      rfl
    have hfits : (Operation.replace (.atom none b)).Fits False c.fresh := by
      rintro d ⟨⟩
      exact Draft.fits_atom b
    refine ⟨_, hreplace, Operation.steady_run hc hfits hreplace, ?_, .cons (hg.replaceFocus _ _) (hloosens.respelled houter)⟩
    rw [ho, ← hb]
    exact .atom

theorem Shadows.renameHere_atom (h : Shadows (m.respelled replacement) o c) (hc : c.Steady) (ho : o.node = .atom label a)
    (hreads : m.Respells replacement a) :
    ∃ here, c.renameHere m replacement = .ok (here, if m.matchesAtom a then 1 else 0) ∧ here.Steady ∧
      Node.Respelled (m.respelled replacement) o.node.plain here.node.plain ∧
        List.Forall₂ (Frame.Respelled (m.respelled replacement)) o.frames here.frames := by
  obtain ⟨label', hnode⟩ := h.exists_atom ho
  have hkept : m.respelled replacement a = a → Node.Respelled (m.respelled replacement) o.node.plain c.node.plain := by
    intro hself
    rw [h.node]
    refine respelled_self fun b hb => ?_
    rw [ho] at hb
    rwa [List.mem_singleton.mp hb]
  rw [renameHere, hnode]
  by_cases hmatch : m.matchesAtom a = true
  · by_cases hsame : m.renamed replacement a = a.text
    · exact ⟨c, by simp [hmatch, hsame], hc, hkept (respelled_eq_self (by simp [hsame])), h.frames⟩
    · obtain ⟨b, hread⟩ := hreads hmatch hsame
      obtain ⟨here, hreplace, hsteady, hrespelled, hframes⟩ := h.replace hc ho (respelled_eq hmatch hsame hread)
      refine ⟨here, ?_, hsteady, hrespelled, hframes⟩
      simp [hmatch, hsame, hread, hreplace, EditError.ofCursor, Except.map]
  · exact ⟨c, by simp [hmatch], hc, hkept (respelled_eq_self (by simp [hmatch])), h.frames⟩

theorem Shadows.renameHere_error (h : Shadows f o c) (ho : o.node = .atom label a) (hbad : ¬ m.Respells replacement a) :
    ∃ err, c.renameHere m replacement = .error err := by
  obtain ⟨label', hnode⟩ := h.exists_atom ho
  simp only [Matcher.Respells, not_forall] at hbad
  obtain ⟨hmatch, hne, hunread⟩ := hbad
  rw [renameHere, hnode]
  cases hread : Atom.read (m.renamed replacement a) with
  | ok b => exact absurd ⟨b, hread⟩ hunread
  | error err => exact ⟨_, by simp [hmatch, hne, hread]; rfl⟩

theorem exists_node_of_atom? (h : o.place.atom? = some a) : ∃ label, o.node = .atom label a := by
  rw [place, Place.atom?] at h
  cases hnode : o.node with
  | atom label b =>
    rw [hnode] at h
    exact ⟨label, congrArg _ (Option.some.inj h)⟩
  | _ =>
    rw [hnode] at h
    cases h

theorem Shadows.renameHere_of_none (h : Shadows f o c) (hatom : o.place.atom? = none) :
    c.renameHere m replacement = .ok (c, 0) := by
  rw [place, ← h.node, Place.atom?] at hatom
  rw [renameHere]
  cases hnode : c.node with
  | atom label b =>
    rw [hnode] at hatom
    cases hatom
  | _ => rfl

/-- One step of renaming and of the tour that keeps pace with it. -/
theorem Shadows.step (h : Shadows (m.respelled replacement) o c) (ho : o.Steady) (hc : c.Steady)
    (hreads : ∀ a ∈ o.place.atom?, m.Respells replacement a) :
    ∃ here, c.renameHere m replacement = .ok (here, o.place.atom?.toList.countP m.matchesAtom) ∧ here.Steady ∧
      ((o.next? = none ∧ here.next? = none ∧ Node.Respelled (m.respelled replacement) o.whole.plain here.whole.plain) ∨
        ∃ o' c', o.next? = some o' ∧ here.next? = some c' ∧ Shadows (m.respelled replacement) o' c') := by
  cases hatom : o.place.atom? with
  | some a =>
    obtain ⟨label, hnode⟩ := exists_node_of_atom? hatom
    obtain ⟨here, hrename, hhere, hrespelled, hframes⟩ := h.renameHere_atom hc hnode (hreads a hatom)
    refine ⟨here, ?_, hhere, next?_shadows (by rw [hnode]; rfl) hrespelled hframes ho hhere⟩
    rw [hrename, Option.toList_some, List.countP_singleton]
  | none =>
    refine ⟨c, h.renameHere_of_none hatom, hc, ?_⟩
    cases hdown : o.down with
    | ok o' =>
      obtain ⟨c', hc', hshadows⟩ := h.down hdown
      exact .inr ⟨o', c', by rw [next?, hdown], by rw [next?, hc'], hshadows⟩
    | error err =>
      have hforms := forms_of_down hdown
      refine next?_shadows hforms ?_ h.frames ho hc
      rw [h.node]
      -- without forms inside and no atom itself, the node has no atoms
      refine respelled_self fun a ha => ?_
      have hnone : Place.atom? ⟨[], [], o.node.plain⟩ = none := hatom
      rw [← atoms_eq [] [], places_plain, places_of_forms_eq_nil hforms, List.filterMap_cons_none hnone] at ha
      cases ha

/-! ## The whole run -/

theorem renameWithin_next {here next : Cursor} {fuel count hits : Nat} (h : c.renameHere m replacement = .ok (here, hits))
    (hnext : here.next? = some next) :
    renameWithin m replacement (fuel + 1) c count = renameWithin m replacement fuel next (count + hits) := by
  simp only [renameWithin, h, bind, Except.bind, hnext]

theorem renameWithin_last {here : Cursor} {fuel count hits : Nat} (h : c.renameHere m replacement = .ok (here, hits))
    (hnext : here.next? = none) : renameWithin m replacement (fuel + 1) c count = .ok (here, count + hits) := by
  simp only [renameWithin, h, bind, Except.bind, hnext]

def atomsMet (os : List Cursor) : List Atom :=
  os.filterMap fun o => o.place.atom?

theorem atomsMet_cons (o : Cursor) (os : List Cursor) : atomsMet (o :: os) = o.place.atom?.toList ++ atomsMet os := by
  rw [atomsMet, List.filterMap_cons]
  cases o.place.atom? <;> rfl

/-- Where every new text can be read, renaming comes to the end and leaves the tree respelled. -/
theorem Shadows.renameWithin_ok {os : List Cursor} {fuel : Nat} (count : Nat) (htour : Tour o os)
    (h : Shadows (m.respelled replacement) o c) (ho : o.Steady) (hc : c.Steady) (hfuel : os.length ≤ fuel)
    (hreads : ∀ a ∈ atomsMet os, m.Respells replacement a) :
    ∃ last, renameWithin m replacement fuel c count = .ok (last, count + (atomsMet os).countP m.matchesAtom) ∧ last.Steady ∧
      Node.Respelled (m.respelled replacement) o.whole.plain last.whole.plain := by
  induction htour generalizing c fuel count with
  | @last o hnext =>
    obtain ⟨fuel, rfl⟩ := Nat.exists_eq_add_of_le' hfuel
    obtain ⟨here, hrename, hhere, ⟨-, hend, hrespelled⟩ | ⟨o', c', hnext', -⟩⟩ :=
      h.step ho hc fun a ha => hreads a (by simpa [atomsMet_cons] using .inl ha)
    · refine ⟨here, ?_, hhere, hrespelled⟩
      rw [List.length_singleton, renameWithin_last hrename hend, atomsMet_cons, List.countP_append]
      rfl
    · rw [hnext] at hnext'
      cases hnext'
  | @step o o' os hnext htour ih =>
    obtain ⟨fuel, rfl⟩ := Nat.exists_eq_add_of_le' hfuel
    obtain ⟨here, hrename, hhere, ⟨hnone, -, -⟩ | ⟨o'', c', hnext', hnextc, hshadows⟩⟩ :=
      h.step ho hc fun a ha => hreads a (by simpa [atomsMet_cons] using .inl ha)
    · rw [hnext] at hnone
      cases hnone
    · obtain rfl := Option.some.inj (hnext.symm.trans hnext')
      have hwalk : Walk o o' := Walk.refl.next? hnext
      obtain ⟨last, hlast, hsteady, hrespelled⟩ := ih (count + o.place.atom?.toList.countP m.matchesAtom) hshadows
        (ho.walk hwalk) (hhere.walk (Walk.refl.next? hnextc)) (Nat.le_add_left os.length fuel)
        fun a ha => hreads a (by simp [atomsMet_cons, ha])
      rw [hwalk.plain_whole ho.stamps] at hrespelled
      refine ⟨last, ?_, hsteady, hrespelled⟩
      rw [List.length_cons, ← Nat.add_assoc, renameWithin_next hrename hnextc, atomsMet_cons, List.countP_append,
        ← Nat.add_assoc]
      exact hlast

theorem Shadows.renameWithin_here {fuel count : Nat} (h : Shadows f o c)
    (hbad : ¬ ∀ a ∈ o.place.atom?, m.Respells replacement a) :
    ∃ err, renameWithin m replacement (fuel + 1) c count = .error err := by
  simp only [not_forall] at hbad
  obtain ⟨a, hatom, hbad⟩ := hbad
  obtain ⟨label, hnode⟩ := exists_node_of_atom? hatom
  obtain ⟨err, herr⟩ := h.renameHere_error hnode hbad
  exact ⟨err, by rw [renameWithin, herr]; rfl⟩

theorem Shadows.renameWithin_error {os : List Cursor} {fuel : Nat} (count : Nat) (htour : Tour o os)
    (h : Shadows (m.respelled replacement) o c) (ho : o.Steady) (hc : c.Steady) (hfuel : os.length ≤ fuel)
    (hbad : ∃ a ∈ atomsMet os, ¬ m.Respells replacement a) :
    ∃ err, renameWithin m replacement fuel c count = .error err := by
  obtain ⟨a, hmem, hbad⟩ := hbad
  induction htour generalizing c fuel count with
  | @last o hnext =>
    obtain ⟨fuel, rfl⟩ := Nat.exists_eq_add_of_le' hfuel
    refine h.renameWithin_here fun hreads => hbad (hreads a ?_)
    simpa [atomsMet_cons, atomsMet] using hmem
  | @step o o' os hnext htour ih =>
    obtain ⟨fuel, rfl⟩ := Nat.exists_eq_add_of_le' hfuel
    rw [List.length_cons, ← Nat.add_assoc]
    by_cases hreads : ∀ a ∈ o.place.atom?, m.Respells replacement a
    · obtain ⟨here, hrename, hhere, ⟨hnone, -, -⟩ | ⟨o'', c', hnext', hnextc, hshadows⟩⟩ := h.step ho hc hreads
      · rw [hnext] at hnone
        cases hnone
      · obtain rfl := Option.some.inj (hnext.symm.trans hnext')
        rw [renameWithin_next hrename hnextc]
        refine ih _ hshadows (ho.walk (Walk.refl.next? hnext)) (hhere.walk (Walk.refl.next? hnextc)) (Nat.le_add_left _ _) ?_
        -- the atom here is readable, so the other one lies ahead
        rw [atomsMet_cons] at hmem
        rcases List.mem_append.mp hmem with hmem | hmem
        · exact absurd (hreads a (by simpa using hmem)) hbad
        · exact hmem
    · exact h.renameWithin_here hreads

end

/-! ## The renamed tree -/

section

variable {t : Tree} {m : Matcher} {replacement : Text}

theorem shadows_root (hroot : c.tree.isRoot = true) (f : Atom → Atom) : Shadows f c.root c.root := by
  have hframes : c.root.frames = [] := frames_rootFrom _ _ _
  refine ⟨rfl, by rw [hframes]; exact .nil, fun _ label a hnode => ?_⟩
  rw [Cursor.tree, hnode] at hroot
  cases hroot

theorem Within.exists_tour_root (hc : c.Within t) (hroot : c.tree.isRoot = true) :
    ∃ os, Tour c.root os ∧ atomsMet os = c.tree.atoms ∧ os.length ≤ c.root.node.weight + 1 := by
  obtain ⟨os, htour⟩ := hc.root.steady.exists_tour
  have hframes : c.root.frames = [] := frames_rootFrom _ _ _
  have hplaces : os.map place = places [] [] c.tree := by
    rw [htour.map_place_root hc.root.steady hframes, hc.root.whole, ← hc.tree, places_plain]
  have hform : c.tree.isForm = true := by
    cases hnode : c.tree with
    | trivia label t =>
      rw [hnode] at hroot
      cases hroot
    | _ => rfl
  refine ⟨os, htour, ?_, ?_⟩
  · rw [← atoms_eq [] [], ← hplaces, List.filterMap_map]
    rfl
  · rw [← List.length_map place, hplaces, length_places hform]
    exact Nat.le_succ _

theorem Within.exists_goto_respelled {f : Atom → Atom} {last : Cursor} (hc : c.Within t) (hlast : last.Steady)
    (h : Node.Respelled f t last.whole.plain) : ∃ d, last.goto c.path = .ok d := by
  obtain ⟨q, hq, hnode⟩ := (placedByPaths t [] [] c.path c.node.plain).mp ⟨lead c.frames, hc.place_mem⟩
  obtain rfl : c.path = q := by simpa using hq
  obtain ⟨n, hn, -⟩ := Option.map_eq_some_iff.mp hnode
  obtain ⟨l, hl, -⟩ := h.formAt? hn
  rw [← hlast.stamps.plain_tree, formAt?_plain] at hl
  obtain ⟨k, hk, -⟩ := Option.map_eq_some_iff.mp hl
  exact exists_follow_of_formAt? (c := last.root) hk

theorem rename_of_zero {last : Cursor} (h : renameWithin m replacement (c.root.node.weight + 1) c.root 0 = .ok (last, 0)) :
    c.rename m replacement = .ok (c, 0) := by
  rw [rename, h]
  rfl

theorem rename_of_goto {last d : Cursor} {count : Nat}
    (h : renameWithin m replacement (c.root.node.weight + 1) c.root 0 = .ok (last, count)) (hcount : count ≠ 0)
    (hgoto : last.goto c.path = .ok d) : c.rename m replacement = .ok (d, count) := by
  simp only [rename, h, bind, Except.bind, hcount, hgoto, if_false]
  rfl

theorem Within.rename_ok (hc : c.Within t) (hroot : c.tree.isRoot = true)
    (hreads : ∀ a ∈ c.tree.atoms, m.Respells replacement a) :
    ∃ d, c.rename m replacement = .ok (d, (m.findAll c.tree).length) ∧ d.path = c.path ∧
      Node.Respelled (m.respelled replacement) c.tree.plain d.tree.plain ∧ (m.findAll c.tree = [] → d = c) := by
  obtain ⟨os, htour, hatoms, hfuel⟩ := hc.exists_tour_root hroot
  rw [← hatoms] at hreads
  obtain ⟨last, hwithin, hlast, hrespelled⟩ :=
    (shadows_root hroot _).renameWithin_ok 0 htour hc.root.steady hc.root.steady hfuel hreads
  rw [hatoms, ← m.length_findAll, Nat.zero_add] at hwithin
  rw [hc.root.whole, ← hc.tree] at hrespelled
  by_cases hzero : (m.findAll c.tree).length = 0
  · rw [hzero] at hwithin ⊢
    -- no atom matches, so none is respelled
    have hself : ∀ a ∈ c.tree.plain.atoms, m.respelled replacement a = a := by
      intro a ha
      rw [m.length_findAll, List.countP_eq_zero] at hzero
      rw [atoms_plain] at ha
      exact respelled_eq_self fun hmatch => hzero a ha hmatch.1
    exact ⟨c, rename_of_zero hwithin, rfl, respelled_self hself, fun _ => rfl⟩
  · obtain ⟨d, hgoto⟩ := hc.exists_goto_respelled hlast (hc.tree ▸ hrespelled)
    have hwalk : Walk last d := Walk.refl.goto hgoto
    refine ⟨d, rename_of_goto hwithin hzero hgoto, hlast.path_goto hgoto, ?_, fun hnil => absurd (by rw [hnil]; rfl) hzero⟩
    rwa [(hlast.walk hwalk).stamps.plain_tree, hwalk.plain_whole hlast.stamps]

theorem Within.rename_error (hc : c.Within t) (hroot : c.tree.isRoot = true)
    (hbad : ∃ a ∈ c.tree.atoms, ¬ m.Respells replacement a) : ∃ err, c.rename m replacement = .error err := by
  obtain ⟨os, htour, hatoms, hfuel⟩ := hc.exists_tour_root hroot
  rw [← hatoms] at hbad
  obtain ⟨err, herr⟩ := (shadows_root hroot _).renameWithin_error 0 htour hc.root.steady hc.root.steady hfuel hbad
  exact ⟨err, by rw [rename, herr]; rfl⟩

/-- Renaming in a document is a map over the atoms that match. It succeeds if and only if each of them whose new text
differs from its own is renamed to the text of an atom. Then it counts the matches of the search, and puts those atoms in
place of the old ones. Nothing else changes but for single blanks put between nodes, and the cursor keeps its path.
Where nothing matches, the cursor stays as it is. -/
theorem rename_maps_atoms (m : Matcher) (replacement : Text) {start : Stamp} (h : Runs False (ofTree start t) c)
    (hroot : c.tree.isRoot = true) :
    ((∃ d count, c.rename m replacement = .ok (d, count)) ↔
        ∀ a ∈ c.tree.atoms, m.matchesAtom a = true → m.renamed replacement a ≠ a.text →
          ∃ b, Atom.read (m.renamed replacement a) = .ok b) ∧
      (∀ d count, c.rename m replacement = .ok (d, count) →
        count = (m.findAll c.tree).length ∧ d.tree.shape = c.tree.shape.mapAtoms (m.respelled replacement) ∧
          Node.Respelled (m.respelled replacement) c.tree.plain d.tree.plain ∧ d.path = c.path) ∧
        (m.findAll c.tree = [] → c.rename m replacement = .ok (c, 0)) := by
  have hc : c.Within c.tree.plain := ⟨⟨start, t, h⟩, rfl⟩
  have hreads : ∀ {d count}, c.rename m replacement = .ok (d, count) → ∀ a ∈ c.tree.atoms, m.Respells replacement a := by
    intro d count hrename
    by_contra hbad
    simp only [not_forall] at hbad
    obtain ⟨a, ha, hbad⟩ := hbad
    obtain ⟨err, herr⟩ := hc.rename_error hroot ⟨a, ha, hbad⟩
    rw [herr] at hrename
    cases hrename
  refine ⟨⟨?_, ?_⟩, ?_, ?_⟩
  · rintro ⟨d, count, hrename⟩
    exact hreads hrename
  · intro hall
    obtain ⟨d, hrename, -⟩ := hc.rename_ok hroot hall
    exact ⟨d, _, hrename⟩
  · intro d count hrename
    obtain ⟨d', hrename', hpath, hrespelled, -⟩ := hc.rename_ok hroot (hreads hrename)
    obtain ⟨rfl, rfl⟩ := Prod.mk.inj (Except.ok.inj (hrename.symm.trans hrename'))
    have hshape := hrespelled.shape
    rw [shape_plain, shape_plain] at hshape
    exact ⟨rfl, hshape, hrespelled, hpath⟩
  · intro hnil
    have hnone : ∀ a ∈ c.tree.atoms, ¬ m.matchesAtom a = true := by
      rw [← List.countP_eq_zero, ← m.length_findAll, hnil, List.length_nil]
    have hall : ∀ a ∈ c.tree.atoms, m.Respells replacement a := fun a ha hmatch => absurd hmatch (hnone a ha)
    obtain ⟨d, hrename, -, -, hsame⟩ := hc.rename_ok hroot hall
    rw [hrename, hsame hnil, hnil, List.length_nil]

/-- A symbol and a keyword of one name, with a comment between them, seen from a cursor with frames out of step. -/
theorem rename_maps_atoms_comment :
    ∃ (m : Matcher) (c : Cursor), Runs False (ofTree (Supply.outside 0).first (.root [.composite () (.bracket .list) [
        .atom () ⟨.symbol, ['a']⟩, .trivia () (.comment ";c".toList), .composite () (.bracket .list) [
          .atom () ⟨.keyword, [':', 'a']⟩, .trivia () (.whitespace [' ']), .atom () ⟨.symbol, ['d']⟩]]])) c ∧
      inStepFrom c.node c.frames = false ∧ c.tree.isRoot = true ∧ c.source = "(a;c\n(:a e))".toList ∧
        ∃ d, c.rename m "bb".toList = .ok (d, 2) ∧ d.source = "(bb;c\n(:bb e))".toList ∧ d.path = [0, 1, 1] ∧
          Node.Respelled (m.respelled "bb".toList) c.tree.plain d.tree.plain := by
  have hreach : Runs False (ofTree (Supply.outside 0).first
      (.root [.composite () (.bracket .list) [.atom () ⟨.symbol, ['a']⟩,
      .trivia () (.comment ";c".toList), .composite () (.bracket .list) [.atom () ⟨.keyword, [':', 'a']⟩,
        .trivia () (.whitespace [' ']), .atom () ⟨.symbol, ['d']⟩]]])) _ :=
    (Runs.refl.step (.goto [0, 1, 1]) (by rintro d ⟨⟩) rfl).step (.replace (.atom none ⟨.symbol, ['e']⟩))
      (by rintro d ⟨⟩; exact Draft.fits_atom _) rfl
  obtain ⟨-, hmap, -⟩ := rename_maps_atoms ⟨['a'], {}, by decide⟩ "bb".toList hreach (by decide +kernel)
  refine ⟨⟨['a'], {}, by decide⟩, _, hreach, by decide +kernel, by decide +kernel, by decide +kernel, ?_⟩
  generalize hrename : rename _ _ _ = renamed at hmap ⊢
  have hresult : renamed.toOption.map (fun r => (r.1.source, r.1.path, r.2)) =
      some ("(bb;c\n(:bb e))".toList, [0, 1, 1], 2) := by
    rw [← hrename]
    decide +kernel
  cases renamed with
  | error err => cases hresult
  | ok r =>
    obtain ⟨hsource, hpath, hcount⟩ := (Prod.mk.inj (Option.some.inj hresult)).imp_right Prod.mk.inj
    obtain ⟨-, -, hrespelled, -⟩ := hmap r.1 r.2 rfl
    exact ⟨r.1, by rw [← hcount], hsource, hpath, hrespelled⟩

end

end Cursor

end SexprEdit
