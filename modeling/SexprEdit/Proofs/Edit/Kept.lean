import SexprEdit.Edit.Mutation
import SexprEdit.Proofs.Cursor.Replace

/-!
# What fragments and renaming keep

Two invariants of a document under edit go side by side. The weaker one says that its tree is grammatical; the stronger
one says that it is also spaced, and has no comment with a hash in front (`Care`). Moves and edits with a fragment keep
both, and so does renaming, which goes over the document by moves and replaces atoms.
-/

namespace SexprEdit

open Node

/-- How much is kept of a document. -/
inductive Care where
  | grammar
  | spacing

def Care.tokens : Care → Token → Prop
  | grammar => Token.Genuine
  | spacing => Token.Tame

theorem Care.lawful (care : Care) : Token.Lawful care.tokens := by
  cases care with
  | grammar => exact Token.lawful_genuine
  | spacing => exact Token.lawful_tame

/-- A text whose comments may be part of a document. -/
def Care.Allows (care : Care) (source : Text) : Prop :=
  ∀ u, Lexeme.token u ∈ lex source → u.Genuine → care.tokens u

/-- A draft that may be put into a document. -/
structure Draft.Kept (care : Care) (fresh : Stamp) (d : Draft) : Prop where
  ready : Cursor.Ready care.tokens fresh d
  spaced : care = .spacing → d.Spaced

namespace Cursor

variable {care : Care} {c c' : Cursor} {d : Draft}

/-- A cursor in a document of which so much is kept. -/
structure Kept (care : Care) (c : Cursor) : Prop where
  valid : c.Valid care.tokens
  spaced : care = .spacing → c.whole.Spaced

theorem Kept.walk (h : c.Kept care) (hwalk : Walk c c') : c'.Kept care :=
  ⟨h.valid.of_move (h.valid.on.walk hwalk), fun hcare => spaced_of_move (h.valid.on.walk hwalk) (h.spaced hcare)⟩

theorem Kept.replace (h : c.Kept care) (hd : d.Kept care c.fresh) (hedit : c.replace d = .ok c') : c'.Kept care := by
  refine ⟨h.valid.replace care.lawful hd.ready hedit, ?_⟩
  rintro rfl
  exact spaced_replace h.valid (h.spaced rfl) hd.ready (hd.spaced rfl) hedit

theorem Kept.insertBefore (h : c.Kept care) (hd : d.Kept care c.fresh) (hedit : c.insertBefore d = .ok c') :
    c'.Kept care := by
  refine ⟨h.valid.insertBefore care.lawful hd.ready hedit, ?_⟩
  rintro rfl
  exact spaced_insertBefore h.valid (h.spaced rfl) hd.ready (hd.spaced rfl) hedit

theorem Kept.insertAfter (h : c.Kept care) (hd : d.Kept care c.fresh) (hedit : c.insertAfter d = .ok c') :
    c'.Kept care := by
  refine ⟨h.valid.insertAfter care.lawful hd.ready hedit, ?_⟩
  rintro rfl
  exact spaced_insertAfter h.valid (h.spaced rfl) hd.ready (hd.spaced rfl) hedit

theorem Kept.insertChild (h : c.Kept care) (hd : d.Kept care c.fresh) (hedit : c.insertChild d = .ok c') :
    c'.Kept care := by
  refine ⟨h.valid.insertChild care.lawful hd.ready hedit, ?_⟩
  rintro rfl
  exact spaced_insertChild h.valid (h.spaced rfl) hd.ready (hd.spaced rfl) hedit

theorem Kept.appendChild (h : c.Kept care) (hd : d.Kept care c.fresh) (hedit : c.appendChild d = .ok c') :
    c'.Kept care := by
  refine ⟨h.valid.appendChild care.lawful hd.ready hedit, ?_⟩
  rintro rfl
  exact spaced_appendChild h.valid (h.spaced rfl) hd.ready (hd.spaced rfl) hedit

theorem Kept.remove (h : c.Kept care) (hedit : c.remove = .ok c') : c'.Kept care := by
  refine ⟨h.valid.remove care.lawful hedit, ?_⟩
  rintro rfl
  exact spaced_remove h.valid (h.spaced rfl) hedit

end Cursor

/-! ## Fragments -/

theorem Tree.made_of_read {care : Care} {source : Text} {t : Tree} (h : Tree.read source = .ok t)
    (hsource : care.Allows source) : t.Made care.tokens := by
  obtain ⟨-, hgrammatical, hlex⟩ := Reader.readAll_sound h
  obtain ⟨-, hsound, -⟩ := Tree.sound_of_read h
  refine ⟨hgrammatical, fun u hu => hsource u ?_ (hsound.token u hu)⟩
  rw [hlex]
  exact List.mem_map_of_mem hu

theorem Tree.kept_of_read {care : Care} {source : Text} {t form : Tree} (h : Tree.read source = .ok t)
    (hsource : care.Allows source) (hmem : form ∈ t.children) :
    form.Made care.tokens ∧ form.isRoot = false ∧ form.Spaced := by
  obtain ⟨-, -, hspaced⟩ := Tree.sound_of_read h
  have hmade := Tree.made_of_read h hsource
  cases t with
  | composite label kind children =>
    obtain ⟨hform, hroot⟩ := hmade.children care.lawful form hmem
    exact ⟨hform, hroot, (every_iff.mp hspaced).2 form hmem⟩
  | _ => simp [children] at hmem

theorem Draft.kept_draft {care : Care} {form : Tree} (hmade : form.Made care.tokens) (hroot : form.isRoot = false)
    (hspaced : form.Spaced) (fresh : Stamp) : Draft.Kept care fresh form.draft :=
  ⟨⟨keepsBelow_draft fresh form, (made_map _ form).mpr hmade, by rw [draft, isRoot_map, hroot]⟩,
    fun _ => (spaced_map _ form).mpr hspaced⟩

theorem Tree.kept_of_readFragment {care : Care} {fragment : Text} {form : Tree}
    (h : Tree.readFragment fragment = .ok form) (hfragment : care.Allows fragment) (fresh : Stamp) :
    Draft.Kept care fresh form.draft := by
  rw [Tree.readFragment, Tree.readForms] at h
  cases hread : Tree.read fragment with
  | error e => simp [hread, bind, Except.bind] at h
  | ok t =>
    simp only [hread, bind, Except.bind, pure, Except.pure] at h
    split at h
    · simp at h
    · simp at h
    · next only hforms =>
      obtain rfl := Except.ok.inj h
      have hmem : only ∈ t.forms := by
        rw [Except.ok.inj hforms]
        exact List.mem_singleton_self only
      obtain ⟨hmade, hroot, hspaced⟩ := Tree.kept_of_read hread hfragment (List.mem_filter.mp hmem).1
      exact Draft.kept_draft hmade hroot hspaced fresh
    · simp at h

theorem Atom.read_spec {source : Text} {a : Atom} (h : Atom.read source = .ok a) :
    a.text = source ∧ a.token.atom? = some a ∧ a.token.Genuine := by
  obtain ⟨t, hread, h⟩ := Except.exists_ok_of_bind h
  obtain ⟨hroot, hsound, -⟩ := Tree.sound_of_read hread
  have htext := Tree.text_of_read hread
  split at h
  · next label b hchildren =>
    obtain rfl := Except.ok.inj h
    cases t with
    | composite label' kind children =>
      obtain rfl : children = [.atom label b] := hchildren
      have hb := (hsound.children Token.lawful_genuine (.atom label b) (by simp)).1
      refine ⟨?_, grammatical_atom_iff.mp hb.grammatical, hb.token b.token (by simp [tokens])⟩
      cases kind with
      | root => simpa [Node.text, childrenText, Kind.opener, Kind.closer, isComment] using htext
      | _ => simp [Node.isRoot] at hroot
    | _ => simp [Node.isRoot] at hroot
  · cases h
  · cases h

theorem Token.isHashComment_atom (a : Atom) : a.token.isHashComment = false := by
  rw [Atom.token]
  split <;> rfl

theorem Draft.kept_atom {a : Atom} (hatom : a.token.atom? = some a) (hgenuine : a.token.Genuine) (care : Care)
    (fresh : Stamp) : Draft.Kept care fresh (.atom none a) := by
  refine ⟨⟨rfl, ⟨grammatical_atom_iff.mpr hatom, fun t ht => ?_⟩, rfl⟩, fun _ => rfl⟩
  obtain rfl := List.mem_singleton.mp ht
  exact care.lawful.of_tame _ ⟨hgenuine, Token.isHashComment_atom a⟩

/-! ## Renaming -/

namespace Cursor

variable {care : Care} {c c' : Cursor}

/-- A property of cursors that moves keep, and that putting in an atom keeps. -/
structure RenameInvariant (P : Cursor → Prop) : Prop where
  move : ∀ {c c' : Cursor} (direction : Direction), P c → direction.move c = .ok c' → P c'
  goto : ∀ {c c' : Cursor} {path : List Nat}, P c → c.goto path = .ok c' → P c'
  atom : ∀ {c c' : Cursor} {a : Atom} {text : Text}, P c → Atom.read text = .ok a → c.replace (.atom none a) = .ok c' → P c'

variable {P : Cursor → Prop} {m : Matcher} {replacement : Text}

theorem RenameInvariant.renameHere (hP : RenameInvariant P) {hits : Nat} (h : P c)
    (hedit : c.renameHere m replacement = .ok (c', hits)) : P c' := by
  rw [Cursor.renameHere] at hedit
  split at hedit
  · next label a _ =>
    simp only at hedit
    split_ifs at hedit
    · obtain ⟨rfl, -⟩ := Prod.mk.inj (Except.ok.inj hedit)
      exact h
    · split at hedit
      · simp at hedit
      · next renamed hread =>
        cases hreplace : EditError.ofCursor (c.replace (.atom none renamed)) with
        | error e => simp [hreplace, Except.map] at hedit
        | ok next =>
          simp only [hreplace, Except.map, Except.ok.injEq, Prod.mk.injEq] at hedit
          obtain ⟨rfl, -⟩ := hedit
          exact hP.atom h hread (ok_of_ofCursor hreplace)
    · obtain ⟨rfl, -⟩ := Prod.mk.inj (Except.ok.inj hedit)
      exact h
  · obtain ⟨rfl, -⟩ := Prod.mk.inj (Except.ok.inj hedit)
    exact h

theorem RenameInvariant.renameWithin (hP : RenameInvariant P) {fuel count total : Nat} (h : P c)
    (hedit : Cursor.renameWithin m replacement fuel c count = .ok (c', total)) : P c' := by
  induction fuel generalizing c count with
  | zero =>
    obtain ⟨rfl, -⟩ := Prod.mk.inj (Except.ok.inj hedit)
    exact h
  | succ fuel ih =>
    rw [Cursor.renameWithin] at hedit
    obtain ⟨⟨here, hits⟩, hhere, hedit⟩ := Except.exists_ok_of_bind hedit
    have hkept := hP.renameHere h hhere
    simp only at hedit
    split at hedit
    · next next hnext =>
      have hmove : Direction.next.move here = .ok next := by rw [Direction.move, hnext]; rfl
      exact ih (hP.move .next hkept hmove) hedit
    · obtain ⟨rfl, -⟩ := Prod.mk.inj (Except.ok.inj hedit)
      exact hkept

/-- Renaming goes over the document by moves and puts in atoms. -/
theorem RenameInvariant.rename (hP : RenameInvariant P) {count : Nat} (h : P c)
    (hedit : c.rename m replacement = .ok (c', count)) : P c' := by
  rw [Cursor.rename] at hedit
  obtain ⟨⟨last, total⟩, hwithin, hedit⟩ := Except.exists_ok_of_bind hedit
  have hlast := hP.renameWithin (hP.move .root h rfl) hwithin
  simp only at hedit
  split_ifs at hedit
  · obtain ⟨rfl, -⟩ := Prod.mk.inj (Except.ok.inj hedit)
    exact h
  · split at hedit
    · next restored hgoto =>
      obtain ⟨rfl, -⟩ := Prod.mk.inj (Except.ok.inj hedit)
      exact hP.goto hlast hgoto
    · obtain ⟨rfl, -⟩ := Prod.mk.inj (Except.ok.inj hedit)
      exact hP.move .root hlast rfl

theorem Kept.rename {count : Nat} (h : c.Kept care) (hedit : c.rename m replacement = .ok (c', count)) : c'.Kept care := by
  have hP : RenameInvariant (Kept care) := by
    refine ⟨fun direction h hmove => h.walk (Direction.walk hmove), fun h hgoto => h.walk (Walk.refl.goto hgoto), ?_⟩
    intro c c' a text h hread hreplace
    obtain ⟨-, hatom, hgenuine⟩ := Atom.read_spec hread
    exact h.replace (Draft.kept_atom hatom hgenuine care c.fresh) hreplace
  exact hP.rename h hedit

end Cursor

end SexprEdit
