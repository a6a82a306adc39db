import SexprEdit.Proofs.Edit.Kept

/-!
# What threading keeps

The steps of a pipeline are calls without one argument, written again from nodes of the document, with a gap where the
argument stood between two forms that would run together. Blanks set the steps apart.
-/

namespace SexprEdit

open Node

variable {care : Care} {fresh : Stamp}

/-- A node of a document under edit. -/
structure Node.Held (care : Care) (fresh : Stamp) (n : Cell) : Prop where
  made : n.Made care.tokens
  below : n.Below fresh
  spaced : care = .spacing → n.Spaced

theorem Node.Held.mono {later : Stamp} {n : Cell} (h : n.Held care fresh) (hle : fresh ≤ later) : n.Held care later :=
  ⟨h.made, h.below.mono hle, h.spaced⟩

theorem Node.Held.child {label : Stamp} {kind : Kind} {ns : List Cell} (h : Held care fresh (.composite label kind ns))
    {n : Cell} (hn : n ∈ ns) : n.Held care fresh ∧ n.isRoot = false := by
  obtain ⟨hmade, hroot⟩ := h.made.children care.lawful n hn
  exact ⟨⟨hmade, (below_iff.mp h.below).2 n hn, fun hcare => (every_iff.mp (h.spaced hcare)).2 n hn⟩, hroot⟩

theorem Cursor.Kept.node {c : Cursor} (h : c.Kept care) : c.node.Held care c.fresh :=
  ⟨made_of_wholeFrom care.lawful h.valid.made, h.valid.steady.below, fun hcare => spaced_of_wholeFrom (h.spaced hcare)⟩

namespace Draft

theorem kept_kept {n : Cell} (h : n.Held care fresh) (hroot : n.isRoot = false) : Kept care fresh n.kept :=
  ⟨⟨keepsBelow_kept h.below, (made_map _ n).mpr h.made, by rw [kept, isRoot_map, hroot]⟩,
    fun hcare => (spaced_map _ n).mpr (h.spaced hcare)⟩

theorem kept_map_kept {ns : List Cell} (h : ∀ n ∈ ns, n.Held care fresh ∧ n.isRoot = false) :
    ∀ d ∈ ns.map Node.kept, Kept care fresh d :=
  List.forall_mem_map.mpr fun n hn => kept_kept (h n hn).1 (h n hn).2

theorem kept_space : Kept care fresh (space none) :=
  ⟨⟨rfl, made_space care.lawful none, rfl⟩, fun _ => rfl⟩

theorem kept_blankIf (needed : Bool) : ∀ d ∈ blankIf needed none, Kept care fresh d := by
  cases needed with
  | false => simp [blankIf]
  | true => simpa [blankIf] using kept_space

theorem madeAll_of_kept {ds : List Draft} (h : ∀ d ∈ ds, Kept care fresh d) : MadeAll care.tokens ds :=
  fun d hd => ⟨(h d hd).ready.made, (h d hd).ready.root⟩

theorem kept_bracket {b : Bracket} (hb : (Token.opening b).Genuine) {ds : List Draft} (hds : ∀ d ∈ ds, Kept care fresh d)
    (hspaced : care = .spacing → (Node.composite none (.bracket b) ds : Draft).Spaced) :
    Kept care fresh (.composite none (.bracket b) ds) := by
  refine ⟨⟨keepsBelow_iff.mpr ⟨by simp [label], fun d hd => (hds d hd).ready.keeps⟩, ?_, rfl⟩, hspaced⟩
  refine (made_variadic_iff care.lawful (by simp)).mpr ⟨madeAll_of_kept hds, fun t ht => ?_⟩
  obtain rfl := List.mem_singleton.mp ht
  exact care.lawful.of_tame _ ⟨hb, rfl⟩

theorem mem_intersperse {α : Type} {sep a : α} {as : List α} (h : a ∈ as.intersperse sep) : a = sep ∨ a ∈ as := by
  induction as with
  | nil => simp at h
  | cons b as ih =>
    cases as with
    | nil => exact .inr (by simpa using h)
    | cons d as =>
      rw [List.intersperse_cons_cons] at h
      rcases List.mem_cons.mp h with rfl | h
      · exact .inr (by simp)
      · rcases List.mem_cons.mp h with rfl | h
        · exact .inl rfl
        · exact (ih h).imp_right (List.mem_cons_of_mem _)

theorem backSpaced_intersperse {kind : Kind} (hkind : ∀ t ∈ kind.opening, t.Genuine) {ds : List Draft}
    (hds : MadeAll Token.Tame ds) : BackSpaced kind (ds.intersperse (space none)) := by
  induction ds with
  | nil => exact backSpaced_nil
  | cons d ds ih =>
    obtain ⟨-, hrest⟩ := madeAll_cons.mp hds
    have hd : ∀ e ∈ some d, e.Sound ∧ e.isRoot = false := by
      rintro e ⟨⟩
      exact sound_of_madeAll hds d (by simp)
    cases ds with
    | nil => exact backSpaced_cons.mpr ⟨runsInto_none hkind hd, backSpaced_nil⟩
    | cons e ds =>
      rw [List.intersperse_cons_cons]
      refine backSpaced_cons.mpr ⟨?_, backSpaced_cons.mpr ⟨runsInto_of_trivia rfl _, ih hrest⟩⟩
      exact runsInto_trivia hkind hd (made_space Token.lawful_tame none) rfl

theorem kept_spaced {b : Bracket} (hb : (Token.opening b).Genuine) {ds : List Draft} (hds : ∀ d ∈ ds, Kept care fresh d) :
    Kept care fresh (Draft.spaced b ds) := by
  have hmem : ∀ d ∈ ds.intersperse (space none), Kept care fresh d := by
    intro d hd
    rcases mem_intersperse hd with rfl | hd
    · exact kept_space
    · exact hds d hd
  refine kept_bracket hb hmem ?_
  rintro rfl
  have hkind : ∀ t ∈ (Kind.bracket b).opening, t.Genuine := by simpa [Kind.opening] using hb
  have hfirst : runsInto (.bracket b) none (ds.intersperse (space none)).head? = false := by
    cases hhead : (ds.intersperse (space none)).head? with
    | none => exact runsInto_none (ι := Option Stamp) hkind (by simp)
    | some d => exact runsInto_first (by simp) hkind (sound_of_madeAll (madeAll_of_kept hmem) d (List.mem_of_head? hhead))
  exact spaced_iff_backSpaced.mpr
    ⟨fun d hd => (hmem d hd).spaced rfl, hfirst, backSpaced_intersperse hkind (madeAll_of_kept hds)⟩

theorem kept_symbol {text : Text} (hgenuine : (Token.bare text).Genuine) (hread : Atom.ofBare text = .ok ⟨.symbol, text⟩) :
    Kept care fresh (Draft.symbol text) := by
  refine kept_atom (a := ⟨.symbol, text⟩) ?_ hgenuine care fresh
  show (Atom.ofBare text).toOption = _
  rw [hread]
  rfl

end Draft

/-! ## Calls without an argument -/

namespace Node

theorem cutAtArgument?_eq_some {style : ThreadStyle} {ns : List Cell} {cut : Cut Cell}
    (h : cutAtArgument? style ns = some cut) : CutsAtForm ns cut := by
  cases style with
  | first => exact cutAtForm?_eq_some h
  | last =>
    rw [cutAtArgument?] at h
    split_ifs at h
    exact (cutAtLast?_eq_some h).1

theorem spaced_without {label : Stamp} {before after : List Cell} {n : Cell}
    (hmade : (composite label (.bracket .list) (before ++ n :: after)).Made Token.Tame)
    (hspaced : (composite label (.bracket .list) (before ++ n :: after)).Spaced) {before' : List Cell}
    (hbefore' : before' <+: before) :
    (composite none (.bracket .list) (before'.map kept ++ (blankIf (needsGap (.bracket .list) before'.getLast? after.head?)
      none ++ after.map kept)) : Draft).Spaced := by
  obtain ⟨more, rfl⟩ := hbefore'
  have hkind := hmade.opening Token.lawful_tame
  have hchildren := hmade.children Token.lawful_tame
  obtain ⟨hspaceds, hfront, -, hback⟩ := spaced_append_iff.mp hspaced
  obtain ⟨-, hback⟩ := backSpaced_cons.mp hback
  have hbefore : MadeAll Token.Tame (before'.map kept) := madeAll_map.mpr fun k hk => hchildren k (by simp [hk])
  have hafter : MadeAll Token.Tame (after.map kept) := madeAll_map.mpr fun k hk => hchildren k (by simp [hk])
  have hgap := ((backSpaced_map some after).mpr hback).gap hkind hafter
    (fun d hd => sound_of_madeAll hbefore d (List.mem_of_getLast? hd)) none
  have hneeds : needsGap (.bracket .list) (before'.map kept).getLast? (after.map kept).head? =
      needsGap (.bracket .list) before'.getLast? after.head? := by
    rw [List.getLast?_map, List.head?_map]
    exact needsGap_map some _ _
  change runsInto _ _ (blankIf (needsGap _ (before'.map kept).getLast? (after.map kept).head?) none ++
    after.map kept).head? = _ ∧
    BackSpaced _ (blankIf (needsGap _ (before'.map kept).getLast? (after.map kept).head?) none ++ after.map kept) at hgap
  rw [hneeds] at hgap
  refine spaced_append_iff.mpr ⟨?_, (frontSpaced_map some before').mpr hfront.left, hgap⟩
  refine List.forall_mem_append.mpr ⟨?_, List.forall_mem_append.mpr ⟨spaced_blankIf _ _, ?_⟩⟩
  · exact List.forall_mem_map.mpr fun k hk => (spaced_map _ k).mpr (hspaceds k (by simp [hk]))
  · exact List.forall_mem_map.mpr fun k hk => (spaced_map _ k).mpr (hspaceds k (by simp [hk]))

/-- What a call is taken apart into: the argument and a step, which is all the rest or the one form in it. -/
theorem peel?_eq_some {style : ThreadStyle} {n argument : Cell} {step : Draft}
    (h : Node.peel? style n = some (step, argument)) :
    ∃ label before after front, n = .composite label (.bracket .list) (before ++ argument :: after) ∧ front <+: before ∧
      (step ∈ front.map kept ++ (blankIf (needsGap (.bracket .list) front.getLast? after.head?) none ++ after.map kept) ∨
        step = .composite none (.bracket .list) (front.map kept ++
          (blankIf (needsGap (.bracket .list) front.getLast? after.head?) none ++ after.map kept))) := by
  rw [Node.peel?] at h
  split_ifs at h with hcall
  obtain ⟨cut, hcut, hparts⟩ := Option.map_eq_some_iff.mp h
  obtain ⟨hwhole, -⟩ := cutAtArgument?_eq_some hcut
  obtain ⟨label, children, rfl⟩ : ∃ label children, n = .composite label (.bracket .list) children := by
    rw [isCall.eq_def] at hcall
    split at hcall
    · exact ⟨_, _, rfl⟩
    · simp at hcall
  obtain rfl : children = cut.before ++ cut.focus :: cut.after := hwhole
  obtain ⟨hstep, rfl⟩ := Prod.mk.inj hparts
  refine ⟨label, cut.before, cut.after, dropBlanksRight cut.before, rfl, Cursor.dropBlanksRight_prefix cut.before, ?_⟩
  rw [List.append_assoc] at hstep
  rw [← hstep]
  split
  · next head _ hfind => exact .inl (List.mem_of_find?_eq_some hfind)
  · exact .inr rfl

theorem Held.peel? {style : ThreadStyle} {n argument : Cell} {step : Draft} (h : n.Held care fresh)
    (hpeel : Node.peel? style n = some (step, argument)) :
    Draft.Kept care fresh step ∧ argument.Held care fresh ∧ argument.isRoot = false := by
  obtain ⟨label, before, after, front, rfl, hfront, hstep⟩ := peel?_eq_some hpeel
  refine ⟨?_, h.child (by simp)⟩
  have hrest : ∀ d ∈ front.map kept ++ (blankIf (needsGap (.bracket .list) front.getLast? after.head?) none ++
      after.map kept), Draft.Kept care fresh d := by
    refine List.forall_mem_append.mpr ⟨?_, List.forall_mem_append.mpr ⟨Draft.kept_blankIf _, ?_⟩⟩
    · exact Draft.kept_map_kept fun k hk => h.child (by simp [hfront.subset hk])
    · exact Draft.kept_map_kept fun k hk => h.child (by simp [hk])
  rcases hstep with hmem | rfl
  · exact hrest step hmem
  · refine Draft.kept_bracket (b := .list) trivial hrest ?_
    rintro rfl
    exact spaced_without h.made (h.spaced rfl) hfront

theorem Held.peelWithin (style : ThreadStyle) {n : Cell} (h : n.Held care fresh) (hroot : n.isRoot = false) (fuel : Nat) :
    (∀ d ∈ (Node.peelWithin style fuel n).1, Draft.Kept care fresh d) ∧
      (Node.peelWithin style fuel n).2.Held care fresh ∧ (Node.peelWithin style fuel n).2.isRoot = false := by
  induction fuel generalizing n with
  | zero => exact ⟨by simp [Node.peelWithin], h, hroot⟩
  | succ fuel ih =>
    rw [Node.peelWithin]
    split
    · next step argument hpeel =>
      obtain ⟨hstep, hargument, hargumentRoot⟩ := h.peel? hpeel
      obtain ⟨hsteps, hcore⟩ := ih hargument hargumentRoot
      exact ⟨List.forall_mem_cons.mpr ⟨hstep, hsteps⟩, hcore⟩
    · exact ⟨by simp, h, hroot⟩

end Node

theorem Draft.kept_arrow (style : ThreadStyle) : Kept care fresh (Draft.symbol style.arrow) := by
  cases style with
  | first => exact kept_symbol ⟨'-', ['>'], rfl, by decide, by decide⟩ rfl
  | last => exact kept_symbol ⟨'-', ['>', '>'], rfl, by decide, by decide⟩ rfl

theorem Cursor.Kept.thread {c c' : Cursor} {style : ThreadStyle} (h : c.Kept care) (hedit : c.thread style = .ok c') :
    c'.Kept care := by
  rw [Cursor.thread] at hedit
  split at hedit
  · next step argument hpeel =>
    split_ifs at hedit
    obtain ⟨hstep, hargument, hroot⟩ := h.node.peel? hpeel
    obtain ⟨hsteps, hcore, hcoreRoot⟩ := hargument.peelWithin style hroot argument.weight
    refine h.replace (Draft.kept_spaced (b := .list) trivial ?_) (ok_of_ofCursor hedit)
    refine List.forall_mem_cons.mpr ⟨Draft.kept_arrow style, ?_⟩
    refine List.forall_mem_cons.mpr ⟨Draft.kept_kept hcore hcoreRoot, ?_⟩
    intro d hd
    rcases List.mem_cons.mp (List.mem_reverse.mp hd) with rfl | hd
    · exact hstep
    · exact hsteps d hd
  · simp at hedit

end SexprEdit
