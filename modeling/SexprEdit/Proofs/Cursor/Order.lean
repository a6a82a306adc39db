import SexprEdit.Proofs.Cursor.Offset
import SexprEdit.Proofs.Node.Places

/-!
# Document order

The places that are ahead of a cursor are those of its node and, level by level, those of the siblings that follow. Moving
to the next form drops the first of them, moving to the form before puts one in front, and climbing or descending any
number of levels on the way makes no difference (`Steady.ahead_next`, `Steady.ahead_prev`). What is ahead of a cursor is a
final part of the places of the tree, which come in the lexicographic order of their paths, so it depends on the tree
and the path alone.
-/

namespace SexprEdit

open Node

namespace Cursor

variable {c d e : Cursor} {n m : Cell} {f g : Frame} {outer frames : List Frame} {fresh : Stamp}

def place (c : Cursor) : Place :=
  ⟨c.path, lead c.frames, c.node.plain⟩

/-- The places after a node in the composites around it, given the text up to the end of the node. -/
def trailing (before : Text) : List Frame → List Place
  | [] => []
  | f :: outer =>
    placesAll (trail outer) (f.index + 1) (!f.kind.closer.isEmpty) before f.after ++
      trailing (before ++ childrenText (!f.kind.closer.isEmpty) f.after ++ f.kind.closer) outer

/-- The places from a node on, given the frames around it. -/
def placesFrom (n : Cell) (frames : List Frame) : List Place :=
  places (trail frames) (lead frames) n ++ trailing (lead frames ++ n.text) frames

def ahead (c : Cursor) : List Place :=
  placesFrom c.node c.frames

/-! ## Places around a node -/

theorem trail_cons (f : Frame) (outer : List Frame) : trail (f :: outer) = trail outer ++ [f.index] := by
  rw [trail, List.map_cons, List.reverse_cons, trail]

theorem placesFrom_fill (f : Frame) (outer : List Frame) (hn : n.isForm = true) :
    placesFrom (f.fill n) outer = ⟨trail outer, lead outer, (f.fill n).plain⟩ ::
      (placesAll (trail outer) 0 true (lead outer ++ f.kind.opener) f.before ++ placesFrom n (f :: outer)) := by
  have htext : lead outer ++ (f.fill n).text =
      lead (f :: outer) ++ n.text ++ childrenText (!f.kind.closer.isEmpty) f.after ++ f.kind.closer := by
    rw [text_fill f hn, lead]
    simp only [List.append_assoc]
  rw [placesFrom, htext, Frame.fill, places, placesAll_append, startsWithNewline_of_isForm hn, placesAll_of_isForm hn,
    placesFrom, trail_cons, trailing, lead, Frame.index, Nat.zero_add]
  simp only [Bool.not_false, List.cons_append, List.append_assoc]

theorem trailing_of_trivia (outer : List Frame) (hn : n.isForm = true) (h : ∀ k ∈ f.after, k.isForm = false) :
    trailing (lead (f :: outer) ++ n.text) (f :: outer) = trailing (lead outer ++ (f.fill n).text) outer := by
  rw [trailing, placesAll_of_trivia h, List.nil_append, text_fill f hn, lead]
  simp only [List.append_assoc]

theorem trailing_toRight {between after : List Cell} (stamp : Stamp) (focus : Cell) (outer : List Frame) (hn : n.isForm = true)
    (hafter : f.after = between ++ m :: after) (hbetween : ∀ k ∈ between, k.isForm = false) (hm : m.isForm = true) :
    trailing (lead (f :: outer) ++ n.text) (f :: outer) =
      placesFrom m (⟨stamp, f.kind, f.before ++ n :: between, focus, after⟩ :: outer) := by
  have hindex : Frame.index ⟨stamp, f.kind, f.before ++ n :: between, focus, after⟩ = f.index + 1 := by
    rw [Frame.index, formCount_append, formCount_cons_eq, if_pos hn, formCount_eq_zero hbetween]
    rfl
  have hfront : childrenText true (f.before ++ n :: between) =
      childrenText true f.before ++ n.text ++ childrenText true between := by
    rw [childrenText_append, startsWithNewline_of_isForm hn, ending_of_isForm hn]
    simp
  have hback : childrenText (!f.kind.closer.isEmpty) f.after =
      childrenText true between ++ m.text ++ childrenText (!f.kind.closer.isEmpty) after := by
    rw [hafter, childrenText_append, startsWithNewline_of_isForm hm, ending_of_isForm hm]
    simp
  rw [trailing, hback, hafter, placesAll_append_trivia hbetween hm, placesFrom, trail_cons, trailing, lead, lead, hindex,
    hfront]
  simp only [List.append_assoc]

/-- What is ahead of a cursor is a final part of the places of the whole tree. -/
theorem placesFrom_suffix (hn : frames ≠ [] → n.isForm = true) : placesFrom n frames <:+ places [] [] (wholeFrom n frames) := by
  induction frames generalizing n with
  | nil =>
    rw [placesFrom, trailing, List.append_nil]
    exact List.suffix_rfl
  | cons f outer ih =>
    have hfill := ih (n := f.fill n) fun _ => rfl
    rw [placesFrom_fill f outer (hn (by simp)), ← List.cons_append] at hfill
    exact (List.suffix_append _ _).trans hfill

/-! ## Moves -/

theorem down_eq_ok (h : c.down = .ok d) :
    ∃ g, g.parent = c.node ∧ g.focus.isForm = true ∧ (∀ k ∈ g.before, k.isForm = false) ∧
      d = ⟨g.focus, g :: c.frames, c.fresh⟩ := by
  obtain ⟨node, frames, fresh⟩ := c
  cases node with
  | composite label kind children =>
    rw [down] at h
    cases hcut : cutAtFirst? children with
    | none => simp [hcut] at h
    | some cut =>
      obtain ⟨⟨hwhole, hform⟩, hbefore⟩ := cutAtFirst?_eq_some hcut
      simp only [hcut, Except.ok.injEq] at h
      exact ⟨⟨label, kind, cut.before, cut.focus, cut.after⟩, by rw [hwhole]; rfl, hform, hbefore, h.symm⟩
  | _ => simp [down] at h

theorem forms_of_down {err : CursorError} (h : c.down = .error err) : c.node.forms = [] := by
  rw [down] at h
  split at h
  · next label kind children hnode =>
    split at h
    · simp at h
    · next hcut =>
      rw [hnode, forms, Node.children, List.filter_eq_nil_iff]
      intro k hk
      simp [cutAtFirst?_eq_none hcut k hk]
  · next hnode =>
    cases hc : c.node with
    | composite label kind children => exact absurd hc (hnode label kind children)
    | _ => rfl

theorem followingFrom_ahead (h : SteadyFrom fresh n frames) (hn : frames ≠ [] → n.isForm = true) :
    (followingFrom n fresh frames).elim [] ahead = trailing (lead frames ++ n.text) frames := by
  induction frames generalizing n fresh with
  | nil => rfl
  | cons f outer ih =>
    have hn : n.isForm = true := hn (by simp)
    obtain ⟨stamp, hsettle, hparent⟩ := h.settle
    rw [followingFrom]
    cases hcut : cutAtFirst? f.after with
    | none =>
      have htext : (f.settle n fresh).1.parent.text = (f.fill n).text := by rw [hsettle]; rfl
      rw [trailing_of_trivia outer hn (cutAtFirst?_eq_none hcut), ← htext]
      exact ih hparent fun _ => rfl
    | some cut =>
      obtain ⟨⟨hwhole, hform⟩, hbefore⟩ := cutAtFirst?_eq_some hcut
      rw [trailing_toRight stamp cut.focus outer hn hwhole hbefore hform]
      simp only [hsettle]
      rfl

/-- The next form is the first place after the current one. -/
theorem Steady.ahead_eq (hc : c.Steady) : c.ahead = c.place :: c.next?.elim [] ahead := by
  rw [next?]
  cases hdown : c.down with
  | ok child =>
    obtain ⟨g, hparent, hform, hbefore, rfl⟩ := down_eq_ok hdown
    have hfill := placesFrom_fill g c.frames hform
    rw [placesAll_of_trivia hbefore, List.nil_append] at hfill
    have hnode : g.fill g.focus = c.node := hparent
    rw [hnode] at hfill
    exact hfill
  | error err =>
    rw [ahead, placesFrom, places_of_forms_eq_nil (forms_of_down hdown), followingFrom_ahead hc.stamps hc.form]
    rfl

theorem Steady.ahead_next (hc : c.Steady) (h : c.next? = some d) : c.ahead = c.place :: d.ahead := by
  rw [hc.ahead_eq, h]
  rfl

theorem rightmost_down (h : c.down = .ok d) :
    ∃ g, g.parent = c.node ∧ g.focus.isForm = true ∧ (∀ k ∈ g.after, k.isForm = false) ∧
      d.rightmost = ⟨g.focus, g :: c.frames, c.fresh⟩ := by
  obtain ⟨g, hparent, hform, -, rfl⟩ := down_eq_ok h
  have hsettle : g.settle g.focus c.fresh = (g, c.fresh) := by simp [Frame.settle, Frame.inStep]
  rw [rightmost]
  simp only [hsettle]
  cases hcut : cutAtLast? g.after with
  | none => exact ⟨g, hparent, hform, cutAtLast?_eq_none hcut, rfl⟩
  | some cut =>
    obtain ⟨⟨hwhole, hlast⟩, hafter⟩ := cutAtLast?_eq_some hcut
    refine ⟨g.toRight cut, ?_, hlast, hafter, rfl⟩
    rw [← hparent, Frame.parent, Frame.parent, Frame.toRight, hwhole]
    simp

theorem weight_le_weightAll {ns : List Cell} (h : n ∈ ns) : n.weight ≤ weightAll ns := by
  induction ns with
  | nil => simp at h
  | cons m ns ih =>
    rw [weightAll]
    rcases List.mem_cons.mp h with rfl | h
    · exact Nat.le_add_right _ _
    · exact (ih h).trans (Nat.le_add_left _ _)

theorem ahead_descendWithin {fuel : Nat} (hform : c.frames ≠ [] → c.node.isForm = true) (hfuel : c.node.weight ≤ fuel) :
    (descendWithin fuel c).ahead = (descendWithin fuel c).place :: trailing (lead c.frames ++ c.node.text) c.frames := by
  induction fuel generalizing c with
  | zero =>
    have hforms : c.node.forms = [] := by
      cases hc : c.node with
      | composite label kind children => simp [hc, weight] at hfuel
      | _ => rfl
    rw [descendWithin, ahead, placesFrom, places_of_forms_eq_nil hforms]
    rfl
  | succ fuel ih =>
    rw [descendWithin]
    cases hdown : c.down with
    | error err =>
      simp only
      rw [ahead, placesFrom, places_of_forms_eq_nil (forms_of_down hdown)]
      rfl
    | ok child =>
      obtain ⟨g, hparent, hfocus, hafter, heq⟩ := rightmost_down hdown
      simp only [heq]
      have hweight : g.focus.weight < c.node.weight := by
        rw [← hparent, Frame.parent, weight]
        exact Nat.lt_succ_of_le (weight_le_weightAll (by simp))
      have hlast := ih (c := ⟨g.focus, g :: c.frames, c.fresh⟩) (fun _ => hfocus) (by simp only; omega)
      have hnode : g.fill g.focus = c.node := hparent
      rw [hlast, trailing_of_trivia c.frames hfocus hafter, hnode]

theorem left_eq_ok (h : c.left = .ok d) :
    ∃ f outer cut, c.frames = f :: outer ∧ cutAtLast? f.before = some cut ∧
      d = ⟨cut.focus, (f.settle c.node c.fresh).1.toLeft cut :: outer, (f.settle c.node c.fresh).2⟩ := by
  obtain ⟨node, frames, fresh⟩ := c
  cases frames with
  | nil => simp [left] at h
  | cons f outer =>
    rw [left] at h
    cases hcut : cutAtLast? f.before with
    | none => simp [hcut] at h
    | some cut =>
      simp only [hcut, Except.ok.injEq] at h
      exact ⟨f, outer, cut, rfl, hcut, h.symm⟩

theorem trivia_of_left {err : CursorError} (h : c.left = .error err) (hframes : c.frames = f :: outer) :
    ∀ k ∈ f.before, k.isForm = false := by
  rw [left, hframes] at h
  cases hcut : cutAtLast? f.before with
  | none => exact cutAtLast?_eq_none hcut
  | some cut => simp [hcut] at h

/-- The form before is the one whose next place is the current one. -/
theorem Steady.ahead_prev (hc : c.Steady) (h : c.prev? = some d) : d.ahead = d.place :: c.ahead := by
  rw [prev?] at h
  cases hleft : c.left with
  | ok sibling =>
    simp only [hleft, Option.some.injEq] at h
    obtain ⟨f, outer, cut, hframes, hcut, rfl⟩ := left_eq_ok hleft
    obtain ⟨⟨hwhole, hform⟩, hafter⟩ := cutAtLast?_eq_some hcut
    have hn : c.node.isForm = true := hc.form (by simp [hframes])
    have hstamps := hc.stamps
    rw [hframes] at hstamps
    obtain ⟨stamp, hsettle, -⟩ := hstamps.settle
    have hlast := ahead_descendWithin (c := ⟨cut.focus, (f.settle c.node c.fresh).1.toLeft cut :: outer,
      (f.settle c.node c.fresh).2⟩) (fun _ => hform) (Nat.le_refl _)
    subst h
    refine hlast.trans (congrArg _ ?_)
    -- the sibling's frame, moved back to the right, is the frame of the cursor
    have hright := trailing_toRight (f := (f.settle c.node c.fresh).1.toLeft cut) f.stamp f.focus outer hform
      (by rw [hsettle]; rfl) hafter hn
    refine hright.trans ?_
    rw [ahead, hframes, hsettle]
    simp only [Frame.toLeft, ← hwhole]
  | error err =>
    simp only [hleft] at h
    cases hframes : c.frames with
    | nil => simp [up, hframes, Except.toOption] at h
    | cons f outer =>
      have hn : c.node.isForm = true := hc.form (by simp [hframes])
      have hstamps := hc.stamps
      rw [hframes] at hstamps
      obtain ⟨stamp, hsettle, -⟩ := hstamps.settle
      simp only [up, hframes, Except.toOption, Option.some.injEq] at h
      subst h
      have hfill := placesFrom_fill { f with stamp := stamp, focus := c.node } outer hn
      rw [placesAll_of_trivia (trivia_of_left hleft hframes), List.nil_append] at hfill
      rw [ahead, ahead, place, hframes, hsettle]
      exact hfill

theorem prev?_eq_none_iff : c.prev? = none ↔ c.path = [] := by
  rw [prev?, path, List.reverse_eq_nil_iff, List.map_eq_nil_iff]
  cases hframes : c.frames with
  | nil => simp [left, up, hframes, Except.toOption]
  | cons f outer =>
    cases hleft : c.left with
    | ok sibling => simp
    | error err => simp [up, hframes, Except.toOption]

/-! ## Places and paths -/

theorem exists_follow_of_formAt? {p : List Nat} (h : c.node.formAt? p = some n) : ∃ d, c.follow p = .ok d := by
  induction p generalizing c with
  | nil => exact ⟨c, rfl⟩
  | cons k p ih =>
    obtain ⟨child, hchild, hn⟩ := Option.bind_eq_some_iff.mp h
    obtain ⟨node, frames, fresh⟩ := c
    cases node with
    | composite label kind children =>
      obtain ⟨before, after, rfl, rfl, hform⟩ := exists_of_getElem?_filter hchild
      obtain ⟨d, hd⟩ := ih (c := ⟨child, ⟨label, kind, before, child, after⟩ :: frames, fresh⟩) hn
      refine ⟨d, (follow_append [formCount before] p).trans ?_⟩
      rw [follow_singleton hform]
      exact hd
    | _ => cases hchild

theorem eq_of_suffix {all ps qs : List Place} {p q : Place} (hall : all.Pairwise (·.path < ·.path)) (hp : p :: ps <:+ all)
    (hq : q :: qs <:+ all) (hpath : p.path = q.path) : p :: ps = q :: qs := by
  have hlt : ∀ {p q : Place} {ps qs : List Place}, q :: qs <:+ all → p :: ps <:+ qs → q.path < p.path := by
    intro p q ps qs hq hp
    exact (List.pairwise_cons.mp (hall.sublist hq.sublist)).1 p (hp.subset (by simp))
  rcases List.suffix_or_suffix_of_suffix hp hq with h | h
  · rcases List.suffix_cons_iff.mp h with heq | hin
    · exact heq
    · exact absurd (hlt hq hin) (by rw [hpath]; exact List.lt_irrefl _)
  · rcases List.suffix_cons_iff.mp h with heq | hin
    · exact heq.symm
    · exact absurd (hlt hp hin) (by rw [hpath]; exact List.lt_irrefl _)

theorem Steady.ahead_suffix (hc : c.Steady) : c.ahead <:+ places [] [] c.whole.plain := by
  rw [places_plain]
  exact placesFrom_suffix hc.form

theorem Steady.ahead_congr (hc : c.Steady) (hd : d.Steady) (htree : c.whole.plain = d.whole.plain) (hpath : c.path = d.path) :
    c.ahead = d.ahead := by
  have hcs := hc.ahead_suffix
  have hds := hd.ahead_suffix
  rw [← htree] at hds
  rw [hc.ahead_eq] at hcs ⊢
  rw [hd.ahead_eq] at hds ⊢
  exact eq_of_suffix (pairwise_places [] [] _) hcs hds hpath

theorem Steady.place_mem (hc : c.Steady) : c.place ∈ places [] [] c.whole.plain :=
  hc.ahead_suffix.subset (by rw [hc.ahead_eq]; simp)

theorem Steady.exists_split (hc : c.Steady) :
    ∃ front, places [] [] c.whole.plain = front ++ c.ahead ∧ (∀ p ∈ front, p.path < c.path) ∧
      ∀ p ∈ c.ahead.tail, c.path < p.path := by
  obtain ⟨front, hfront⟩ := hc.ahead_suffix
  have hsorted := pairwise_places [] [] c.whole.plain
  rw [← hfront, hc.ahead_eq] at hsorted
  obtain ⟨-, hrest, hcross⟩ := List.pairwise_append.mp hsorted
  refine ⟨front, hfront.symm, fun p hp => hcross p hp c.place (by simp), fun p hp => ?_⟩
  rw [hc.ahead_eq] at hp
  exact (List.pairwise_cons.mp hrest).1 p hp

end Cursor

end SexprEdit
