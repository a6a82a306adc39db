import SexprEdit.Proofs.Cursor.Inversion
import SexprEdit.Proofs.Cursor.Whole
import SexprEdit.Proofs.Node.Edited

/-!
# Composites written anew

An edit writes one composite anew: the current node or the one around it. It gives the new composite a new stamp and
leaves the frames further out as they are, and the cursor then rests on the composite or on a form in it (`Recasts`). So
an edit keeps the stamps of a cursor in order (`Steady`). Replacing does the same, and may then put a blank further out.
-/

namespace SexprEdit

/-- What a composite around can tell of a node: everything but its label and children. -/
def Node.face {ι : Type} : Node ι → Tree
  | composite _ kind _ => composite () kind []
  | atom _ a => atom () a
  | trivia _ t => trivia () t

open Node

namespace Cursor

open SexprEdit.Frame (separator)

variable {c c' : Cursor} {d : Draft} {n m m' : Cell} {later : Stamp} {outer : List Frame}

/-- The stamps of a cursor are in order, and inside the tree it rests on a form. -/
structure Steady (c : Cursor) : Prop where
  stamps : SteadyFrom c.fresh c.node c.frames
  form : c.frames ≠ [] → c.node.isForm = true

theorem Walk.frames_cases (h : Walk c c') : (c'.node = c.node ∧ (c.frames = [] ↔ c'.frames = [])) ∨ c'.node.isForm = true := by
  induction h with
  | refl => exact .inl ⟨rfl, Iff.rfl⟩
  | enter _ hform _ => exact .inr hform
  | leave _ _ => exact .inr rfl
  | settle _ ih => exact ih.imp_left fun hsame => ⟨hsame.1, by simpa using hsame.2⟩

theorem Steady.walk (h : c.Steady) (hwalk : Walk c c') : c'.Steady := by
  refine ⟨hwalk.steady h.stamps, fun hframes => ?_⟩
  rcases hwalk.frames_cases with ⟨hnode, hiff⟩ | hform
  · rw [hnode]
    exact h.form (mt hiff.mp hframes)
  · exact hform

theorem steady_ofTree (start : Stamp) (t : Tree) : (ofTree start t).Steady :=
  ⟨stamps_ofTree start t, fun h => absurd rfl h⟩

/-- The numbers of the forms to follow through some frames, from the outside in. -/
def trail (frames : List Frame) : List Nat :=
  (frames.map Frame.index).reverse

theorem path_of_frames {f : Frame} (h : c.frames = f :: outer) : c.path = trail outer ++ [f.index] := by
  rw [path, h, trail, List.map_cons, List.reverse_cons]

theorem path_cons {f : Frame} {fresh : Stamp} : path ⟨n, f :: outer, fresh⟩ = trail outer ++ [f.index] :=
  path_of_frames rfl

/-! ## Which composite is written -/

/-- The node inside the frames `outer` as the cursor has it: the current node, or the composite around that. -/
inductive Holds (c : Cursor) : List Frame → Cell → Prop where
  | node : Holds c c.frames c.node
  | around {f : Frame} {outer : List Frame} (h : c.frames = f :: outer) : Holds c outer (f.fill c.node)

/-- A cursor that rests on a node inside some frames, or on a form in that node. -/
inductive Rests (m : Cell) (outer : List Frame) : Cursor → Prop where
  | on {fresh : Stamp} : Rests m outer ⟨m, outer, fresh⟩
  | inside {g : Frame} {fresh : Stamp} (hparent : g.parent = m) (hform : g.focus.isForm = true) :
      Rests m outer ⟨g.focus, g :: outer, fresh⟩

/-- The second cursor comes from the first by writing the composite `m` inside `outer` anew, as `m'`. -/
structure Recasts (c c' : Cursor) (outer : List Frame) (m m' : Cell) : Prop where
  holds : c.Holds outer m
  rests : Rests m' outer c'
  form : m'.isForm = true
  face : m'.face = m.face
  label : c.fresh ≤ m'.label
  below : m'.Below c'.fresh

theorem Holds.whole (h : c.Holds outer m) : c.whole = wholeFrom m outer := by
  cases h with
  | node => rfl
  | around hframes => rw [Cursor.whole, hframes, wholeFrom]

theorem Rests.walk (h : Rests m outer c') : Walk ⟨m, outer, c'.fresh⟩ c' := by
  cases h with
  | on => exact .refl
  | @inside g fresh hparent hform =>
    subst hparent
    exact Walk.refl.enter hform

theorem Rests.whole (h : Rests m outer c') : c'.whole = wholeFrom m outer := by
  cases h with
  | on => rfl
  | inside hparent _ => rw [← hparent]; rfl

theorem Recasts.fresh_le (h : Recasts c c' outer m m') : c.fresh ≤ c'.fresh :=
  h.label.trans (below_iff.mp h.below).1.le

theorem Recasts.stamps (h : Recasts c c' outer m m') (hc : c.Steady) : SteadyFrom c'.fresh m' outer := by
  have hstamps := hc.stamps
  cases h.holds with
  | node => exact hstamps.renew h.fresh_le h.below h.label
  | around hframes =>
    rw [hframes] at hstamps
    exact hstamps.2.2.renew h.fresh_le h.below h.label

theorem Recasts.steady (h : Recasts c c' outer m m') (hc : c.Steady) : c'.Steady :=
  Steady.walk ⟨h.stamps hc, fun _ => h.form⟩ h.rests.walk

theorem Recasts.isForm (h : Recasts c c' outer m m') : c'.node.isForm = true :=
  h.rests.walk.isForm h.form

/-! ## Blanks between siblings -/

theorem separator_spec (kind : Kind) (before : List Cell) (stamp : Stamp) :
    (separator kind before stamp).isWhitespace = true ∧
      (separator kind before stamp ∈ before ∨ separator kind before stamp = .newline stamp 0 ∨
        separator kind before stamp = .space stamp) := by
  have hfallback : separator.fallback kind stamp = .newline stamp 0 ∨ separator.fallback kind stamp = .space stamp := by
    rw [separator.fallback]
    split_ifs
    · exact .inl rfl
    · exact .inr rfl
  have hblank : (separator.fallback kind stamp).isWhitespace = true := by
    rcases hfallback with h | h <;> rw [h] <;> rfl
  rw [separator]
  split
  · next k hlast =>
    split_ifs with hbreak
    · refine ⟨?_, .inl (List.mem_of_getLast? hlast)⟩
      rw [isLineBreak.eq_def] at hbreak
      split at hbreak
      · rfl
      · simp at hbreak
    · exact ⟨hblank, .inr hfallback⟩
  · exact ⟨hblank, .inr hfallback⟩

theorem below_separator (kind : Kind) {before : List Cell} {stamp : Stamp} (h : ∀ k ∈ before, k.Below later)
    (hlt : stamp < later) : (separator kind before stamp).Below later := by
  obtain ⟨-, hmem | heq | heq⟩ := separator_spec kind before stamp
  · exact h _ hmem
  · rw [heq]
    exact below_iff.mpr ⟨hlt, by simp [newline, children]⟩
  · rw [heq]
    exact below_iff.mpr ⟨hlt, by simp [space, children]⟩

theorem mem_blankIf {needed : Bool} {stamp : Stamp} {k : Cell} (h : k ∈ blankIf needed stamp) : k = space stamp := by
  cases needed with
  | false => simp [blankIf] at h
  | true => simpa [blankIf] using h

theorem below_blankIf {needed : Bool} {stamp : Stamp} (hlt : stamp < later) : ∀ k ∈ blankIf needed stamp, k.Below later := by
  intro k hk
  rw [mem_blankIf hk]
  exact below_iff.mpr ⟨hlt, by simp [space, children]⟩

theorem formCount_blankIf (needed : Bool) (stamp : Stamp) : formCount (blankIf needed stamp) = 0 :=
  formCount_eq_zero fun k hk => by rw [mem_blankIf hk]; rfl

theorem blankIf_eq_nil {kind : Kind} (hcloser : kind.closer = []) (n : Cell) (stamp : Stamp) :
    blankIf (needsGap kind (some n) none) stamp = [] := by
  have hgap : needsGap kind (some n) none = false := by
    rw [needsGap, Option.map_none, Option.getD_none, hcloser, fuses_nil_right, Bool.and_false]
  rw [hgap]
  rfl

theorem SteadyFrom.siblings {fresh : Stamp} {f : Frame} (h : SteadyFrom fresh n (f :: outer)) (hle : fresh ≤ later) :
    (∀ k ∈ f.before, k.Below later) ∧ ∀ k ∈ f.after, k.Below later := by
  have hchildren : ∀ k ∈ f.before ++ f.focus :: f.after, k.Below fresh := (below_iff.mp h.2.2.below).2
  exact ⟨fun k hk => (hchildren k (by simp [hk])).mono hle, fun k hk => (hchildren k (by simp [hk])).mono hle⟩

/-! ## Each edit -/

theorem recasts_frame (hc : c.Steady) {f : Frame} (hframes : c.frames = f :: outer) {label : Stamp}
    (hle : c.fresh ≤ label) (hlt : label < later) {before after : List Cell} (hbefore : ∀ k ∈ before, k.Below later)
    (hafter : ∀ k ∈ after, k.Below later) :
    Recasts c ⟨c.node, ⟨label, f.kind, before, c.node, after⟩ :: outer, later⟩ outer (f.fill c.node)
      (.composite label f.kind (before ++ c.node :: after)) := by
  refine ⟨.around hframes, .inside (g := ⟨label, f.kind, before, c.node, after⟩) rfl (hc.form (by simp [hframes])), rfl,
    rfl, hle, below_iff.mpr ⟨hlt, ?_⟩⟩
  refine List.forall_mem_append.mpr ⟨hbefore, List.forall_mem_cons.mpr ⟨?_, hafter⟩⟩
  exact hc.stamps.below.mono (hle.trans hlt.le)

theorem recasts_node {label label' : Stamp} {kind : Kind} {old new : List Cell}
    (hnode : c.node = .composite label' kind old) (hle : c.fresh ≤ label) (hlt : label < later)
    (hnew : ∀ k ∈ new, k.Below later) :
    Recasts c ⟨.composite label kind new, c.frames, later⟩ c.frames c.node (.composite label kind new) :=
  ⟨.node, .on, rfl, by rw [hnode]; rfl, hle, below_iff.mpr ⟨hlt, hnew⟩⟩

theorem insertBefore_recasts (hc : c.Steady) (hd : KeepsBelow c.fresh d) (hn : Node.stamp c.fresh d = (n, later))
    (h : c.insertBefore d = .ok c') :
    d.isForm = true ∧ ∃ f outer, c.frames = f :: outer ∧ (∀ m, f.kind ≠ .mark m) ∧ c'.path = trail outer ++ [f.index + 1] ∧
      Recasts c c' outer (f.fill c.node) (.composite later f.kind (f.before ++
        blankIf (needsGap f.kind f.before.getLast? (some n)) (later + 1) ++
          [n, separator f.kind f.before (later + 2)] ++ c.node :: f.after)) := by
  obtain ⟨hplain, hle, hbelow⟩ := stamp_spec d c.fresh hd
  obtain ⟨hform, f, outer, hframes, hvariadic, rfl⟩ := insertBefore_eq_ok hn h
  have hstamps := hc.stamps
  rw [hn] at hplain hle hbelow
  rw [hframes] at hstamps
  obtain ⟨hbefore, hafter⟩ := hstamps.siblings (Stamp.le_add_of_le hle 3)
  refine ⟨hform, f, outer, hframes, hvariadic, ?_, recasts_frame hc hframes hle (Stamp.lt_add _ (by decide)) ?_ hafter⟩
  · have hnform : n.isForm = true := by rw [← hform, ← isForm_plain n, hplain, isForm_plain]
    have hgap := formCount_blankIf (needsGap f.kind f.before.getLast? (some n)) (later + 1)
    have hsep := isForm_of_isWhitespace (separator_spec f.kind f.before (later + 2)).1
    rw [path_cons, Frame.index, formCount_append, formCount_append, hgap, formCount_cons_eq, formCount_cons_eq, hnform, hsep]
    rfl
  · refine List.forall_mem_append.mpr ⟨List.forall_mem_append.mpr ⟨hbefore, ?_⟩, ?_⟩
    · exact below_blankIf (Stamp.add_lt_add _ (by decide))
    · refine List.forall_mem_cons.mpr ⟨hbelow.mono (Stamp.le_add _ 3), List.forall_mem_singleton.mpr ?_⟩
      exact below_separator f.kind hbefore (Stamp.add_lt_add _ (by decide))

theorem insertAfter_recasts (hc : c.Steady) (hd : KeepsBelow c.fresh d) (hn : Node.stamp c.fresh d = (n, later))
    (h : c.insertAfter d = .ok c') :
    d.isForm = true ∧ ∃ f outer, c.frames = f :: outer ∧ (∀ m, f.kind ≠ .mark m) ∧ c'.path = trail outer ++ [f.index] ∧
      Recasts c c' outer (f.fill c.node) (.composite later f.kind (f.before ++ c.node ::
        separator f.kind f.before (later + 2) :: n ::
          (blankIf (needsGap f.kind (some n) f.after.head?) (later + 1) ++ f.after))) := by
  obtain ⟨-, hle, hbelow⟩ := stamp_spec d c.fresh hd
  obtain ⟨hform, f, outer, hframes, hvariadic, rfl⟩ := insertAfter_eq_ok hn h
  have hstamps := hc.stamps
  rw [hn] at hle hbelow
  rw [hframes] at hstamps
  obtain ⟨hbefore, hafter⟩ := hstamps.siblings (Stamp.le_add_of_le hle 3)
  refine ⟨hform, f, outer, hframes, hvariadic, path_cons, recasts_frame hc hframes hle
    (Stamp.lt_add _ (by decide)) hbefore ?_⟩
  refine List.forall_mem_cons.mpr ⟨below_separator f.kind hbefore (Stamp.add_lt_add _ (by decide)), ?_⟩
  refine List.forall_mem_cons.mpr ⟨hbelow.mono (Stamp.le_add _ 3), List.forall_mem_append.mpr ⟨?_, hafter⟩⟩
  exact below_blankIf (Stamp.add_lt_add _ (by decide))

theorem insertChild_recasts (hc : c.Steady) (hd : KeepsBelow c.fresh d) (hn : Node.stamp c.fresh d = (n, later))
    (h : c.insertChild d = .ok c') :
    d.isForm = true ∧ ∃ label kind old new, c.node = .composite label kind old ∧ (∀ m, kind ≠ .mark m) ∧
      c'.frames = c.frames ∧ Recasts c c' c.frames c.node (.composite later kind new) ∧
        ((∃ before focus after, old = before ++ focus :: after ∧ (∀ k ∈ before, k.isForm = false) ∧
            new = before ++ [n, separator kind before (later + 1)] ++ focus :: after) ∨
          (∀ k ∈ old, k.isForm = false) ∧ new = n :: old) := by
  obtain ⟨-, hle, hbelow⟩ := stamp_spec d c.fresh hd
  obtain ⟨hform, label, kind, old, new, hnode, hvariadic, rfl, hnew⟩ := insertChild_eq_ok hn h
  have hstamps := hc.stamps.below
  rw [hn] at hle hbelow
  rw [hnode] at hstamps
  have hold : ∀ k ∈ old, k.Below (later + 2) := fun k hk =>
    ((below_iff.mp hstamps).2 k hk).mono (Stamp.le_add_of_le hle 2)
  have hn : n.Below (later + 2) := hbelow.mono (Stamp.le_add _ 2)
  refine ⟨hform, label, kind, old, new, hnode, hvariadic, rfl, ?_⟩
  rcases hnew with ⟨cut, hcut, rfl⟩ | ⟨hcut, rfl⟩
  · obtain ⟨⟨hwhole, -⟩, htrivia⟩ := cutAtFirst?_eq_some hcut
    rw [hwhole] at hold
    obtain ⟨hbefore, hrest⟩ := List.forall_mem_append.mp hold
    refine ⟨recasts_node hnode hle (Stamp.lt_add _ (by decide)) ?_,
      .inl ⟨cut.before, cut.focus, cut.after, hwhole, htrivia, rfl⟩⟩
    refine List.forall_mem_append.mpr ⟨List.forall_mem_append.mpr ⟨hbefore, ?_⟩, hrest⟩
    refine List.forall_mem_cons.mpr ⟨hn, List.forall_mem_singleton.mpr ?_⟩
    exact below_separator kind hbefore (Stamp.add_lt_add _ (by decide))
  · refine ⟨recasts_node hnode hle (Stamp.lt_add _ (by decide)) ?_, .inr ⟨cutAtFirst?_eq_none hcut, rfl⟩⟩
    exact List.forall_mem_cons.mpr ⟨hn, hold⟩

theorem appendChild_recasts (hc : c.Steady) (hd : KeepsBelow c.fresh d) (hn : Node.stamp c.fresh d = (n, later))
    (h : c.appendChild d = .ok c') :
    d.isForm = true ∧ ∃ label kind old new, c.node = .composite label kind old ∧ (∀ m, kind ≠ .mark m) ∧
      c'.frames = c.frames ∧ Recasts c c' c.frames c.node (.composite later kind new) ∧
        ((∃ before focus after, old = before ++ focus :: after ∧ (∀ k ∈ after, k.isForm = false) ∧
            focus.isForm = true ∧ new = before ++ focus :: separator kind before (later + 1) :: n :: after) ∨
          (∀ k ∈ old, k.isForm = false) ∧ new = n :: old) := by
  obtain ⟨-, hle, hbelow⟩ := stamp_spec d c.fresh hd
  obtain ⟨hform, label, kind, old, new, hnode, hvariadic, rfl, hnew⟩ := appendChild_eq_ok hn h
  have hstamps := hc.stamps.below
  rw [hn] at hle hbelow
  rw [hnode] at hstamps
  have hold : ∀ k ∈ old, k.Below (later + 2) := fun k hk =>
    ((below_iff.mp hstamps).2 k hk).mono (Stamp.le_add_of_le hle 2)
  have hn : n.Below (later + 2) := hbelow.mono (Stamp.le_add _ 2)
  refine ⟨hform, label, kind, old, new, hnode, hvariadic, rfl, ?_⟩
  rcases hnew with ⟨cut, hcut, rfl⟩ | ⟨hcut, rfl⟩
  · obtain ⟨⟨hwhole, hfocusForm⟩, htrivia⟩ := cutAtLast?_eq_some hcut
    rw [hwhole] at hold
    obtain ⟨hbefore, hrest⟩ := List.forall_mem_append.mp hold
    obtain ⟨hfocus, hafter⟩ := List.forall_mem_cons.mp hrest
    refine ⟨recasts_node hnode hle (Stamp.lt_add _ (by decide)) ?_,
      .inl ⟨cut.before, cut.focus, cut.after, hwhole, htrivia, hfocusForm, List.append_assoc _ _ _⟩⟩
    refine List.forall_mem_append.mpr ⟨List.forall_mem_append.mpr ⟨hbefore, ?_⟩, hafter⟩
    refine List.forall_mem_cons.mpr ⟨hfocus, List.forall_mem_cons.mpr ⟨?_, List.forall_mem_singleton.mpr hn⟩⟩
    exact below_separator kind hbefore (Stamp.add_lt_add _ (by decide))
  · refine ⟨recasts_node hnode hle (Stamp.lt_add _ (by decide)) ?_, .inr ⟨cutAtLast?_eq_none hcut, rfl⟩⟩
    exact List.forall_mem_cons.mpr ⟨hn, hold⟩

theorem remove_recasts (hc : c.Steady) (h : c.remove = .ok c') :
    ∃ f outer before after, c.frames = f :: outer ∧ (∀ m, f.kind ≠ .mark m) ∧ Trims f before after ∧
      c'.path = (if 0 < formCount f.after then trail outer ++ [f.index]
        else if 0 < f.index then trail outer ++ [f.index - 1] else trail outer) ∧
      Recasts c c' outer (f.fill c.node) (.composite c.fresh f.kind
        (before ++ (blankIf (needsGap f.kind before.getLast? after.head?) (c.fresh + 1) ++ after))) := by
  obtain ⟨f, outer, rest, hframes, hvariadic, hrest, hcases⟩ := remove_eq_ok h
  have htrims := f.trims
  generalize f.keptBefore = before, f.keptAfter = after at htrims hrest hcases
  refine ⟨f, outer, before, after, hframes, hvariadic, htrims, ?_⟩
  have hstamps := hc.stamps
  rw [hframes] at hstamps
  obtain ⟨hbefores, hafters⟩ := hstamps.siblings (c.fresh.le_add 2)
  obtain ⟨⟨left, hleft, hleftBlank⟩, right, hright, hrightBlank⟩ := htrims
  have hcount : formCount f.before = formCount before := by
    rw [hleft, formCount_append, formCount_eq_zero fun k hk => isForm_of_isWhitespace (hleftBlank k hk), Nat.add_zero]
  have hcountRest : formCount f.after = formCount rest := by
    rw [hright, hrest, formCount_append, formCount_append, formCount_blankIf,
      formCount_eq_zero fun k hk => isForm_of_isWhitespace (hrightBlank k hk)]
  have hbelow : (Node.composite c.fresh f.kind (before ++ rest)).Below (c.fresh + 2) := by
    refine below_iff.mpr ⟨Stamp.lt_add _ (by decide), ?_⟩
    rw [hleft] at hbefores
    rw [hright] at hafters
    rw [hrest]
    refine List.forall_mem_append.mpr ⟨(List.forall_mem_append.mp hbefores).1, List.forall_mem_append.mpr ⟨?_, ?_⟩⟩
    · exact below_blankIf (Stamp.add_lt_add _ (by decide))
    · exact (List.forall_mem_append.mp hafters).2
  rw [← hrest, Frame.index, hcount, hcountRest]
  rcases hcases with ⟨cut, hfirst, rfl⟩ | ⟨hnone, cut, hlast, rfl⟩ | ⟨hnone, hnone', rfl⟩
  · obtain ⟨⟨hwhole, hform⟩, htrivia⟩ := cutAtFirst?_eq_some hfirst
    have hpos : 0 < formCount rest := by
      rw [hwhole, formCount_append, formCount_cons_eq, if_pos hform]
      omega
    refine ⟨?_, .around hframes, .inside (g := ⟨c.fresh, f.kind, before ++ cut.before, cut.focus, cut.after⟩) ?_ hform, rfl, rfl,
      le_refl _, hbelow⟩
    · rw [if_pos hpos, path_cons, Frame.index, formCount_append, formCount_eq_zero htrivia, Nat.add_zero]
    · rw [Frame.parent, hwhole, List.append_assoc]
  · obtain ⟨⟨hwhole, hform⟩, htrivia⟩ := cutAtLast?_eq_some hlast
    have hcountBefore : formCount before = formCount cut.before + 1 := by
      rw [hwhole, formCount_append, formCount_cons_eq, formCount_eq_zero htrivia, hform]
      rfl
    refine ⟨?_, .around hframes, .inside (g := ⟨c.fresh, f.kind, cut.before, cut.focus, cut.after ++ rest⟩) ?_ hform, rfl, rfl,
      le_refl _, hbelow⟩
    · rw [formCount_eq_zero (cutAtFirst?_eq_none hnone), if_neg (Nat.lt_irrefl 0), hcountBefore, if_pos (Nat.succ_pos _),
        path_cons, Frame.index, Nat.add_sub_cancel]
    · rw [Frame.parent, hwhole, List.append_assoc, List.cons_append]
  · refine ⟨?_, .around hframes, .on, rfl, rfl, le_refl _, hbelow⟩
    rw [formCount_eq_zero (cutAtFirst?_eq_none hnone), formCount_eq_zero (cutAtLast?_eq_none hnone'),
      if_neg (Nat.lt_irrefl 0), if_neg (Nat.lt_irrefl 0)]
    rfl

theorem replaceFocus_recasts (hc : c.Steady) (hd : KeepsBelow c.fresh d) (hn : Node.stamp c.fresh d = (n, later))
    (hform : d.isForm = true) {f : Frame} (hframes : c.frames = f :: outer) :
    Recasts c ⟨n, f.replaceFocus n later :: outer, later + 3⟩ outer (f.fill c.node) (f.replaceFocus n later).parent := by
  obtain ⟨hplain, hle, hbelow⟩ := stamp_spec d c.fresh hd
  have hstamps := hc.stamps
  rw [hn] at hplain hle hbelow
  rw [hframes] at hstamps
  obtain ⟨hbefore, hafter⟩ := hstamps.siblings (Stamp.le_add_of_le hle 3)
  have hnform : n.isForm = true := by rw [← hform, ← isForm_plain n, hplain, isForm_plain]
  refine ⟨.around hframes, .inside (g := f.replaceFocus n later) rfl hnform, rfl, rfl, hle,
    below_iff.mpr ⟨Stamp.lt_add _ (by decide), ?_⟩⟩
  refine List.forall_mem_append.mpr ⟨List.forall_mem_append.mpr ⟨hbefore, ?_⟩, List.forall_mem_cons.mpr ⟨?_, ?_⟩⟩
  · exact below_blankIf (Stamp.add_lt_add _ (by decide))
  · exact hbelow.mono (Stamp.le_add _ 3)
  · exact List.forall_mem_append.mpr ⟨below_blankIf (Stamp.add_lt_add _ (by decide)), hafter⟩

end Cursor

/-! ## Blanks further out -/

/-- The second frames are the first ones, but for a blank that one of them may have gained after its child, as a new
composite. Nothing is put at the end of a composite that has no closing delimiter. -/
inductive Frame.Loosens (fresh : Stamp) : List Frame → List Frame → Prop where
  | refl {frames : List Frame} : Loosens fresh frames frames
  | here {f : Frame} {outer : List Frame} (hend : f.after ≠ [] ∨ f.kind.closer ≠ []) :
      Loosens fresh (f :: outer) (f.spaceAfter fresh :: outer)
  | outside {f : Frame} {outer outer' : List Frame} (h : Loosens fresh outer outer') :
      Loosens fresh (f :: outer) (f :: outer')

theorem Frame.loosens_keepApart (tail : Text) (fresh : Stamp) (frames : List Frame) :
    Loosens fresh frames (keepApart tail fresh frames) := by
  induction frames with
  | nil => exact .refl
  | cons f outer ih =>
    rw [keepApart]
    cases hfollowing : f.following? with
    | none => exact .refl
    | some following =>
      simp only
      split_ifs with hempty
      · exact .outside ih
      · refine .here ?_
        rw [following?] at hfollowing
        cases hafter : f.after with
        | nil =>
          simp only [hafter, Option.some.injEq] at hfollowing
          rw [List.isEmpty_iff, ← hfollowing] at hempty
          exact .inr hempty
        | cons k ks => exact .inl (by simp)
      · exact .refl

theorem Frame.loosens_keepApartOutside (tail : Text) (fresh : Stamp) (f : Frame) (outer : List Frame) :
    ∃ outer', keepApartOutside tail fresh (f :: outer) = f :: outer' ∧ Loosens fresh outer outer' := by
  rw [keepApartOutside]
  split
  · exact ⟨_, rfl, loosens_keepApart tail fresh outer⟩
  · exact ⟨outer, rfl, .refl⟩

namespace Cursor

variable {c c' : Cursor} {d : Draft} {n : Cell} {fresh later : Stamp} {frames frames' : List Frame}

theorem trail_loosens (h : Frame.Loosens later frames frames') : trail frames' = trail frames := by
  induction h with
  | refl => rfl
  | here _ => rfl
  | outside _ ih =>
    rw [trail, trail, List.reverse_inj] at ih ⊢
    rw [List.map_cons, List.map_cons, ih]

theorem SteadyFrom.loosens (hn : SteadyFrom fresh n frames) (h : Frame.Loosens later frames frames') (hle : fresh ≤ later) :
    SteadyFrom (later + 2) n frames' := by
  have hlater : fresh ≤ later + 2 := Stamp.le_add_of_le hle 2
  induction h generalizing n with
  | refl => exact hn.mono hlater
  | @here f outer _ =>
    obtain ⟨hbelow, hstep, hparent⟩ := hn
    refine ⟨hbelow.mono hlater, hstep, hparent.renew hlater ?_ hle⟩
    refine below_iff.mpr ⟨Stamp.lt_add _ (by decide), fun k hk => ?_⟩
    have hchild : ∀ k ∈ f.before ++ f.focus :: f.after, k.Below (later + 2) := fun k hk =>
      ((below_iff.mp hparent.below).2 k hk).mono hlater
    rcases List.mem_append.mp hk with hk | hk
    · exact hchild k (List.mem_append_left _ hk)
    · rcases List.mem_cons.mp hk with rfl | hk
      · exact hchild _ (by simp [Frame.spaceAfter])
      · rcases List.mem_cons.mp hk with rfl | hk
        · exact below_iff.mpr ⟨Stamp.add_lt_add _ (by decide), by simp [space, children]⟩
        · exact hchild k (by simp [hk])
  | outside _ ih => exact ⟨hn.1.mono hlater, hn.2.1, ih hn.2.2⟩

/-- At the root a form becomes the document, or the only form of a new one. Elsewhere the composite around is written
anew, and a blank may be put further out. -/
theorem replace_recasts (hc : c.Steady) (hd : KeepsBelow c.fresh d) (hn : Node.stamp c.fresh d = (n, later))
    (h : c.replace d = .ok c') :
    d.isForm = true ∧
      ((c.frames = [] ∧ n.isRoot = true ∧ c' = ⟨n, [], later⟩) ∨
        (c.frames = [] ∧ n.isRoot = false ∧ c' = ⟨.composite later .root [n], [], later + 1⟩) ∨
          ∃ f outer outer', c.frames = f :: outer ∧ c' = ⟨n, f.replaceFocus n later :: outer', later + 5⟩ ∧
            Frame.Loosens (later + 3) outer outer' ∧
              Recasts c ⟨n, f.replaceFocus n later :: outer, later + 3⟩ outer (f.fill c.node)
                (f.replaceFocus n later).parent) := by
  obtain ⟨hform, hroot | hroot | ⟨f, outer, hframes, rfl⟩⟩ := replace_eq_ok hn h
  · exact ⟨hform, .inl hroot⟩
  · exact ⟨hform, .inr (.inl hroot)⟩
  · obtain ⟨outer', heq, hloosens⟩ :=
      Frame.loosens_keepApartOutside n.tailText (later + 3) (f.replaceFocus n later) outer
    refine ⟨hform, .inr (.inr ⟨f, outer, outer', hframes, by rw [heq], hloosens, ?_⟩)⟩
    exact replaceFocus_recasts hc hd hn hform hframes

end Cursor

end SexprEdit
