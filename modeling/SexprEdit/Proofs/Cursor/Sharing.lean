import SexprEdit.Proofs.Session.Moves

/-!
# What an edit leaves as it is

An edit writes anew the composite whose children it changes and the composites around that, and nothing else. Every other
node of the tree is in the new tree with its stamp, and so is all that it contains (`Stretch.Keeps`). It is found where it
was, up to the siblings that were taken out or put in before it on the same level. Moves do even less: while all frames
are in step, they leave the tree with its root as it is.
-/

namespace SexprEdit

open Node

/-- The node to which the numbers of children lead, trivia counted. -/
def Node.nodeAt? {ι : Type} : Node ι → List Nat → Option (Node ι)
  | n, [] => some n
  | n, k :: place => n.children[k]?.bind fun child => nodeAt? child place

/-! ## Stretches of children -/

/-- Some neighbouring children of the composite at a place: `count` of them, from number `start` on. -/
structure Stretch where
  place : List Nat
  start : Nat
  count : Nat

namespace Stretch

/-- The stretch as it stands in a tree that has its tree at the end of a way. -/
def inside (s : Stretch) (way : List Nat) : Stretch :=
  { s with place := way ++ s.place }

/-- Whether a place is neither on the way to the children of the stretch nor in one of them. -/
def Spares (s : Stretch) (q : List Nat) : Prop :=
  ¬q <+: s.place ∧ ∀ k, s.place ++ [k] <+: q → k < s.start ∨ s.start + s.count ≤ k

/-- Where a place is once `put` nodes have taken the place of `count` children from number `start` on, at the end of a
way: behind these children the numbers change. -/
def shiftFrom (start count put : Nat) : List Nat → List Nat → List Nat
  | _, [] => []
  | [], k :: q => (if start + count ≤ k then k - count + put else k) :: q
  | i :: way, k :: q => k :: if k = i then shiftFrom start count put way q else q

/-- Where a place is once `put` nodes have taken the place of the stretch. -/
def shift (s : Stretch) (put : Nat) (q : List Nat) : List Nat :=
  shiftFrom s.start s.count put s.place q

/-- Every node that stands neither in the stretch nor around it is in the second tree as well, `put` nodes having taken
the place of the stretch, and `blanks` more having come in at `gap` after that. -/
def Keeps (s : Stretch) (put : Nat) (gap : Stretch) (blanks : Nat) (t t' : Cell) : Prop :=
  ∀ q n, s.Spares q → t.nodeAt? q = some n → t'.nodeAt? (gap.shift blanks (s.shift put q)) = some n

/-- The gap is right behind the composite whose children the stretch is made of, or behind one around that. -/
def Behind (gap s : Stretch) : Prop :=
  ∃ k, gap.start = k + 1 ∧ gap.place ++ [k] <+: s.place

theorem inside_inside (s : Stretch) (way way' : List Nat) : (s.inside way').inside way = s.inside (way ++ way') := by
  simp [inside]

theorem inside_here (way : List Nat) (start count : Nat) : inside ⟨[], start, count⟩ way = ⟨way, start, count⟩ := by
  simp [inside]

theorem not_spares_nil (s : Stretch) : ¬s.Spares [] := fun h => h.1 List.nil_prefix

theorem Spares.tail {s : Stretch} {k : Nat} {q : List Nat} (h : (s.inside [k]).Spares (k :: q)) : s.Spares q := by
  refine ⟨fun hq => h.1 (List.cons_prefix_cons.mpr ⟨rfl, hq⟩), fun i hi => ?_⟩
  exact h.2 i (List.cons_prefix_cons.mpr ⟨rfl, hi⟩)

theorem shift_nothing (gap : Stretch) (h : gap.count = 0) (q : List Nat) : gap.shift 0 q = q := by
  rw [shift, h]
  generalize gap.place = way
  induction way generalizing q with
  | nil => cases q <;> simp [shiftFrom]
  | cons i way ih => cases q <;> simp [shiftFrom, ih]

theorem shift_inside_self (s : Stretch) (put k : Nat) (q : List Nat) :
    (s.inside [k]).shift put (k :: q) = k :: s.shift put q := by
  simp [shift, inside, shiftFrom]

theorem shift_inside_other (s : Stretch) (put : Nat) {k i : Nat} (h : k ≠ i) (q : List Nat) :
    (s.inside [i]).shift put (k :: q) = k :: q := by
  simp [shift, inside, shiftFrom, h]

theorem shift_ne_nil {s : Stretch} (put : Nat) {q : List Nat} (h : q ≠ []) : s.shift put q ≠ [] := by
  obtain ⟨k, q, rfl⟩ := List.exists_cons_of_ne_nil h
  rw [shift]
  cases s.place <;> simp [shiftFrom]

/-! ## Children of one composite -/

variable {s gap : Stretch} {put blanks : Nat} {n n' m m' t t' : Cell}

theorem keeps_children {front old new back : List Cell} (hm : m.children = front ++ old ++ back)
    (hm' : m'.children = front ++ new ++ back) :
    Keeps ⟨[], front.length, old.length⟩ new.length ⟨[], 0, 0⟩ 0 m m' := by
  intro q n hq hn
  rw [shift_nothing ⟨[], 0, 0⟩ rfl]
  cases q with
  | nil => exact absurd hq (not_spares_nil _)
  | cons k q =>
    rw [nodeAt?, hm] at hn
    rw [shift, shiftFrom, nodeAt?, hm', ← hn]
    rcases hq.2 k (by simp) with hk | hk
    · have hk : k < front.length := hk
      rw [if_neg (by omega), List.append_assoc, List.append_assoc, List.getElem?_append_left hk,
        List.getElem?_append_left hk]
    · have hk : front.length + old.length ≤ k := hk
      have hnew : (front ++ new).length ≤ k - old.length + new.length := by
        rw [List.length_append]
        omega
      rw [if_pos hk, List.getElem?_append_right hnew, List.getElem?_append_right (by simpa using hk)]
      simp only [List.length_append]
      congr 2
      omega

theorem getElem?_other {before after : List Cell} {k : Nat} (hk : k ≠ before.length) (n n' : Cell) :
    (before ++ n :: after)[k]? = (before ++ n' :: after)[k]? := by
  rw [List.getElem?_append, List.getElem?_append]
  split_ifs with hlt
  · rfl
  · rw [List.getElem?_cons, List.getElem?_cons, if_neg (by omega), if_neg (by omega)]

theorem Keeps.fill (h : s.Keeps put gap blanks n n') (stamp stamp' : Stamp) (kind : Kind) (before after : List Cell) :
    (s.inside [before.length]).Keeps put (gap.inside [before.length]) blanks
      (.composite stamp kind (before ++ n :: after)) (.composite stamp' kind (before ++ n' :: after)) := by
  intro q m hq hm
  cases q with
  | nil => exact absurd hq (not_spares_nil _)
  | cons k q =>
    by_cases hk : k = before.length
    · subst hk
      rw [shift_inside_self, shift_inside_self]
      simp only [nodeAt?, children, List.getElem?_append_right (Nat.le_refl _), Nat.sub_self,
        List.getElem?_cons_zero, Option.bind_some] at hm ⊢
      exact h q m hq.tail hm
    · rw [shift_inside_other s put hk, shift_inside_other gap blanks hk]
      rwa [nodeAt?, children, ← getElem?_other hk n n']

theorem Keeps.loosen (h : s.Keeps put gap 0 n n') (hgap : gap.count = 0) (stamp stamp' : Stamp) (kind : Kind)
    (before after : List Cell) (blank : Cell) :
    (s.inside [before.length]).Keeps put ⟨[], before.length + 1, 0⟩ 1
      (.composite stamp kind (before ++ n :: after)) (.composite stamp' kind (before ++ n' :: blank :: after)) := by
  intro q m hq hm
  -- first the child, as without the blank; then the blank alone
  have hfill := h.fill stamp stamp' kind before after q m hq hm
  rw [shift_nothing (gap.inside [before.length]) hgap] at hfill
  have hplace : (s.inside [before.length]).shift put q ≠ [] := shift_ne_nil put fun hnil => not_spares_nil _ (hnil ▸ hq)
  generalize (s.inside [before.length]).shift put q = place at hfill hplace ⊢
  have hspares : Spares ⟨[], (before ++ [n']).length, 0⟩ place :=
    ⟨fun hnil => hplace (List.prefix_nil.mp hnil), fun k _ => Nat.lt_or_ge k _⟩
  have hold : (Node.composite stamp' kind (before ++ n' :: after)).children = (before ++ [n']) ++ [] ++ after := by
    simp [children]
  have hnew : (Node.composite stamp' kind (before ++ n' :: blank :: after)).children = (before ++ [n']) ++ [blank] ++ after := by
    simp [children]
  have hblank := keeps_children hold hnew place m hspares hfill
  rw [shift_nothing ⟨[], 0, 0⟩ rfl] at hblank
  simpa using hblank

end Stretch

/-! ## Frames -/

namespace Cursor

variable {c : Cursor} {n t : Cell} {frames : List Frame} {fresh : Stamp}

/-- The numbers of the children, trivia counted, that lead through some frames, from the outside in. -/
def spots (frames : List Frame) : List Nat :=
  (frames.map fun f => f.before.length).reverse

/-- The numbers of the children, trivia counted, that lead to the current node. -/
def spot (c : Cursor) : List Nat :=
  spots c.frames

theorem spots_cons (f : Frame) (outer : List Frame) : spots (f :: outer) = spots outer ++ [f.before.length] := by
  simp [spots]

/-- The tree is made of a node and of the frames around it, whatever their stamps. -/
def Around (n : Cell) : List Frame → Cell → Prop
  | [], t => t = n
  | f :: outer, t => ∃ stamp, Around (.composite stamp f.kind (f.before ++ n :: f.after)) outer t

/-- Climbing to the root renews stamps of the frames at most. -/
theorem SteadyFrom.around (h : SteadyFrom fresh n frames) : Around n frames (rootFrom n fresh frames).node := by
  induction frames generalizing n fresh with
  | nil => rfl
  | cons f outer ih =>
    obtain ⟨stamp, heq, hparent⟩ := h.settle
    have hfill : (f.settle n fresh).1.parent = .composite stamp f.kind (f.before ++ n :: f.after) := by rw [heq, Frame.parent]
    refine ⟨stamp, ?_⟩
    rw [← hfill]
    exact ih hparent

theorem Steady.around (h : c.Steady) : Around c.node c.frames c.tree :=
  h.stamps.around

theorem Around.nodeAt? (h : Around n frames t) (place : List Nat) : t.nodeAt? (spots frames ++ place) = n.nodeAt? place := by
  induction frames generalizing n place with
  | nil =>
    rw [show t = n from h]
    rfl
  | cons f outer ih =>
    obtain ⟨stamp, h⟩ := h
    rw [spots_cons, List.append_assoc, ih h, List.singleton_append, Node.nodeAt?]
    simp [children]

end Cursor

namespace Stretch

open Cursor

variable {n n' t t' : Cell} {frames frames' : List Frame} {fresh : Stamp} {s gap : Stretch} {put blanks : Nat}

theorem Keeps.around (h : s.Keeps put gap blanks n n') (ht : Around n frames t) (ht' : Around n' frames t') :
    (s.inside (spots frames)).Keeps put (gap.inside (spots frames)) blanks t t' := by
  induction frames generalizing n n' s gap with
  | nil =>
    rw [show t = n from ht, show t' = n' from ht']
    exact h
  | cons f outer ih =>
    obtain ⟨stamp, ht⟩ := ht
    obtain ⟨stamp', ht'⟩ := ht'
    rw [spots_cons, ← inside_inside, ← inside_inside]
    exact ih (h.fill stamp stamp' f.kind f.before f.after) ht ht'

/-- Frames of which one may have gained a blank behind its child. -/
theorem Keeps.loosens (hloosens : Frame.Loosens fresh frames frames') (h : s.Keeps put gap 0 n n')
    (hgap : gap.count = 0) (ht : Around n frames t) (ht' : Around n' frames' t') :
    ∃ gap blanks, gap.count = 0 ∧ (blanks = 0 ∨ blanks = 1 ∧ gap.Behind (s.inside (spots frames))) ∧
      (s.inside (spots frames)).Keeps put gap blanks t t' := by
  induction hloosens generalizing n n' s gap with
  | @refl frames => exact ⟨gap.inside (spots frames), 0, hgap, .inl rfl, h.around ht ht'⟩
  | @here f outer _ =>
    obtain ⟨stamp, ht⟩ := ht
    obtain ⟨stamp', ht'⟩ := ht'
    have hloosen := h.loosen hgap stamp stamp' f.kind f.before f.after (space (fresh + 1))
    rw [spots_cons, ← inside_inside]
    refine ⟨inside ⟨[], f.before.length + 1, 0⟩ (spots outer), 1, rfl, .inr ⟨rfl, f.before.length, rfl, ?_⟩,
      hloosen.around ht ht'⟩
    simp [inside]
  | @outside f outer outer' _ ih =>
    obtain ⟨stamp, ht⟩ := ht
    obtain ⟨stamp', ht'⟩ := ht'
    rw [spots_cons, ← inside_inside]
    exact ih (h.fill stamp stamp' f.kind f.before f.after) hgap ht ht'

end Stretch

/-! ## Edits -/

/-- The children that an edit takes out of the tree; an insertion takes none, from between two children. Moves change no
children, and the root is no child. -/
def Operation.takes? (c : Cursor) : Operation → Option Stretch
  | move _ | goto _ => none
  | replace _ => match c.frames with
    | f :: outer => some ⟨Cursor.spots outer, f.before.length, 1⟩
    | [] => none
  | insertBefore _ => match c.frames with
    | f :: outer => some ⟨Cursor.spots outer, f.before.length, 0⟩
    | [] => none
  | insertAfter _ => match c.frames with
    | f :: outer => some ⟨Cursor.spots outer, f.before.length + 1, 0⟩
    | [] => none
  | insertChild _ => match cutAtFirst? c.node.children with
    | some cut => some ⟨c.spot, cut.before.length, 0⟩
    | none => some ⟨c.spot, 0, 0⟩
  | appendChild _ => match cutAtLast? c.node.children with
    | some cut => some ⟨c.spot, cut.before.length + 1, 0⟩
    | none => some ⟨c.spot, 0, 0⟩
  | remove => match c.frames with
    | f :: outer => some ⟨Cursor.spots outer, f.keptBefore.length,
        (f.before.length - f.keptBefore.length) + 1 + (f.after.length - f.keptAfter.length)⟩
    | [] => none

/-- Whether an operation is none of the moves. -/
def Operation.isEdit : Operation → Bool
  | move _ | goto _ => false
  | _ => true

/-- Nodes that are neither taken out nor around the change are shared by the trees before and after an edit. What is
taken out is at most the current node and blanks, and if the current node is replaced there may be a new blank behind a
composite around it. -/
def Operation.Shares (op : Operation) (c c' : Cursor) : Prop :=
  ∃ s put gap blanks, op.takes? c = some s ∧
    (∀ k n, s.start ≤ k → k < s.start + s.count → c.tree.nodeAt? (s.place ++ [k]) = some n →
      s.place ++ [k] = c.spot ∨ n.isWhitespace = true) ∧
    gap.count = 0 ∧ (blanks = 0 ∨ blanks = 1 ∧ (∃ form, op = .replace form) ∧ gap.Behind s) ∧
    s.Keeps put gap blanks c.tree c'.tree

namespace Cursor

open SexprEdit.Frame (separator)

variable {c c' : Cursor} {d : Draft} {m m' : Cell} {outer outer' : List Frame} {op : Operation}

/-- An edit of the children of one composite. What it takes out is the current node, or blank. -/
theorem shares_of_children (front old new back : List Cell) (ht : Around m outer c.tree) (ht' : Around m' outer' c'.tree)
    (houter : outer' = outer ∨ (∃ form, op = .replace form) ∧ ∃ fresh, Frame.Loosens fresh outer outer')
    (hm : m.children = front ++ old ++ back) (hm' : m'.children = front ++ new ++ back)
    (htakes : op.takes? c = some ⟨spots outer, front.length, old.length⟩)
    (hold : ∀ k n, old[k]? = some n → spots outer ++ [front.length + k] = c.spot ∨ n.isWhitespace = true) :
    op.Shares c c' := by
  have htaken : ∀ k n, front.length ≤ k → k < front.length + old.length → c.tree.nodeAt? (spots outer ++ [k]) = some n →
      spots outer ++ [k] = c.spot ∨ n.isWhitespace = true := by
    intro k n hle hlt hn
    have hchild : old[k - front.length]? = some n := by
      rw [ht.nodeAt?, Node.nodeAt?, hm, List.append_assoc, List.getElem?_append_right hle,
        List.getElem?_append_left (by omega)] at hn
      simpa [Node.nodeAt?] using hn
    simpa [Nat.add_sub_cancel' hle] using hold _ n hchild
  have hkeeps := Stretch.keeps_children hm hm'
  rcases houter with rfl | ⟨hreplace, fresh, hloosens⟩
  · have hkeeps := hkeeps.around ht ht'
    rw [Stretch.inside_here] at hkeeps
    exact ⟨_, new.length, _, 0, htakes, htaken, rfl, .inl rfl, hkeeps⟩
  · obtain ⟨gap, blanks, hgap, hblanks, hkeeps⟩ := hkeeps.loosens hloosens rfl ht ht'
    rw [Stretch.inside_here] at hblanks hkeeps
    exact ⟨_, new.length, gap, blanks, htakes, htaken, hgap, hblanks.imp_right fun h => ⟨h.1, hreplace, h.2⟩, hkeeps⟩

theorem Steady.around_parent (hc : c.Steady) {f : Frame} (hframes : c.frames = f :: outer) :
    ∃ stamp, Around (.composite stamp f.kind (f.before ++ c.node :: f.after)) outer c.tree := by
  have haround := hc.around
  rwa [hframes] at haround

theorem spot_of_frames {f : Frame} (hframes : c.frames = f :: outer) : c.spot = spots outer ++ [f.before.length] := by
  rw [spot, hframes, spots_cons]

theorem replace_shares (hc : c.Steady) (hc' : c'.Steady) (hd : KeepsBelow c.fresh d) (h : c.replace d = .ok c') :
    c.frames = [] ∨ (Operation.replace d).Shares c c' := by
  rcases hn : Node.stamp c.fresh d with ⟨n, later⟩
  obtain ⟨-, ⟨hframes, -⟩ | ⟨hframes, -⟩ | ⟨f, outer, outer', hframes, rfl, hloosens, -⟩⟩ := replace_recasts hc hd hn h
  · exact .inl hframes
  · exact .inl hframes
  · obtain ⟨stamp, ht⟩ := hc.around_parent hframes
    obtain ⟨stamp', ht'⟩ := hc'.around_parent rfl
    refine .inr (shares_of_children f.before [c.node]
      (blankIf (needsGap f.kind f.before.getLast? (some n)) (later + 1) ++
        n :: blankIf (needsGap f.kind (some n) f.after.head?) (later + 2)) f.after ht ht' (.inr ⟨⟨d, rfl⟩, _, hloosens⟩)
      (by simp [children]) (by simp [children, Frame.replaceFocus]) (by simp [Operation.takes?, hframes]) fun k m hm => ?_)
    obtain rfl : k = 0 := by
      have hlt := (List.getElem?_eq_some_iff.mp hm).1
      rw [List.length_singleton] at hlt
      omega
    exact .inl (spot_of_frames hframes).symm

theorem insertBefore_shares (hc : c.Steady) (hc' : c'.Steady) (h : c.insertBefore d = .ok c') :
    (Operation.insertBefore d).Shares c c' := by
  rcases hn : Node.stamp c.fresh d with ⟨n, later⟩
  obtain ⟨-, f, outer, hframes, -, rfl⟩ := insertBefore_eq_ok hn h
  obtain ⟨stamp, ht⟩ := hc.around_parent hframes
  obtain ⟨stamp', ht'⟩ := hc'.around_parent rfl
  exact shares_of_children f.before []
    (blankIf (needsGap f.kind f.before.getLast? (some n)) (later + 1) ++ [n, separator f.kind f.before (later + 2)])
    (c.node :: f.after) ht ht' (.inl rfl) (by simp [children]) (by simp [children]) (by simp [Operation.takes?, hframes])
    (by simp)

theorem insertAfter_shares (hc : c.Steady) (hc' : c'.Steady) (h : c.insertAfter d = .ok c') :
    (Operation.insertAfter d).Shares c c' := by
  rcases hn : Node.stamp c.fresh d with ⟨n, later⟩
  obtain ⟨-, f, outer, hframes, -, rfl⟩ := insertAfter_eq_ok hn h
  obtain ⟨stamp, ht⟩ := hc.around_parent hframes
  obtain ⟨stamp', ht'⟩ := hc'.around_parent rfl
  exact shares_of_children (f.before ++ [c.node]) []
    (separator f.kind f.before (later + 2) :: n :: blankIf (needsGap f.kind (some n) f.after.head?) (later + 1))
    f.after ht ht' (.inl rfl) (by simp [children]) (by simp [children]) (by simp [Operation.takes?, hframes]) (by simp)

theorem insertChild_shares (hc : c.Steady) (hc' : c'.Steady) (h : c.insertChild d = .ok c') :
    (Operation.insertChild d).Shares c c' := by
  rcases hn : Node.stamp c.fresh d with ⟨n, later⟩
  obtain ⟨-, label, kind, old, new, hnode, -, rfl, hnew⟩ := insertChild_eq_ok hn h
  have hchildren : c.node.children = old := by rw [hnode]; rfl
  rcases hnew with ⟨cut, hcut, rfl⟩ | ⟨hcut, rfl⟩
  · have hold : old = cut.before ++ cut.focus :: cut.after := (cutAtFirst?_eq_some hcut).1.whole
    exact shares_of_children cut.before [] [n, separator kind cut.before (later + 1)] (cut.focus :: cut.after) hc.around
      hc'.around (.inl rfl) (by simp [hchildren, hold]) rfl (by simp [Operation.takes?, hchildren, hcut, spot]) (by simp)
  · exact shares_of_children [] [] [n] old hc.around hc'.around (.inl rfl) hchildren rfl
      (by simp [Operation.takes?, hchildren, hcut, spot]) (by simp)

theorem appendChild_shares (hc : c.Steady) (hc' : c'.Steady) (h : c.appendChild d = .ok c') :
    (Operation.appendChild d).Shares c c' := by
  rcases hn : Node.stamp c.fresh d with ⟨n, later⟩
  obtain ⟨-, label, kind, old, new, hnode, -, rfl, hnew⟩ := appendChild_eq_ok hn h
  have hchildren : c.node.children = old := by rw [hnode]; rfl
  rcases hnew with ⟨cut, hcut, rfl⟩ | ⟨hcut, rfl⟩
  · have hold : old = cut.before ++ cut.focus :: cut.after := (cutAtLast?_eq_some hcut).1.whole
    exact shares_of_children (cut.before ++ [cut.focus]) [] [separator kind cut.before (later + 1), n] cut.after hc.around
      hc'.around (.inl rfl) (by simp [hchildren, hold]) (by simp [children])
      (by simp [Operation.takes?, hchildren, hcut, spot]) (by simp)
  · exact shares_of_children [] [] [n] old hc.around hc'.around (.inl rfl) hchildren rfl
      (by simp [Operation.takes?, hchildren, hcut, spot]) (by simp)

theorem remove_shares (hc : c.Steady) (hc' : c'.Steady) (h : c.remove = .ok c') : Operation.remove.Shares c c' := by
  obtain ⟨f, outer, rest, hframes, -, hrest, hcases⟩ := remove_eq_ok h
  obtain ⟨stamp, ht⟩ := hc.around_parent hframes
  obtain ⟨⟨left, hleft, hleftBlank⟩, right, hright, hrightBlank⟩ := f.trims
  have hnew : ∃ m', Around m' outer c'.tree ∧ m'.children = f.keptBefore ++ rest := by
    rcases hcases with ⟨cut, hcut, rfl⟩ | ⟨-, cut, hcut, rfl⟩ | ⟨-, -, rfl⟩
    · obtain ⟨stamp', ht'⟩ := hc'.around_parent rfl
      exact ⟨_, ht', by simp [children, (cutAtFirst?_eq_some hcut).1.whole]⟩
    · obtain ⟨stamp', ht'⟩ := hc'.around_parent rfl
      exact ⟨_, ht', by simp [children, (cutAtLast?_eq_some hcut).1.whole]⟩
    · exact ⟨_, hc'.around, rfl⟩
  obtain ⟨m', ht', hm'⟩ := hnew
  have hbefore : f.before.length = f.keptBefore.length + left.length := by rw [hleft, List.length_append]
  have hafter : f.after.length = right.length + f.keptAfter.length := by rw [hright, List.length_append]
  refine shares_of_children f.keptBefore (left ++ c.node :: right)
    (blankIf (needsGap f.kind f.keptBefore.getLast? f.keptAfter.head?) (c.fresh + 1)) f.keptAfter ht ht' (.inl rfl) ?_ ?_ ?_ ?_
  · rw [children, hleft, hright]
    simp
  · rw [hm', hrest, List.append_assoc]
  · have hcount : f.before.length - f.keptBefore.length + 1 + (f.after.length - f.keptAfter.length) =
        (left ++ c.node :: right).length := by
      rw [List.length_append, List.length_cons]
      omega
    simp only [Operation.takes?, hframes, hcount]
  · intro k n hn
    rcases Nat.lt_trichotomy k left.length with hk | rfl | hk
    · rw [List.getElem?_append_left hk] at hn
      exact .inr (hleftBlank n (List.mem_of_getElem? hn))
    · exact .inl (by rw [spot_of_frames hframes, hbefore])
    · obtain ⟨i, hi⟩ : ∃ i, k - left.length = i + 1 := ⟨k - left.length - 1, by omega⟩
      rw [List.getElem?_append_right hk.le, hi, List.getElem?_cons_succ] at hn
      exact .inr (hrightBlank n (List.mem_of_getElem? hn))

end Cursor

namespace Operation

open Cursor

variable {strict : Prop} {c c' : Cursor} {op : Operation}

theorem shares_run (hc : c.Steady) (hop : op.Fits strict c.fresh) (h : op.run c = .ok c') (hedit : op.isEdit = true) :
    (c.frames = [] ∧ ∃ form, op = .replace form) ∨ op.Shares c c' := by
  have hc' : c'.Steady := steady_run hc hop h
  cases op with
  | move direction => simp [isEdit] at hedit
  | goto path => simp [isEdit] at hedit
  | replace d => exact (replace_shares hc hc' (hop d rfl).keeps h).imp_left fun hframes => ⟨hframes, d, rfl⟩
  | insertBefore d => exact .inr (insertBefore_shares hc hc' h)
  | insertAfter d => exact .inr (insertAfter_shares hc hc' h)
  | insertChild d => exact .inr (insertChild_shares hc hc' h)
  | appendChild d => exact .inr (appendChild_shares hc hc' h)
  | remove => exact .inr (remove_shares hc hc' h)

end Operation

/-! ## Moves -/

namespace Document

variable {d : Document}

theorem walk_attemptAll (config : Config) {moves : List Mutation} (h : ∀ m ∈ moves, m.isMove = true) :
    d.cursor.Walk (d.attemptAll config moves).cursor := by
  induction moves generalizing d with
  | nil => exact .refl
  | cons m moves ih =>
    obtain ⟨hm, hmoves⟩ := List.forall_mem_cons.mp h
    have hstep : d.cursor.Walk (d.attempt config m).cursor := by
      rw [attempt]
      cases happly : d.apply config m with
      | error e => exact .refl
      | ok result =>
        obtain ⟨applied, happlied, hresult⟩ := Except.exists_ok_of_bind happly
        obtain rfl := Except.ok.inj hresult
        exact Mutation.walk_of_isMove happlied hm
    exact hstep.trans (ih hmoves)

end Document

namespace Cursor

variable {c c' : Cursor}

theorem tree_cons {n : Cell} {f : Frame} {outer : List Frame} {fresh : Stamp} (h : inStepFrom n (f :: outer) = true) :
    tree ⟨n, f :: outer, fresh⟩ = tree ⟨f.parent, outer, fresh⟩ := by
  rw [tree, root, rootFrom, (inStepFrom_settle h fresh).1]
  rfl

theorem Walk.tree (h : Walk c c') (hc : c.inStep = true) : c'.tree = c.tree := by
  induction h with
  | refl => rfl
  | @enter g outer fresh hwalk hform ih =>
    have hin : inStepFrom g.focus (g :: outer) = true := ((hwalk.enter hform).inStep hc).1
    rw [tree_cons hin, ih]
  | @leave n f outer fresh hwalk ih =>
    have hin : inStepFrom n (f :: outer) = true := (hwalk.inStep hc).1
    rw [(inStepFrom_settle hin fresh).1, ← tree_cons hin, ih]
  | @settle n f outer fresh hwalk ih =>
    have hin : inStepFrom n (f :: outer) = true := (hwalk.inStep hc).1
    rw [(inStepFrom_settle hin fresh).1, ih]

/-- From any cursor that operations lead to, every edit shares all nodes that are neither taken out nor around the change
with the tree before, each with its stamp, unless it puts a new root in place of the old one. And if all frames are in
step, any moves, those that fail left out, end on the same tree with the same root. -/
theorem Runs.edits_share {start : Stamp} {t : Tree} (h : Runs False (ofTree start t) c) :
    c.tree.nodeAt? c.spot = some c.node ∧
      (∀ (op : Operation) (c' : Cursor), op.isEdit = true → op.Fits False c.fresh → op.run c = .ok c' →
        (c.frames = [] ∧ ∃ form, op = .replace form) ∨ op.Shares c c') ∧
      (c.inStep = true → ∀ (config : Config) (d : Document) (moves : List Mutation), d.cursor = c →
        (∀ m ∈ moves, m.isMove = true) → (d.attemptAll config moves).cursor.tree = c.tree) := by
  have hc : c.Steady := h.steady (steady_ofTree start t)
  refine ⟨?_, fun op c' hedit hop hrun => op.shares_run hc hop hrun hedit, ?_⟩
  · have hnode := hc.around.nodeAt? []
    rwa [List.append_nil] at hnode
  · rintro hin config d moves rfl hmoves
    exact (Document.walk_attemptAll config hmoves).tree hin

/-- A removal right after a replacement, with frames out of step: the form outside is shared, the root is a new one. And
moves from the start, where all frames are in step. -/
theorem Runs.edits_share_stale : ∃ (t : Tree) (c c' : Cursor), t.text = "((a d) e)".toList ∧
    Runs False (ofTree (Supply.outside 0).first t) c ∧ c.inStep = false ∧ c.remove = .ok c' ∧
      c'.source = "((d) e)".toList ∧ c'.tree.label ≠ c.tree.label ∧
      (∃ e, e.text = "e".toList ∧ c.tree.nodeAt? [0, 2] = some e ∧ c'.tree.nodeAt? [0, 2] = some e) ∧
        ∀ (config : Config) (d : Document), d.cursor = ofTree (Supply.outside 0).first t →
          (d.attemptAll config [.navigate .down, .navigate .up]).cursor.tree =
            (ofTree (Supply.outside 0).first t).tree := by
  have hreach : Runs False (ofTree (Supply.outside 0).first
      (.root [.composite () (.bracket .list) [.composite () (.bracket .list)
        [.atom () ⟨.symbol, ['a']⟩, .trivia () (.whitespace [' ']), .atom () ⟨.symbol, ['d']⟩],
        .trivia () (.whitespace [' ']), .atom () ⟨.symbol, ['e']⟩]])) _ :=
    (Runs.refl.step (.goto [0, 0, 0]) (by rintro d ⟨⟩) rfl).step (.replace (.atom none ⟨.symbol, ['b']⟩))
      (by rintro d ⟨⟩; exact Draft.fits_atom _) rfl
  obtain ⟨-, hedits, -⟩ := edits_share hreach
  rcases hedits .remove _ rfl (by rintro d ⟨⟩) rfl with ⟨hroot, -⟩ | ⟨s, put, gap, blanks, htakes, -, hgap, hblanks, hkeeps⟩
  · cases hroot
  obtain rfl : s = ⟨[0, 0], 0, 2⟩ := Option.some.inj (htakes.symm.trans rfl)
  obtain rfl : blanks = 0 := hblanks.resolve_right fun h => by
    obtain ⟨-, ⟨form, hform⟩, -⟩ := h
    cases hform
  have hshared := hkeeps [0, 2] _ ⟨by decide, fun k hk => absurd hk (by simp)⟩ rfl
  rw [Stretch.shift_nothing gap hgap] at hshared
  refine ⟨_, _, _, by decide +kernel, hreach, by decide +kernel, rfl, by decide +kernel, by decide +kernel,
    ⟨_, by decide +kernel, rfl, hshared⟩, fun config d hd => ?_⟩
  exact (edits_share .refl).2.2 (by decide) config d _ hd (by decide)

end Cursor

end SexprEdit
