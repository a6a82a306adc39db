import SexprEdit.Proofs.Cursor.Order
import SexprEdit.Proofs.Cursor.Outline

/-!
# Tours

A tour is what a cursor meets when it moves to the next form until there is none. Every tour ends, and from the root it
leads through all places of the tree in document order. The moves to the next form and to the form before are inverse to
each other, and of two places of a tree the tour comes first to the one with the smaller path.
-/

namespace SexprEdit

open Node

namespace Cursor

variable {c d e : Cursor} {cs ds : List Cursor} {t : Tree}

/-- The cursors that are met from a cursor on, moving to the next form until there is none. -/
inductive Tour : Cursor → List Cursor → Prop where
  | last {c : Cursor} (h : c.next? = none) : Tour c [c]
  | step {c d : Cursor} {ds : List Cursor} (h : c.next? = some d) (hd : Tour d ds) : Tour c (c :: ds)

theorem Tour.unique (hcs : Tour c cs) (hds : Tour c ds) : cs = ds := by
  induction hcs generalizing ds with
  | last h =>
    cases hds with
    | last _ => rfl
    | step h' _ => simp [h] at h'
  | step h _ ih =>
    cases hds with
    | last h' => simp [h] at h'
    | step h' hd' =>
      obtain rfl := Option.some.inj (h.symm.trans h')
      rw [ih hd']

theorem Tour.iff_eq (h : Tour c cs) (ds : List Cursor) : Tour c ds ↔ ds = cs := by
  constructor
  · intro hds
    exact hds.unique h
  · rintro rfl
    exact h

theorem Tour.map_place (h : Tour c cs) (hc : c.Steady) : cs.map place = c.ahead := by
  induction h with
  | last h =>
    rw [hc.ahead_eq, h]
    rfl
  | step h _ ih => rw [List.map_cons, ih (hc.walk (Walk.refl.next? h)), hc.ahead_next h]

/-- Each move leaves fewer places ahead, so every tour ends. -/
theorem Steady.exists_tour (hc : c.Steady) : ∃ cs, Tour c cs := by
  induction hlength : c.ahead.length generalizing c with
  | zero => simp [hc.ahead_eq] at hlength
  | succ k ih =>
    cases hnext : c.next? with
    | none => exact ⟨[c], .last hnext⟩
    | some d =>
      rw [hc.ahead_next hnext, List.length_cons, Nat.add_right_cancel_iff] at hlength
      obtain ⟨ds, hds⟩ := ih (hc.walk (Walk.refl.next? hnext)) hlength
      exact ⟨c :: ds, .step hnext hds⟩

theorem Tour.exists_cons (h : Tour c cs) : ∃ ds, cs = c :: ds := by
  cases h with
  | last _ => exact ⟨[], rfl⟩
  | step _ _ => exact ⟨_, rfl⟩

theorem Tour.map_place_root (h : Tour c cs) (hc : c.Steady) (hroot : c.frames = []) :
    cs.map place = places [] [] c.whole.plain := by
  rw [h.map_place hc, ahead, placesFrom, hroot, trailing, List.append_nil, places_plain, whole, hroot]
  rfl

/-! ## Neighbours in document order -/

/-- The cursor was brought by operations, from some tree, to a place of the given tree. -/
structure Within (c : Cursor) (t : Tree) : Prop where
  reached : ∃ start s, Runs False (ofTree start s) c
  tree : c.tree.plain = t

theorem within_ofTree (start : Stamp) (t : Tree) : (ofTree start t).Within t :=
  ⟨⟨start, t, .refl⟩, plain_ofTree start t⟩

theorem Within.steady (h : c.Within t) : c.Steady := by
  obtain ⟨start, s, hruns⟩ := h.reached
  exact hruns.steady (steady_ofTree start s)

theorem Within.whole (h : c.Within t) : c.whole.plain = t := by
  rw [← h.steady.stamps.plain_tree, h.tree]

theorem Within.faced (h : c.Within t) : FacedFrom c.node c.frames := by
  obtain ⟨start, s, hruns⟩ := h.reached
  exact hruns.faced (steady_ofTree start s) trivial

theorem Within.walk (h : c.Within t) (hwalk : Walk c d) (hruns : ∀ {s}, Runs False s c → Runs False s d) : d.Within t := by
  obtain ⟨start, s, hc⟩ := h.reached
  have hd : d.Steady := (hruns hc).steady (steady_ofTree start s)
  refine ⟨⟨start, s, hruns hc⟩, ?_⟩
  rw [hd.stamps.plain_tree, hwalk.plain_whole h.steady.stamps, h.whole]

theorem Within.move (h : c.Within t) (direction : Direction) (hmove : direction.move c = .ok d) : d.Within t :=
  h.walk (Direction.walk hmove) fun hruns => hruns.step (.move direction) (by rintro form ⟨⟩) hmove

theorem Within.goto {path : List Nat} (h : c.Within t) (hgoto : c.goto path = .ok d) : d.Within t :=
  h.walk (Walk.refl.goto hgoto) fun hruns => hruns.step (.goto path) (by rintro form ⟨⟩) hgoto

theorem Within.root (h : c.Within t) : c.root.Within t :=
  h.move .root rfl

theorem Within.next? (h : c.Within t) (hnext : c.next? = some d) : d.Within t :=
  h.move .next (by rw [Direction.move, hnext]; rfl)

theorem Within.prev? (h : c.Within t) (hprev : c.prev? = some d) : d.Within t :=
  h.move .prev (by rw [Direction.move, hprev]; rfl)

theorem Within.tour (h : c.Within t) (htour : Tour c cs) : ∀ d ∈ cs, d.Within t := by
  induction htour with
  | last _ => exact List.forall_mem_singleton.mpr h
  | step hnext _ ih => exact List.forall_mem_cons.mpr ⟨h, ih (h.next? hnext)⟩

theorem Within.ahead_congr (hc : c.Within t) (hd : d.Within t) (hpath : c.path = d.path) : c.ahead = d.ahead :=
  hc.steady.ahead_congr hd.steady (by rw [hc.whole, hd.whole]) hpath

theorem Within.ahead_suffix (hc : c.Within t) : c.ahead <:+ places [] [] t := by
  have hsuffix := hc.steady.ahead_suffix
  rwa [hc.whole] at hsuffix

theorem Within.place_mem (hc : c.Within t) : c.place ∈ places [] [] t := by
  have hmem := hc.steady.place_mem
  rwa [hc.whole] at hmem

theorem Within.exists_goto {p : Place} (hc : c.Within t) (hp : p ∈ places [] [] t) :
    ∃ d : Cursor, c.goto p.path = .ok d ∧ d.Within t ∧ d.place = p := by
  have hmem : p ∈ places [] [] c.tree := by rwa [← places_plain, hc.tree]
  obtain ⟨q, hq, hnode⟩ := (placedByPaths c.tree [] [] p.path p.node).mp ⟨p.before, hmem⟩
  rw [List.nil_append] at hq
  obtain ⟨n, hn, -⟩ := Option.map_eq_some_iff.mp hnode
  rw [← hq] at hn
  obtain ⟨d, hgoto⟩ := exists_follow_of_formAt? (c := c.root) hn
  have hd : d.Within t := hc.goto hgoto
  exact ⟨d, hgoto, hd, eq_of_mem_places hd.place_mem hp (hc.steady.path_goto hgoto)⟩

theorem Within.lt_next? (hc : c.Within t) (h : c.next? = some d) : c.path < d.path := by
  obtain ⟨-, -, -, hlater⟩ := hc.steady.exists_split
  rw [hc.steady.ahead_next h, List.tail_cons, (hc.next? h).steady.ahead_eq] at hlater
  exact hlater d.place (by simp)

/-- Moving on and moving back are inverse to each other. -/
theorem Within.next?_iff_prev? (hc : c.Within t) (hd : d.Within t) :
    (∃ e, c.next? = some e ∧ e.place = d.place) ↔ ∃ e, d.prev? = some e ∧ e.place = c.place := by
  constructor
  · rintro ⟨e, hnext, hplace⟩
    have hpath : e.path = d.path := congrArg Place.path hplace
    have hahead := hc.steady.ahead_next hnext
    rw [(hc.next? hnext).ahead_congr hd hpath] at hahead
    cases hprev : d.prev? with
    | none =>
      -- no place comes before the root
      have hlt := hc.lt_next? hnext
      rw [hpath, prev?_eq_none_iff.mp hprev] at hlt
      exact absurd hlt (List.not_lt_nil _)
    | some b =>
      have hback := hd.steady.ahead_prev hprev
      have hlength : b.ahead.length = c.ahead.length := by rw [hback, hahead]; rfl
      have heq : b.ahead = c.ahead :=
        (List.suffix_of_suffix_length_le (hd.prev? hprev).ahead_suffix hc.ahead_suffix hlength.le).eq_of_length hlength
      rw [hback, hahead] at heq
      exact ⟨b, rfl, (List.cons.inj heq).1⟩
  · rintro ⟨e, hprev, hplace⟩
    have hahead := hd.steady.ahead_prev hprev
    rw [(hd.prev? hprev).ahead_congr hc (congrArg Place.path hplace), hc.steady.ahead_eq] at hahead
    have htail := (List.cons.inj hahead).2
    cases hnext : c.next? with
    | none =>
      rw [hnext, hd.steady.ahead_eq] at htail
      cases htail
    | some b =>
      rw [hnext, Option.elim_some, (hc.next? hnext).steady.ahead_eq, hd.steady.ahead_eq] at htail
      exact ⟨b, rfl, (List.cons.inj htail).1⟩

theorem Within.place_mem_tail (hc : c.Within t) (hd : d.Within t) (hlt : c.path < d.path) : d.place ∈ c.ahead.tail := by
  obtain ⟨front, hsplit, hearlier, -⟩ := hc.steady.exists_split
  have hmem := hd.place_mem
  rw [← hc.whole, hsplit] at hmem
  rw [hc.steady.ahead_eq] at hmem ⊢
  rcases List.mem_append.mp hmem with hmem | hmem
  · exact absurd (List.lt_trans hlt (hearlier d.place hmem)) (List.lt_irrefl _)
  · rcases List.mem_cons.mp hmem with heq | hmem
    · have hpath : d.path = c.path := congrArg Place.path heq
      rw [hpath] at hlt
      exact absurd hlt (List.lt_irrefl _)
    · exact hmem

theorem Within.next?_eq_none_iff (hc : c.Within t) : c.next? = none ↔ ∀ e : Cursor, e.Within t → ¬ c.path < e.path := by
  constructor
  · intro hnext e he hlt
    have hmem := hc.place_mem_tail he hlt
    rw [hc.steady.ahead_eq, hnext] at hmem
    cases hmem
  · intro hlast
    cases hnext : c.next? with
    | none => rfl
    | some d => exact absurd (hc.lt_next? hnext) (hlast d (hc.next? hnext))

theorem Within.sublist_iff (hc : c.Within t) (hd : d.Within t) :
    [c.place, d.place].Sublist (places [] [] t) ↔ c.path < d.path := by
  constructor
  · intro hsublist
    have hpair := (pairwise_places [] [] t).sublist hsublist
    exact (List.pairwise_cons.mp hpair).1 d.place (by simp)
  · intro hlt
    have hmem := hc.place_mem_tail hd hlt
    have hahead : [c.place, d.place].Sublist c.ahead := by
      rw [hc.steady.ahead_eq] at hmem ⊢
      exact (List.singleton_sublist.mpr hmem).cons_cons c.place
    exact hahead.trans hc.ahead_suffix.sublist

/-- The tour from the root of a tree leads through its places in document order: through the root and each form inside
once, and by ever greater paths. Wherever two cursors stand in the tree, after whatever operations, the one is next to
the other if and only if the other is before it. Only the root has no form before it and only the last place has none
after it, and the tour comes to the one place before the other if and only if its path is smaller. -/
theorem tour_in_order (start : Stamp) (t : Tree) :
    ∃ cs, (∀ ds, Tour (ofTree start t) ds ↔ ds = cs) ∧ cs.map place = places [] [] t ∧
      (∀ p n, t.formAt? p = some n ↔ ∃ c ∈ cs, c.path = p ∧ c.node.plain = n) ∧ cs.Pairwise (·.path < ·.path) ∧
        ∀ c d : Cursor, c.Within t → d.Within t →
          ((∃ e, c.next? = some e ∧ e.place = d.place) ↔ ∃ e, d.prev? = some e ∧ e.place = c.place) ∧
            (c.prev? = none ↔ c.path = []) ∧ (c.next? = none ↔ ∀ e : Cursor, e.Within t → ¬ c.path < e.path) ∧
              ([c.place, d.place].Sublist (cs.map place) ↔ c.path < d.path) := by
  obtain ⟨cs, hcs⟩ := (steady_ofTree start t).exists_tour
  have hplaces : cs.map place = places [] [] t := by
    rw [hcs.map_place_root (steady_ofTree start t) rfl, (within_ofTree start t).whole]
  refine ⟨cs, hcs.iff_eq, hplaces, fun p n => ?_, ?_, fun c d hc hd => ?_⟩
  · have hpaths := placedByPaths t [] [] p n
    have hplain : ∀ q : List Nat, (t.formAt? q).map plain = t.formAt? q := fun q => by
      rw [funext plain_plain, Option.map_id']
    simp only [List.nil_append, exists_eq_left', hplain, ← hplaces, List.mem_map] at hpaths
    rw [← hpaths]
    constructor
    · rintro ⟨text, c, hmem, hplace⟩
      exact ⟨c, hmem, congrArg Place.path hplace, congrArg Place.node hplace⟩
    · rintro ⟨c, hmem, rfl, rfl⟩
      exact ⟨lead c.frames, c, hmem, rfl⟩
  · have hsorted := pairwise_places [] [] t
    rwa [← hplaces, List.pairwise_map] at hsorted
  · rw [hplaces]
    exact ⟨hc.next?_iff_prev? hd, prev?_eq_none_iff, hc.next?_eq_none_iff, hc.sublist_iff hd⟩

/-- From an empty vector, which an edit has just put in, out of the list around it to the form after that, and back. -/
theorem tour_in_order_climb :
    ∃ (t : Tree) (c d : Cursor), c.Within t ∧ d.Within t ∧ inStepFrom c.node c.frames = false ∧
      c.source = "(([]) b)".toList ∧ c.path = [0, 0, 0] ∧ d.path = [0, 1] ∧ (∃ e, c.next? = some e ∧ e.place = d.place) ∧
        (∃ e, d.prev? = some e ∧ e.place = c.place) ∧ [c.place, d.place].Sublist (places [] [] t) := by
  have hreach : Runs False (ofTree (Supply.outside 0).first (.root [.composite () (.bracket .list)
      [.composite () (.bracket .list) [.atom () ⟨.symbol, ['a']⟩], .trivia () (.whitespace [' ']),
        .atom () ⟨.symbol, ['b']⟩]])) _ :=
    (Runs.refl.step (.goto [0, 0, 0]) (by rintro d ⟨⟩) rfl).step (.replace (.composite none (.bracket .vector) []))
      (by rintro d ⟨⟩; exact ⟨rfl, False.elim⟩) rfl
  have hc : Within _ _ := ⟨⟨_, _, hreach⟩, rfl⟩
  have hd : Within _ _ := hc.goto (show goto _ [0, 1] = .ok _ from rfl)
  obtain ⟨cs, -, hplaces, -, -, hpairs⟩ := tour_in_order (Supply.outside 0).first _
  obtain ⟨hiff, -, -, hafter⟩ := hpairs _ _ hc hd
  have hprev := hiff.mp ⟨_, rfl, rfl⟩
  rw [hplaces] at hafter
  exact ⟨_, _, _, hc, hd, by decide +kernel, by decide +kernel, by decide +kernel, by decide +kernel, hiff.mpr hprev, hprev,
    hafter.mpr (by decide +kernel)⟩

end Cursor

end SexprEdit
