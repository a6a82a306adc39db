import Mathlib.Data.List.Rotate
import SexprEdit.Proofs.Search.Matches

/-!
# Going round the matches

The move to the next match compares paths. Paths are in document order, so the matches with a later path are those that a
tour meets from the cursor on, and the others are those that it has passed. `Matcher.wheel` lists the first before the
second: the matches in the order in which they come up. Each move goes to the first of them and turns the wheel by one
(`Within.findNext_wheel`), so that as many moves as there are matches go once round.
-/

namespace SexprEdit

open Node

namespace Matcher

variable {ι : Type} {m : Matcher}

/-- The matches in the order in which they come up after the cursor: those ahead, then those passed. -/
def wheel (m : Matcher) (c : Cursor) : List Match :=
  (m.findAll c.tree).filter (fun hit => later hit.location.path c.path) ++
    (m.findAll c.tree).filter fun hit => !later hit.location.path c.path

/-- The cursors that some moves to the next match lead to, one after the other. -/
def findNexts (m : Matcher) : Nat → Cursor → Except EditError (List Cursor)
  | 0, _ => .ok []
  | k + 1, c => do
    let d ← m.findNext c
    return d :: (← m.findNexts k d)

/-! ## The first match that comes up -/

theorem later_iff (p q : List Nat) : later p q = true ↔ q < p := by
  induction p generalizing q with
  | nil => simp [later]
  | cons a p ih =>
    cases q with
    | nil => simp [later]
    | cons b q =>
      have heq : a = b ↔ b = a := eq_comm
      simp [later, ih, List.cons_lt_cons_iff, heq]

theorem find?_or_head? {α : Type} (p : α → Bool) (l : List α) :
    (l.find? p <|> l.head?) = (l.filter p ++ l.filter (!p ·)).head? := by
  rw [List.head?_append, List.head?_filter]
  cases hfind : l.find? p with
  | some a => rfl
  | none =>
    have hkept : l.filter (!p ·) = l := List.filter_eq_self.mpr (by simpa using hfind)
    rw [hkept]
    rfl

theorem findNext_of_wheel {c : Cursor} {hit : Match} {hits : List Match} (h : m.wheel c = hit :: hits) :
    m.findNext c = EditError.ofCursor (c.goto hit.location.path) := by
  rw [findNext]
  simp only [find?_or_head?]
  rw [← wheel, h]
  rfl

theorem findNext_of_wheel_eq_nil {c : Cursor} (h : m.wheel c = []) : m.findNext c = .error (.noMatch m.query) := by
  rw [findNext]
  simp only [find?_or_head?]
  rw [← wheel, h]
  rfl

theorem wheel_of_split {c : Cursor} {passed coming : List Match} (hfound : m.findAll c.tree = passed ++ coming)
    (hpassed : ∀ hit ∈ passed, later hit.location.path c.path = false)
    (hcoming : ∀ hit ∈ coming, later hit.location.path c.path = true) : m.wheel c = coming ++ passed := by
  have hahead : (passed ++ coming).filter (fun hit => later hit.location.path c.path) = coming := by
    rw [List.filter_append, List.filter_eq_nil_iff.mpr (by simpa using hpassed), List.filter_eq_self.mpr hcoming]
    rfl
  have hbehind : (passed ++ coming).filter (fun hit => !later hit.location.path c.path) = passed := by
    rw [List.filter_append, List.filter_eq_self.mpr (by simpa using hpassed),
      List.filter_eq_nil_iff.mpr (by simpa using hcoming), List.append_nil]
  rw [wheel, hfound, hahead, hbehind]

theorem path_of_matchAt? {p : Place} {hit : Match} (h : m.matchAt? p = some hit) : hit.location.path = p.path := by
  obtain ⟨path, before, node⟩ := p
  cases node with
  | atom label a =>
    simp only [matchAt?, Option.ite_none_right_eq_some, Option.some.injEq] at h
    obtain ⟨-, rfl⟩ := h
    rfl
  | _ => cases h

theorem findAll_plain (m : Matcher) (n : Node ι) : m.findAll n.plain = m.findAll n := by
  rw [findAll_eq, findAll_eq, places_plain]

theorem length_findAll (m : Matcher) (n : Node ι) : (m.findAll n).length = n.atoms.countP m.matchesAtom := by
  rw [findAll_eq, ← atoms_eq [] []]
  induction places [] [] n with
  | nil => rfl
  | cons p ps ih =>
    obtain ⟨path, before, node⟩ := p
    cases node with
    | atom label a => by_cases ha : m.matchesAtom a = true <;> simp [matchAt?, Place.atom?, ha, ih]
    | _ => exact ih

theorem nodup_findAll (m : Matcher) (n : Node ι) : (m.findAll n).Nodup := by
  rw [findAll_eq]
  refine List.pairwise_filterMap.mpr ((pairwise_places [] [] n).imp ?_)
  intro p q hlt hit hp hit' hq heq
  have hpath : p.path = q.path := by rw [← path_of_matchAt? hp, ← path_of_matchAt? hq, heq]
  rw [hpath] at hlt
  exact List.lt_irrefl _ hlt

theorem eq_of_isRotated_cons {α : Type} {a : α} {l l' : List α} (hnodup : (a :: l).Nodup) (h : (a :: l) ~r (a :: l')) :
    l = l' := by
  obtain ⟨i, hi⟩ := h
  have hlt : i % (a :: l).length < (a :: l).length := Nat.mod_lt _ (by simp)
  have hhead : (a :: l)[i % (a :: l).length]? = (a :: l)[0]? := by
    rw [← List.head?_rotate hlt, List.rotate_mod, hi]
    rfl
  have hzero : i % (a :: l).length = 0 := (List.getElem?_inj hlt hnodup).mp hhead
  rw [← List.rotate_mod, hzero, List.rotate_zero] at hi
  exact (List.cons.inj hi).2

end Matcher

namespace Cursor

open Matcher

variable {c d : Cursor} {t : Tree} {m : Matcher} {hit : Match} {hits : List Match}

theorem Within.findAll_tree (hc : c.Within t) (m : Matcher) : m.findAll c.tree = m.findAll t := by
  rw [← findAll_plain, hc.tree]

/-- The matches passed, the one under the cursor and those ahead. -/
theorem Within.exists_wheel (hc : c.Within t) (m : Matcher) :
    ∃ passed, m.findAll t = passed ++ (m.matchUnder? c).toList ++ c.ahead.tail.filterMap m.matchAt? ∧
      m.wheel c = c.ahead.tail.filterMap m.matchAt? ++ (passed ++ (m.matchUnder? c).toList) := by
  obtain ⟨front, hsplit, hearlier, hlater⟩ := hc.steady.exists_split
  have hfront : front.filterMap m.matchAt? ++ (m.matchUnder? c).toList = (front ++ [c.place]).filterMap m.matchAt? := by
    rw [List.filterMap_append, ← hc.matchAt?_place m]
    cases hmatch : m.matchAt? c.place <;> simp [hmatch]
  have hfound : m.findAll t = (front ++ [c.place]).filterMap m.matchAt? ++ c.ahead.tail.filterMap m.matchAt? := by
    have hahead : c.ahead = [c.place] ++ c.ahead.tail := by rw [hc.steady.ahead_eq]; rfl
    rw [hc.whole, hahead, ← List.append_assoc] at hsplit
    rw [findAll_eq, hsplit, List.filterMap_append]
  refine ⟨front.filterMap m.matchAt?, hfront ▸ hfound, ?_⟩
  rw [hfront]
  refine wheel_of_split (by rw [hc.findAll_tree, hfound]) (fun hit hmem => ?_) (fun hit hmem => ?_)
  · obtain ⟨p, hp, hmatch⟩ := List.mem_filterMap.mp hmem
    rw [← Bool.not_eq_true, later_iff, path_of_matchAt? hmatch]
    intro hlt
    rcases List.mem_append.mp hp with hp | hp
    · exact List.lt_irrefl _ (List.lt_trans hlt (hearlier p hp))
    · rw [List.mem_singleton.mp hp] at hlt
      exact List.lt_irrefl _ hlt
  · obtain ⟨p, hp, hmatch⟩ := List.mem_filterMap.mp hmem
    rw [later_iff, path_of_matchAt? hmatch]
    exact hlater p hp

theorem Within.wheel_isRotated (hc : c.Within t) (m : Matcher) : m.wheel c ~r m.findAll t := by
  obtain ⟨passed, hfound, hwheel⟩ := hc.exists_wheel m
  rw [hfound, hwheel]
  exact List.isRotated_append

/-- The move to the next match goes to the first that comes up, and turns the wheel by one. -/
theorem Within.findNext_wheel (hc : c.Within t) (h : m.wheel c = hit :: hits) :
    ∃ d : Cursor, m.findNext c = .ok d ∧ d.Within t ∧ m.matchUnder? d = some hit ∧ m.wheel d = hits ++ [hit] := by
  have hmem : hit ∈ m.findAll t := (hc.wheel_isRotated m).mem_iff.mp (by simp [h])
  rw [findAll_eq] at hmem
  obtain ⟨p, hp, hmatch⟩ := List.mem_filterMap.mp hmem
  obtain ⟨d, hgoto, hd, hplace⟩ := hc.exists_goto hp
  have hunder : m.matchUnder? d = some hit := by rw [← hd.matchAt?_place, hplace, hmatch]
  refine ⟨d, ?_, hd, hunder, ?_⟩
  · rw [findNext_of_wheel h, path_of_matchAt? hmatch, hgoto]
    rfl
  · obtain ⟨passed, -, hwheel⟩ := hd.exists_wheel m
    rw [hunder, Option.toList_some, ← List.append_assoc] at hwheel
    -- both cycles start at the match that is reached
    have hcycle : hit :: hits ~r hit :: (d.ahead.tail.filterMap m.matchAt? ++ passed) := by
      rw [← h]
      refine (hc.wheel_isRotated m).trans ((hd.wheel_isRotated m).symm.trans ?_)
      rw [hwheel]
      exact List.isRotated_append
    have hnodup : (hit :: hits).Nodup := by
      rw [← h, (hc.wheel_isRotated m).nodup_iff]
      exact nodup_findAll m t
    rw [hwheel, eq_of_isRotated_cons hnodup hcycle]

theorem exists_find?_of_filterMap {α β : Type} {f : α → Option β} {l : List α} {b : β} {bs : List β}
    (h : l.filterMap f = b :: bs) : ∃ a, l.find? (fun x => (f x).isSome) = some a ∧ f a = some b := by
  have hhead : l.findSome? f = some b := by rw [← List.head?_filterMap, h, List.head?_cons]
  obtain ⟨front, a, back, hl, ha, hfront⟩ := List.findSome?_eq_some_iff.mp hhead
  refine ⟨a, List.find?_eq_some_iff_append.mpr ⟨by rw [ha]; rfl, front, back, hl, fun x hx => ?_⟩, ha⟩
  simp [hfront x hx]

theorem Within.exists_first {rest all : List Cursor} (hc : c.Within t) (hrest : Tour c (c :: rest)) (hall : Tour c.root all)
    (h : m.wheel c = hit :: hits) :
    ∃ target : Cursor, (rest ++ all).find? (fun e => (m.matchUnder? e).isSome) = some target ∧ target.Within t ∧
      m.matchUnder? target = some hit := by
  have hroot := hc.root
  have hwithin : ∀ d ∈ rest ++ all, d.Within t := by
    intro d hd
    rcases List.mem_append.mp hd with hd | hd
    · exact hc.tour hrest d (List.mem_cons_of_mem c hd)
    · exact hroot.tour hall d hd
  have hmap := hrest.map_place hc.steady
  have hcoming : rest.filterMap m.matchUnder? = c.ahead.tail.filterMap m.matchAt? := by
    rw [← hmap, List.map_cons, List.tail_cons, filterMap_place fun d hd => hwithin d (List.mem_append_left all hd)]
  obtain ⟨passed, hfound, hwheel⟩ := hc.exists_wheel m
  have hmatches : ∃ more, (rest ++ all).filterMap m.matchUnder? = hit :: more := by
    rw [List.filterMap_append, hcoming, ← hroot.findAll_tour hall (frames_rootFrom _ _ _), hfound]
    rw [hwheel] at h
    cases hahead : c.ahead.tail.filterMap m.matchAt? with
    | nil =>
      rw [hahead, List.nil_append] at h
      exact ⟨hits, by rw [h, List.nil_append, List.append_nil]⟩
    | cons first others =>
      rw [hahead] at h
      exact ⟨_, congrArg (· :: _) (List.cons.inj h).1⟩
  obtain ⟨more, hmore⟩ := hmatches
  obtain ⟨target, hfind, htarget⟩ := exists_find?_of_filterMap hmore
  exact ⟨target, hfind, hwithin target (List.mem_of_find?_eq_some hfind), htarget⟩

theorem Within.findNexts_wheel (hc : c.Within t) (h : m.wheel c ≠ []) (k : Nat) :
    ∃ cs, m.findNexts k c = .ok cs ∧ (∀ d ∈ cs, d.Within t) ∧
      cs.map m.matchUnder? = (List.range k).map fun i => (m.wheel c)[i % (m.wheel c).length]? := by
  induction k generalizing c with
  | zero => exact ⟨[], rfl, by simp, rfl⟩
  | succ k ih =>
    obtain ⟨hit, hits, hwheel⟩ := List.exists_cons_of_ne_nil h
    obtain ⟨d, hnext, hd, hunder, hturned⟩ := hc.findNext_wheel hwheel
    have hrotate : m.wheel d = (m.wheel c).rotate 1 := by rw [hturned, hwheel, List.rotate_cons_succ, List.rotate_zero]
    obtain ⟨cs, hcs, hwithin, hmap⟩ := ih hd (by simp [hturned])
    have hfound : m.findNexts (k + 1) c = .ok (d :: cs) := by
      rw [findNexts, hnext]
      show (m.findNexts k d >>= fun ds => pure (d :: ds)) = _
      rw [hcs]
      rfl
    refine ⟨d :: cs, hfound, List.forall_mem_cons.mpr ⟨hd, hwithin⟩, ?_⟩
    rw [List.map_cons, hmap, hunder, List.range_succ_eq_map, List.map_cons, List.map_map, Nat.zero_mod, hrotate,
      List.length_rotate]
    refine congrArg₂ _ (by rw [hwheel]; rfl) (List.map_congr_left fun i _ => ?_)
    have hlt : i % (m.wheel c).length < (m.wheel c).length := Nat.mod_lt _ (List.length_pos_iff.mpr h)
    rw [List.getElem?_rotate hlt, Nat.mod_add_mod, Function.comp_apply]

theorem Within.place_of_match (hc : c.Within t) (hd : d.Within t) (hcmatch : m.matchUnder? c = some hit)
    (hdmatch : m.matchUnder? d = some hit) : c.place = d.place := by
  rw [← hc.matchAt?_place] at hcmatch
  rw [← hd.matchAt?_place] at hdmatch
  refine eq_of_mem_places hc.place_mem hd.place_mem ?_
  rw [← path_of_matchAt? hcmatch, ← path_of_matchAt? hdmatch]

theorem wheel_eq_nil_iff (hc : c.Within t) : m.wheel c = [] ↔ ∀ a ∈ c.tree.atoms, m.matchesAtom a = false := by
  have hlength : (m.wheel c).length = c.tree.atoms.countP m.matchesAtom := by
    rw [(hc.wheel_isRotated m).perm.length_eq, ← hc.findAll_tree, length_findAll]
  rw [← List.length_eq_zero_iff, hlength, List.countP_eq_zero]
  simp

end Cursor

/-- The move to the next match fails if and only if no atom of the tree matches. Otherwise it goes to the first match that a
tour from the cursor meets after it or, if there is none, to the first that a tour from the root meets, and the tree stays
as it is. Repeated, it goes round the matches: a run of any length meets them in order, starting somewhere and going on
from the start after the last, so that as many moves as there are matches meet each once and one more is back at the
first. -/
theorem Matcher.findNext_goes_round (m : Matcher) {start : Stamp} {t : Tree} {c : Cursor}
    (h : Cursor.Runs False (Cursor.ofTree start t) c) :
    (m.findNext c = .error (.noMatch m.query) ↔ ∀ a ∈ c.tree.atoms, m.matchesAtom a = false) ∧
      ((∃ a ∈ c.tree.atoms, m.matchesAtom a = true) →
        (∃ rest all target d, Cursor.Tour c (c :: rest) ∧ Cursor.Tour c.root all ∧
          (rest ++ all).find? (fun e => (m.matchUnder? e).isSome) = some target ∧ m.findNext c = .ok d ∧
            d.place = target.place ∧ d.tree.plain = c.tree.plain) ∧
          ∃ lap, lap ~r m.findAll c.tree ∧ lap.Nodup ∧
            ∀ k, ∃ cs, m.findNexts k c = .ok cs ∧ (∀ e ∈ cs, e.tree.plain = c.tree.plain) ∧
              cs.map m.matchUnder? = (List.range k).map fun i => lap[i % lap.length]?) := by
  have hc : c.Within c.tree.plain := ⟨⟨start, t, h⟩, rfl⟩
  have hnone := Cursor.wheel_eq_nil_iff (m := m) hc
  rw [← hnone]
  cases hwheel : m.wheel c with
  | nil =>
    refine ⟨iff_of_true (findNext_of_wheel_eq_nil hwheel) rfl, ?_⟩
    rintro ⟨a, hmem, hmatch⟩
    simp [hnone.mp hwheel a hmem] at hmatch
  | cons hit hits =>
    obtain ⟨d, hnext, hd, hunder, -⟩ := hc.findNext_wheel hwheel
    refine ⟨iff_of_false (by simp [hnext]) (by simp), fun _ => ⟨?_, m.wheel c, ?_, ?_, fun k => ?_⟩⟩
    · obtain ⟨cs, hcs⟩ := hc.steady.exists_tour
      obtain ⟨rest, rfl⟩ := hcs.exists_cons
      obtain ⟨all, hall⟩ := hc.root.steady.exists_tour
      obtain ⟨target, hfind, htarget, hmatch⟩ := hc.exists_first hcs hall hwheel
      exact ⟨rest, all, target, d, hcs, hall, hfind, hnext, hd.place_of_match htarget hunder hmatch, hd.tree⟩
    · rw [hc.findAll_tree]
      exact hc.wheel_isRotated m
    · rw [(hc.wheel_isRotated m).nodup_iff]
      exact nodup_findAll m _
    · obtain ⟨cs, hcs, hwithin, hmap⟩ := hc.findNexts_wheel (m := m) (by simp [hwheel]) k
      exact ⟨cs, hcs, fun e he => (hwithin e he).tree, hwheel ▸ hmap⟩

/-- From a match that an edit has just made, with frames out of step, to the other one and back. -/
theorem Matcher.findNext_goes_round_edited :
    ∃ (m : Matcher) (c : Cursor), Cursor.Runs False (Cursor.ofTree (Supply.outside 0).first (.root [
        .composite () (.bracket .list) [.composite () (.bracket .list) [.atom () ⟨.symbol, ['a']⟩],
          .atom () ⟨.keyword, [':', 'b']⟩]])) c ∧
      Cursor.inStepFrom c.node c.frames = false ∧ c.source = "((b):b)".toList ∧ c.path = [0, 0, 0] ∧
        (∃ a ∈ c.tree.atoms, m.matchesAtom a = true) ∧
          (m.findNexts 3 c).toOption.map (·.map (·.path)) = some [[0, 1], [0, 0, 0], [0, 1]] ∧
            ∃ lap, lap ~r m.findAll c.tree ∧ lap.Nodup ∧
              ∀ k, ∃ cs, m.findNexts k c = .ok cs ∧
                cs.map m.matchUnder? = (List.range k).map fun i => lap[i % lap.length]? := by
  have hreach : Cursor.Runs False (Cursor.ofTree (Supply.outside 0).first (.root [.composite () (.bracket .list)
      [.composite () (.bracket .list) [.atom () ⟨.symbol, ['a']⟩], .atom () ⟨.keyword, [':', 'b']⟩]])) _ :=
    (Cursor.Runs.refl.step (.goto [0, 0, 0]) (by rintro d ⟨⟩) rfl).step (.replace (.atom none ⟨.symbol, ['b']⟩))
      (by rintro d ⟨⟩; exact ⟨rfl, False.elim⟩) rfl
  obtain ⟨-, hround⟩ := findNext_goes_round ⟨['b'], {}, by decide⟩ hreach
  obtain ⟨-, lap, hlap, hnodup, hruns⟩ := hround (by decide +kernel)
  refine ⟨_, _, hreach, by decide +kernel, by decide +kernel, by decide +kernel, by decide +kernel, by decide +kernel, lap,
    hlap, hnodup, fun k => ?_⟩
  obtain ⟨cs, hcs, -, hmap⟩ := hruns k
  exact ⟨cs, hcs, hmap⟩

end SexprEdit
