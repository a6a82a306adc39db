import SexprEdit.Proofs.Cursor.Tour

/-!
# Matches in one pass

The search runs over a tree once and keeps count of the position. Where it stands at a node is where the text before that
node ends (`findIn_eq`), so it reports the matching atoms among the places of the tree, each with the location that a
cursor there finds by writing out the whole tree (`Within.matchAt?_place`).
-/

namespace SexprEdit

open Node

theorem Position.advance_append (p : Position) (s t : Text) : p.advance (s ++ t) = (p.advance s).advance t :=
  List.foldl_append

namespace Matcher

variable {ι : Type} {m : Matcher}

def matchAt? (m : Matcher) (p : Place) : Option Match :=
  match p.node with
  | .atom _ a =>
    if m.matchesAtom a then some ⟨a.text, a.kind, (Position.advance {} p.before).location p.path⟩ else none
  | _ => none

/-- The match that a cursor rests on, if it rests on one. -/
def matchUnder? (m : Matcher) (c : Cursor) : Option Match :=
  match c.node with
  | .atom _ a => if m.matchesAtom a then some ⟨a.text, a.kind, c.location⟩ else none
  | _ => none

/-! ## The running position -/

/-- What the search finds in a node whose front is where a text ends. -/
def FindsPlaces (m : Matcher) (n : Node ι) : Prop :=
  ∀ path before, m.findIn path (Position.advance {} before) n =
    ((places path before n).filterMap m.matchAt?, Position.advance {} (before ++ n.text))

theorem findInAll_eq {ns : List (Node ι)} (h : ∀ n ∈ ns, m.FindsPlaces n) (path : List Nat) (index : Nat) (closed : Bool)
    (before : Text) :
    m.findInAll path index closed (Position.advance {} before) ns =
      ((placesAll path index closed before ns).filterMap m.matchAt?,
        Position.advance {} (before ++ childrenText closed ns)) := by
  induction ns generalizing index before with
  | nil => simp [findInAll, placesAll, childrenText]
  | cons n ns ih =>
    obtain ⟨hn, hns⟩ := List.forall_mem_cons.mp h
    -- the position runs over the line feed that ends a comment
    have hending : (if (n.isComment && endsBefore ns.head? closed) = true then
        (Position.advance {} (before ++ n.text)).advance ['\n'] else Position.advance {} (before ++ n.text)) =
          Position.advance {} (before ++ n.text ++ ending closed n ns) := by
      rw [ending]
      split_ifs
      · rw [Position.advance_append _ _ ['\n']]
      · rw [List.append_nil]
    rw [findInAll]
    simp only [hn _ before, hending, ih hns]
    rw [childrenText, ← ending, placesAll_cons, List.filterMap_append]
    refine Prod.ext ?_ ?_
    · refine congrArg (· ++ _) ?_
      by_cases hform : n.isForm = true
      · rw [if_pos hform, if_pos hform]
      · rw [if_neg hform, if_neg hform]
        cases n with
        | trivia label t => rfl
        | _ => exact absurd rfl hform
    · simp only [List.append_assoc]

/-- The search finds the matches among the places of a node. -/
theorem findIn_eq (m : Matcher) (n : Node ι) : m.FindsPlaces n := by
  induction n using child_induction with
  | node n ih =>
    intro path before
    cases n with
    | composite label kind children =>
      have ih : ∀ k ∈ children, m.FindsPlaces k := ih
      rw [findIn, ← Position.advance_append, findInAll_eq ih, places, text]
      simp only [← Position.advance_append, List.append_assoc]
      rfl
    | atom label a =>
      rw [findIn, places, ← Position.advance_append]
      by_cases hm : m.matchesAtom a = true
      · simp [matchAt?, hm, text]
      · simp [matchAt?, hm, text]
    | trivia label t =>
      rw [findIn, places, ← Position.advance_append]
      rfl

theorem findAll_eq (m : Matcher) (n : Node ι) : m.findAll n = (places [] [] n).filterMap m.matchAt? :=
  congrArg Prod.fst (findIn_eq m n [] [])

end Matcher

/-! ## Cursors -/

namespace Cursor

variable {c : Cursor} {cs : List Cursor} {t : Tree}

theorem Within.matchAt?_place (h : c.Within t) (m : Matcher) : m.matchAt? c.place = m.matchUnder? c := by
  rw [Matcher.matchUnder?, h.steady.location_eq h.faced, Matcher.matchAt?, place]
  cases c.node <;> rfl

theorem filterMap_place (h : ∀ c ∈ cs, c.Within t) (m : Matcher) :
    (cs.map place).filterMap m.matchAt? = cs.filterMap m.matchUnder? := by
  rw [List.filterMap_map]
  exact List.filterMap_congr fun c hc => (h c hc).matchAt?_place m

theorem Within.findAll_tour (h : c.Within t) (htour : Tour c cs) (hroot : c.frames = []) (m : Matcher) :
    m.findAll t = cs.filterMap m.matchUnder? := by
  rw [m.findAll_eq, ← filterMap_place (h.tour htour), htour.map_place_root h.steady hroot, h.whole]

end Cursor

/-- The search finds what the tour from the root meets, in the same order: the atoms that match, each with its text, its
kind and the location of the cursor there. -/
theorem Matcher.findAll_eq_tour (m : Matcher) (start : Stamp) (t : Tree) :
    ∃ cs, (∀ ds, Cursor.Tour (Cursor.ofTree start t) ds ↔ ds = cs) ∧ m.findAll t = cs.filterMap m.matchUnder? := by
  obtain ⟨cs, hcs⟩ := (Cursor.steady_ofTree start t).exists_tour
  exact ⟨cs, hcs.iff_eq, (Cursor.within_ofTree start t).findAll_tour hcs rfl m⟩

end SexprEdit
