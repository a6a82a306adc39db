import SexprEdit.Cursor.Edit
import SexprEdit.Proofs.Cursor.Whole
import SexprEdit.Proofs.Node.Seams

/-!
# Nodes in their frames

What the whole tree is after another node has taken the place of the current one. It stays grammatical if the new
node is a form like the old one, and spaced if both begin and end alike (`Node.Fits`). A node with another end is kept
apart from what follows it in the frames around (`Frame.keepApart`): the end is carried outwards through the marks
that it closes.
-/

namespace SexprEdit

namespace Node

variable {ι : Type}

/-- The second node begins and ends like the first. -/
structure Fits (n m : Node ι) : Prop where
  form : m.isForm = n.isForm
  head : m.headText = n.headText
  tail : m.tailText = n.tailText

theorem headText_composite_cons (label label' : ι) (kind : Kind) (before after after' : List (Node ι)) {n m : Node ι}
    (h : m.headText = n.headText) :
    (composite label' kind (before ++ m :: after')).headText = (composite label kind (before ++ n :: after)).headText := by
  rw [headText, headText]
  cases before with
  | nil => simp [headTextAll, h]
  | cons b before => rfl

theorem tailText_composite_append (label label' : ι) {kind : Kind} (before before' : List (Node ι))
    {after : List (Node ι)} (h : after ≠ [] ∨ kind.closer ≠ []) :
    (composite label' kind (before' ++ after)).tailText = (composite label kind (before ++ after)).tailText := by
  rw [tailText, tailText, tailTextAll_eq, tailTextAll_eq]
  rcases h with hafter | hcloser
  · obtain ⟨init, last, rfl⟩ := (List.eq_nil_or_concat' after).resolve_left hafter
    simp only [← List.append_assoc, List.getLast?_concat]
  · have : kind.closer.isEmpty = false := by simpa using hcloser
    simp [this]

theorem tailText_composite_last (label : ι) {kind : Kind} (before : List (Node ι)) (n : Node ι)
    (h : kind.closer = []) : (composite label kind (before ++ [n])).tailText = n.tailText := by
  rw [tailText, tailTextAll_eq, List.getLast?_concat, h]
  rfl

theorem Fits.runsInto_right {n m : Node ι} (h : Fits n m) (kind : Kind) (left : Option (Node ι)) :
    runsInto kind left (some m) = runsInto kind left (some n) := by
  simp [runsInto, h.head]

theorem Fits.runsInto_left {n m : Node ι} (h : Fits n m) (kind : Kind) (right : Option (Node ι)) :
    runsInto kind (some m) right = runsInto kind (some n) right := by
  simp [runsInto, h.form, h.tail]

theorem isRoot_composite (label label' : ι) (kind : Kind) (ns ms : List (Node ι)) :
    (composite label' kind ms).isRoot = (composite label kind ns).isRoot := by
  cases kind <;> rfl

theorem fits_bracket (label label' : ι) (b : Bracket) (ns ms : List (Node ι)) :
    Fits (composite label (.bracket b) ns) (composite label' (.bracket b) ms) := by
  refine ⟨rfl, ?_, ?_⟩
  · simp [headText, Kind.opener, b.opener_ne_nil]
  · simp [tailText, Kind.closer, b.closer.text_ne_nil]

end Node

open Node

namespace Frame

variable {P : Token → Prop} {f : Frame} {n m : Cell}

theorem fits_fill (f : Frame) (h : Fits n m) : Fits (f.fill n) (f.fill m) := by
  refine ⟨rfl, headText_composite_cons _ _ _ _ _ _ h.head, ?_⟩
  by_cases hend : f.after ≠ [] ∨ f.kind.closer ≠ []
  · have := tailText_composite_append f.stamp f.stamp (f.before ++ [n]) (f.before ++ [m]) hend
    simpa [fill] using this
  · obtain ⟨hafter, hcloser⟩ := not_or.mp hend
    rw [not_not] at hafter hcloser
    rw [fill, fill, hafter, tailText_composite_last _ _ _ hcloser, tailText_composite_last _ _ _ hcloser, h.tail]

theorem made_fill (hP : Token.Lawful P) (h : (f.fill n).Made P) (hm : m.Made P) (hform : m.isForm = n.isForm)
    (hroot : m.isRoot = false) : (f.fill m).Made P := by
  have := h.exchange hP f.stamp ⟨hm, hroot⟩ hform madeAll_nil madeAll_nil (by simp) (by simp) (by simp)
  simpa [fill] using this

theorem spaced_fill_iff :
    (f.fill n).Spaced ↔
      ((∀ k ∈ f.before, k.Spaced) ∧ n.Spaced ∧ ∀ k ∈ f.after, k.Spaced) ∧ FrontSpaced f.kind f.before ∧
        runsInto f.kind f.before.getLast? (some n) = false ∧ runsInto f.kind (some n) f.after.head? = false ∧
          BackSpaced f.kind f.after := by
  rw [fill, spaced_append_iff, backSpaced_cons, List.forall_mem_append, List.forall_mem_cons, List.head?_cons]

theorem spaced_fill (h : (f.fill n).Spaced) (hm : m.Spaced) (hfits : Fits n m) : (f.fill m).Spaced := by
  obtain ⟨⟨hbefore, -, hafter⟩, hfront, hleft, hright, hback⟩ := spaced_fill_iff.mp h
  rw [← hfits.runsInto_right] at hleft
  rw [← hfits.runsInto_left] at hright
  exact spaced_fill_iff.mpr ⟨⟨hbefore, hm, hafter⟩, hfront, hleft, hright, hback⟩

theorem following?_cases (hP : Token.Lawful P) (h : MadeAll P f.after) :
    (f.following? = none ∧ ∃ t rest, f.after = t :: rest ∧ t.isForm = false) ∨
      (f.following? = some [] ∧ f.after = [] ∧ f.kind.closer = []) ∨
        ∃ text, f.following? = some text ∧ text ≠ [] ∧ (f.after ≠ [] ∨ f.kind.closer ≠ []) ∧
          text = (f.after.head?.map headText).getD f.kind.closer := by
  rw [following?]
  cases hafter : f.after with
  | nil =>
    by_cases hcloser : f.kind.closer = []
    · exact .inr (.inl ⟨by simp [hcloser], rfl, hcloser⟩)
    · exact .inr (.inr ⟨_, rfl, hcloser, .inr hcloser, rfl⟩)
  | cons t rest =>
    by_cases hform : t.isForm = true
    · rw [hafter] at h
      obtain ⟨⟨ht, hroot⟩, -⟩ := madeAll_cons.mp h
      have hsound : t.Sound := ht.mono hP.genuine
      obtain ⟨u, us, htokens, htext, -⟩ := exists_head_token hsound hform hroot
      have hu := hsound.token u (mem_tokens_of_mem_shape hform (by rw [htokens]; simp))
      refine .inr (.inr ⟨t.headText, by simp [hform], ?_, .inl (by simp), rfl⟩)
      rw [← htext]
      exact hu.text_ne_nil
    · exact .inl ⟨by simp [hform], t, rest, rfl, by simpa using hform⟩

end Frame

namespace Cursor

variable {P : Token → Prop} {n m : Cell} {frames : List Frame}

/-! ## Parts of the whole tree -/

theorem made_of_wholeFrom (hP : Token.Lawful P) (h : (wholeFrom n frames).Made P) : n.Made P := by
  induction frames generalizing n with
  | nil => exact h
  | cons f outer ih => exact ((ih h).children hP n (by simp)).1

theorem isRoot_of_wholeFrom (hP : Token.Lawful P) {f : Frame} (h : (wholeFrom n (f :: frames)).Made P) :
    n.isRoot = false := by
  have hfill : (f.fill n).Made P := made_of_wholeFrom hP h
  exact (hfill.children hP n (by simp)).2

theorem spaced_of_wholeFrom (h : (wholeFrom n frames).Spaced) : n.Spaced := by
  induction frames generalizing n with
  | nil => exact h
  | cons f outer ih => exact (Frame.spaced_fill_iff.mp (ih h)).1.2.1

/-! ## Another node in the same frames -/

theorem isRoot_wholeFrom (hroot : m.isRoot = n.isRoot) (frames : List Frame) :
    (wholeFrom m frames).isRoot = (wholeFrom n frames).isRoot := by
  induction frames generalizing n m with
  | nil => exact hroot
  | cons f outer ih => exact ih (isRoot_composite _ _ _ _ _)

theorem made_wholeFrom (hP : Token.Lawful P) (h : (wholeFrom n frames).Made P) (hm : m.Made P)
    (hform : m.isForm = n.isForm) (hroot : m.isRoot = n.isRoot) : (wholeFrom m frames).Made P := by
  induction frames generalizing n m with
  | nil => exact hm
  | cons f outer ih =>
    have hfill : (f.fill n).Made P := made_of_wholeFrom hP h
    rw [isRoot_of_wholeFrom hP h] at hroot
    exact ih h (Frame.made_fill hP hfill hm hform hroot) rfl (isRoot_composite _ _ _ _ _)

theorem spaced_wholeFrom (h : (wholeFrom n frames).Spaced) (hm : m.Spaced) (hfits : Fits n m) :
    (wholeFrom m frames).Spaced := by
  induction frames generalizing n m with
  | nil => exact hm
  | cons f outer ih =>
    have hfill : (f.fill n).Spaced := spaced_of_wholeFrom h
    exact ih h (Frame.spaced_fill hfill hm hfits) (f.fits_fill hfits)

theorem spaced_recompose (hP : Token.Lawful P) {label label' : Stamp} {kind : Kind} {ns ms : List Cell}
    (hmade : (wholeFrom (.composite label kind ns) frames).Made P)
    (h : (wholeFrom (.composite label kind ns) frames).Spaced) (hvariadic : ∀ m, kind ≠ .mark m)
    (hms : (Node.composite label' kind ms).Spaced) : (wholeFrom (.composite label' kind ms) frames).Spaced := by
  cases kind with
  | root =>
    cases frames with
    | nil => exact hms
    | cons f outer => exact absurd (isRoot_of_wholeFrom hP hmade) (by simp [Node.isRoot])
  | bracket b => exact spaced_wholeFrom h hms (fits_bracket _ _ b _ _)
  | mark m => exact absurd rfl (hvariadic m)

/-! ## Keeping an end apart from what follows -/

theorem isRoot_keepApart (tail : Text) (fresh : Stamp) (hroot : m.isRoot = n.isRoot) :
    (wholeFrom m (Frame.keepApart tail fresh frames)).isRoot = (wholeFrom n frames).isRoot := by
  induction frames generalizing n m with
  | nil => exact hroot
  | cons f outer ih =>
    have hfill : ∀ before after : List Cell, ∀ label : Stamp,
        (Node.composite label f.kind (before ++ m :: after)).isRoot = (f.fill n).isRoot := fun before after label =>
      isRoot_composite _ _ _ _ _
    rw [Frame.keepApart]
    cases f.following? with
    | none => exact isRoot_wholeFrom (hfill _ _ _) outer
    | some following =>
      simp only
      split_ifs
      · exact ih (hfill _ _ _)
      · exact isRoot_wholeFrom (m := (f.spaceAfter fresh).fill m) (hfill _ _ _) outer
      · exact isRoot_wholeFrom (hfill _ _ _) outer

theorem made_keepApart (hP : Token.Lawful P) (tail : Text) (fresh : Stamp) (h : (wholeFrom n frames).Made P)
    (hm : m.Made P) (hform : m.isForm = n.isForm) (hroot : m.isRoot = n.isRoot) :
    (wholeFrom m (Frame.keepApart tail fresh frames)).Made P := by
  induction frames generalizing n m with
  | nil => exact hm
  | cons f outer ih =>
    have hold : (f.fill n).Made P := made_of_wholeFrom hP h
    have hnroot : m.isRoot = false := hroot.trans (isRoot_of_wholeFrom hP h)
    have hnew : (f.fill m).Made P := Frame.made_fill hP hold hm hform hnroot
    have hsame : (wholeFrom (f.fill m) outer).Made P := made_wholeFrom hP h hnew rfl (isRoot_composite _ _ _ _ _)
    have hafter : MadeAll P f.after := (madeAll_cons.mp (madeAll_append.mp (hold.children hP)).2).2
    rw [Frame.keepApart]
    rcases f.following?_cases hP hafter with ⟨hnone, -⟩ | ⟨hempty, -⟩ | ⟨text, hsome, hne, hend, -⟩
    · rw [hnone]
      exact hsame
    · rw [hempty]
      exact ih h hnew rfl (isRoot_composite _ _ _ _ _)
    · rw [hsome]
      simp only [List.isEmpty_iff, hne, if_false]
      split_ifs
      · have hspace : MadeAll P [space (fresh + 1)] := madeAll_cons.mpr ⟨⟨made_space hP _, rfl⟩, madeAll_nil⟩
        have hspaced : ((f.spaceAfter fresh).fill m).Made P := by
          have := hold.exchange hP fresh ⟨hm, hnroot⟩ hform madeAll_nil hspace (by simp)
            (by simp [space, isForm]) ?_
          · simpa [Frame.fill, Frame.spaceAfter] using this
          · rintro k hk hnil
            rcases hend with hend | hend
            · exact absurd hnil hend
            · exact absurd (by simp [hk, Kind.closer]) hend
        show (wholeFrom ((f.spaceAfter fresh).fill m) outer).Made P
        exact made_wholeFrom hP h hspaced rfl (isRoot_composite _ _ _ _ _)
      · exact hsame

/-- A form with another end, kept apart from what follows it, leaves the tree spaced. -/
theorem spaced_keepApart (fresh : Stamp) (hmade : (wholeFrom n frames).Made Token.Tame)
    (h : (wholeFrom n frames).Spaced) (hm : m.Made Token.Tame) (hspaced : m.Spaced) (hroot : m.isRoot = n.isRoot)
    (hform : m.isForm = n.isForm) (hhead : m.headText = n.headText) :
    (wholeFrom m (Frame.keepApart m.tailText fresh frames)).Spaced := by
  induction frames generalizing n m with
  | nil => exact hspaced
  | cons f outer ih =>
    have hP := Token.lawful_tame
    have hold : (f.fill n).Made Token.Tame := made_of_wholeFrom hP hmade
    have hmroot : m.isRoot = false := hroot.trans (isRoot_of_wholeFrom hP hmade)
    have hafter : MadeAll Token.Tame f.after := (madeAll_cons.mp (madeAll_append.mp (hold.children hP)).2).2
    have hsound : ∀ k ∈ some m, k.Sound ∧ k.isRoot = false := by
      rintro k ⟨⟩
      exact ⟨hm.mono fun _ ht => ht.1, hmroot⟩
    have hkind := hold.opening hP
    obtain ⟨⟨hbefores, -, hafters⟩, hfront, hleft, -, hback⟩ := Frame.spaced_fill_iff.mp (spaced_of_wholeFrom h)
    have hleft : runsInto f.kind f.before.getLast? (some m) = false := by
      rw [← hleft]
      simp [runsInto, hhead]
    have hnew : runsInto f.kind (some m) f.after.head? = false → (f.fill m).Spaced := fun hright =>
      Frame.spaced_fill_iff.mpr ⟨⟨hbefores, hspaced, hafters⟩, hfront, hleft, hright, hback⟩
    have hheads := headText_composite_cons f.stamp f.stamp f.kind f.before f.after f.after hhead
    have hsame : f.after ≠ [] ∨ f.kind.closer ≠ [] → runsInto f.kind (some m) f.after.head? = false →
        (wholeFrom (f.fill m) outer).Spaced := by
      intro hend hright
      have htail := tailText_composite_append f.stamp f.stamp (f.before ++ [n]) (f.before ++ [m]) hend
      exact spaced_wholeFrom h (hnew hright) ⟨rfl, hheads, by simpa [Frame.fill] using htail⟩
    rw [Frame.keepApart]
    rcases f.following?_cases hP hafter with ⟨hnone, t, rest, heq, ht⟩ | ⟨hempty, hnil, hcloser⟩ |
      ⟨text, hsome, hne, hend, htext⟩
    · -- trivia follow, and no form runs into those
      rw [hnone]
      refine hsame (.inl (by simp [heq])) ?_
      rw [heq] at hafter
      rw [heq, List.head?_cons]
      exact runsInto_trivia hkind hsound (madeAll_cons.mp hafter).1.1 ht
    · -- the end of the form is the end of the mark around it, and goes on outwards
      rw [hempty]
      have hright : runsInto f.kind (some m) f.after.head? = false := by
        rw [hnil]
        exact runsInto_none hkind hsound
      have htail : (f.fill m).tailText = m.tailText := by
        rw [Frame.fill, hnil, tailText_composite_last _ _ _ hcloser]
      have hout := ih hmade h (Frame.made_fill hP hold hm hform hmroot) (hnew hright)
        (isRoot_composite _ _ _ _ _) rfl hheads
      rwa [htail] at hout
    · rw [hsome]
      simp only [List.isEmpty_iff, hne, if_false]
      split_ifs with hfuses
      · refine spaced_wholeFrom (n := f.fill n) (m := (f.spaceAfter fresh).fill m) h ?_
          ⟨rfl, headText_composite_cons _ _ _ _ _ _ hhead, ?_⟩
        · refine Frame.spaced_fill_iff.mpr ⟨⟨hbefores, hspaced, ?_⟩, hfront, hleft, ?_, ?_⟩
          · exact List.forall_mem_cons.mpr ⟨rfl, hafters⟩
          · exact runsInto_trivia hkind hsound (made_space hP _) rfl
          · exact backSpaced_cons.mpr ⟨runsInto_of_trivia rfl _, hback⟩
        · have htail := tailText_composite_append f.stamp fresh (f.before ++ [n]) (f.before ++ [m, space (fresh + 1)]) hend
          simpa [Frame.fill, Frame.spaceAfter] using htail
      · refine hsame hend ?_
        rw [runsInto, Option.map_some, Option.getD_some, ← htext, Bool.eq_false_iff.mpr hfuses, Bool.and_false]

end Cursor

end SexprEdit
