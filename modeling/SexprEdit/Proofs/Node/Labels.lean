import SexprEdit.Cursor.Basic
import SexprEdit.Proofs.Node.Spacing

/-!
# Labels and stamps

The source of a tree, its tokens, its shape, and whether it is grammatical and spaced do not depend on its labels, so
that trees with the same plain tree can take each other's place. Stamping a draft changes labels only, and the stamps
that it gives are all new.
-/

namespace SexprEdit

namespace Node

variable {ι κ : Type}

/-! ## Trees with other labels -/

theorem mapAll_eq (f : ι → κ) (ns : List (Node ι)) : mapAll f ns = ns.map (map f) := by
  induction ns with
  | nil => rfl
  | cons n ns ih => rw [mapAll, ih, List.map_cons]

@[simp] theorem map_composite (f : ι → κ) (label : ι) (kind : Kind) (children : List (Node ι)) :
    (composite label kind children).map f = composite (f label) kind (children.map (map f)) := by
  rw [map, mapAll_eq]

@[simp] theorem map_atom (f : ι → κ) (label : ι) (a : Atom) : (atom label a).map f = atom (f label) a := rfl

@[simp] theorem map_trivia (f : ι → κ) (label : ι) (t : Trivia) : (trivia label t).map f = trivia (f label) t := rfl

@[simp] theorem isForm_map (f : ι → κ) (n : Node ι) : (n.map f).isForm = n.isForm := by
  cases n <;> rfl

@[simp] theorem isRoot_map (f : ι → κ) (n : Node ι) : (n.map f).isRoot = n.isRoot := by
  cases n with
  | composite label kind children => cases kind <;> simp [isRoot]
  | _ => rfl

@[simp] theorem isComment_map (f : ι → κ) (n : Node ι) : (n.map f).isComment = n.isComment := by
  cases n with
  | trivia label t => cases t <;> rfl
  | _ => rfl

@[simp] theorem startsWithNewline_map (f : ι → κ) (n : Node ι) : (n.map f).startsWithNewline = n.startsWithNewline := by
  cases n <;> rfl

@[simp] theorem formCount_map (f : ι → κ) (ns : List (Node ι)) : formCount (ns.map (map f)) = formCount ns := by
  simp [formCount, List.countP_map, Function.comp_def]

theorem childrenText_map (f : ι → κ) {ns : List (Node ι)} (h : ∀ n ∈ ns, (n.map f).text = n.text) (closed : Bool) :
    childrenText closed (ns.map (map f)) = childrenText closed ns := by
  induction ns with
  | nil => rfl
  | cons n ns ih =>
    obtain ⟨hn, hns⟩ := List.forall_mem_cons.mp h
    have hends : endsBefore (ns.map (map f)).head? closed = endsBefore ns.head? closed := by
      cases ns <;> simp [endsBefore]
    rw [List.map_cons, childrenText, childrenText, hn, isComment_map, hends, ih hns]

@[simp] theorem text_map (f : ι → κ) (n : Node ι) : (n.map f).text = n.text := by
  induction n using child_induction with
  | node n ih =>
    cases n with
    | composite label kind children =>
      have ih : ∀ m ∈ children, (m.map f).text = m.text := ih
      rw [map_composite, text, text, childrenText_map f ih]
    | _ => rfl

@[simp] theorem headText_map (f : ι → κ) (n : Node ι) : (n.map f).headText = n.headText := by
  induction n using child_induction with
  | node n ih =>
    cases n with
    | composite label kind children =>
      rw [map_composite, headText, headText]
      cases children with
      | nil => rfl
      | cons n ns => rw [List.map_cons, headTextAll, headTextAll, ih n (by simp [children])]
    | _ => rfl

@[simp] theorem tailText_map (f : ι → κ) (n : Node ι) : (n.map f).tailText = n.tailText := by
  induction n using child_induction with
  | node n ih =>
    cases n with
    | composite label kind children =>
      have hlast : (children.map (map f)).getLast?.map tailText = children.getLast?.map tailText := by
        rw [List.getLast?_map, Option.map_map]
        refine Option.map_congr fun m hm => ih m ?_
        exact List.mem_of_getLast? hm
      rw [map_composite, tailText, tailText, tailTextAll_eq, tailTextAll_eq, hlast]
    | _ => rfl

@[simp] theorem tokens_map (f : ι → κ) (n : Node ι) : (n.map f).tokens = n.tokens := by
  induction n using child_induction with
  | node n ih =>
    cases n with
    | composite label kind children =>
      have hall : ∀ ns : List (Node ι), (∀ m ∈ ns, (m.map f).tokens = m.tokens) →
          tokensAll (ns.map (map f)) = tokensAll ns := by
        intro ns hns
        induction ns with
        | nil => rfl
        | cons m ms ihms =>
          obtain ⟨hm, hms⟩ := List.forall_mem_cons.mp hns
          rw [List.map_cons, tokensAll_cons, tokensAll_cons, hm, ihms hms]
      rw [map_composite, tokens, tokens, hall children ih]
    | _ => rfl

@[simp] theorem shape_map (f : ι → κ) (n : Node ι) : (n.map f).shape = n.shape := by
  induction n using child_induction with
  | node n ih =>
    cases n with
    | composite label kind children =>
      have hforms : (isForm ∘ map f : Node ι → Bool) = isForm := by
        funext m
        exact isForm_map f m
      rw [map_composite, shape, shape, shapeAll_eq, shapeAll_eq, List.filter_map, List.map_map, hforms]
      congr 1
      exact List.map_congr_left fun m hm => ih m (List.mem_filter.mp hm).1
    | _ => rfl

theorem every_map (f : ι → κ) {p : Node ι → Bool} {q : Node κ → Bool} (h : ∀ n, q (n.map f) = p n) (n : Node ι) :
    (n.map f).every q = true ↔ n.every p = true := by
  induction n using child_induction with
  | node n ih =>
    have hchildren : (n.map f).children = n.children.map (map f) := by
      cases n with
      | composite label kind children => rw [map_composite]; rfl
      | _ => rfl
    rw [every_iff, every_iff, h, hchildren, List.forall_mem_map]
    exact and_congr_right fun _ => forall₂_congr ih

@[simp] theorem grammatical_map (f : ι → κ) (n : Node ι) : (n.map f).Grammatical ↔ n.Grammatical := by
  refine every_map f (fun n => ?_) n
  cases n with
  | composite label kind children =>
    have hlast : (children.getLast?.map (map f)).any isForm = children.getLast?.any isForm := by
      cases children.getLast? <;> simp
    have hroots : (children.map (map f)).all (!·.isRoot) = children.all (!·.isRoot) := by
      simp [List.all_map, Function.comp_def]
    rw [map_composite]
    cases kind with
    | mark m => simp only [wellBuilt, hroots, formCount_map, List.getLast?_map, hlast]
    | _ => simp only [wellBuilt, hroots]
  | _ => rfl

@[simp] theorem runsInto_map (f : ι → κ) (kind : Kind) (left right : Option (Node ι)) :
    runsInto kind (left.map (map f)) (right.map (map f)) = runsInto kind left right := by
  cases left <;> cases right <;> simp [runsInto]

@[simp] theorem spaced_map (f : ι → κ) (n : Node ι) : (n.map f).Spaced ↔ n.Spaced := by
  refine every_map f (fun n => ?_) n
  cases n with
  | composite label kind children =>
    have hlist : none :: (children.map (map f)).map some ++ [none] =
        (none :: children.map some ++ [none]).map (Option.map (map f)) := by simp
    rw [map_composite, wellSpaced, wellSpaced, decide_eq_decide, hlist, List.isChain_map]
    simp only [runsInto_map]
  | _ => rfl

@[simp] theorem made_map (f : ι → κ) {P : Token → Prop} (n : Node ι) : (n.map f).Made P ↔ n.Made P := by
  constructor
  · rintro ⟨hgrammatical, htoken⟩
    rw [tokens_map] at htoken
    exact ⟨(grammatical_map f n).mp hgrammatical, htoken⟩
  · rintro ⟨hgrammatical, htoken⟩
    refine ⟨(grammatical_map f n).mpr hgrammatical, ?_⟩
    rwa [tokens_map]

theorem map_map {μ : Type} (f : ι → κ) (g : κ → μ) (n : Node ι) : (n.map f).map g = n.map (g ∘ f) := by
  induction n using child_induction with
  | node n ih =>
    cases n with
    | composite label kind children =>
      rw [map_composite, map_composite, map_composite, List.map_map]
      exact congrArg _ (List.map_congr_left ih)
    | _ => rfl

@[simp] theorem plain_composite (label : ι) (kind : Kind) (children : List (Node ι)) :
    (composite label kind children).plain = composite () kind (children.map plain) :=
  map_composite _ label kind children

@[simp] theorem plain_map (f : ι → κ) (n : Node ι) : (n.map f).plain = n.plain :=
  map_map f (fun _ => ()) n

@[simp] theorem isForm_plain (n : Node ι) : n.plain.isForm = n.isForm :=
  isForm_map _ n

@[simp] theorem isRoot_plain (n : Node ι) : n.plain.isRoot = n.isRoot :=
  isRoot_map _ n

@[simp] theorem shape_plain (n : Node ι) : n.plain.shape = n.shape :=
  shape_map _ n

@[simp] theorem formCount_map_plain (ns : List (Node ι)) : formCount (ns.map plain) = formCount ns :=
  formCount_map _ ns

@[simp] theorem isWhitespace_plain (n : Node ι) : n.plain.isWhitespace = n.isWhitespace := by
  cases n with
  | trivia label t => cases t <;> rfl
  | _ => rfl

@[simp] theorem plain_plain (n : Tree) : n.plain = n := by
  induction n using child_induction with
  | node n ih =>
    cases n with
    | composite label kind children =>
      rw [plain_composite]
      refine congrArg _ ?_
      exact (List.map_congr_left ih).trans (List.map_id children)
    | _ => rfl

theorem sameAll_iff [DecidableEq ι] {ns : List (Node ι)} (h : ∀ n ∈ ns, ∀ m, n.same m = true ↔ n = m)
    (ms : List (Node ι)) :
    sameAll ns ms = true ↔ ns = ms := by
  induction ns generalizing ms with
  | nil => cases ms <;> simp [sameAll]
  | cons n ns ih =>
    obtain ⟨hn, hns⟩ := List.forall_mem_cons.mp h
    cases ms with
    | nil => simp [sameAll]
    | cons m ms => rw [sameAll, Bool.and_eq_true, hn, ih hns, List.cons.injEq]

/-- The comparison of trees is equality. -/
theorem same_iff [DecidableEq ι] {n m : Node ι} : n.same m = true ↔ n = m := by
  induction n using child_induction generalizing m with
  | node n ih =>
    cases n with
    | composite label kind children =>
      have hall : ∀ ms, sameAll children ms = true ↔ children = ms := sameAll_iff fun k hk _ => ih k hk
      cases m <;> simp [same, hall, and_assoc]
    | _ => cases m <;> simp [same]

end Node

/-! ## Stamps -/

namespace Stamp

/-- Stamps are in the order of their numbers, whatever they were drawn from. -/
instance : Preorder Stamp :=
  Preorder.lift Stamp.number

instance : DecidableLT Stamp :=
  fun s t => inferInstanceAs (Decidable (s.number < t.number))

theorem le_add (s : Stamp) (draws : Nat) : s ≤ s + draws :=
  Nat.le_add_right s.number draws

theorem le_add_of_le {s t : Stamp} (h : s ≤ t) (draws : Nat) : s ≤ t + draws :=
  h.trans (t.le_add draws)

theorem lt_add (s : Stamp) {draws : Nat} (h : 0 < draws) : s < s + draws :=
  Nat.lt_add_of_pos_right h

theorem add_lt_add (s : Stamp) {draws later : Nat} (h : draws < later) : s + draws < s + later :=
  Nat.add_lt_add_left h s.number

end Stamp

namespace Node

/-- All stamps of the tree are before a given one. -/
def Below (fresh : Stamp) (n : Cell) : Prop :=
  n.every (fun m => decide (m.label < fresh)) = true

/-- All stamps that the draft keeps are before a given one. -/
def KeepsBelow (fresh : Stamp) (d : Draft) : Prop :=
  d.every (fun m => m.label.all (decide <| · < fresh)) = true

theorem below_iff {fresh : Stamp} {n : Cell} :
    n.Below fresh ↔ n.label < fresh ∧ ∀ m ∈ n.children, m.Below fresh := by
  rw [Below, every_iff, decide_eq_true_eq]
  rfl

theorem keepsBelow_iff {fresh : Stamp} {d : Draft} :
    KeepsBelow fresh d ↔ (∀ s ∈ d.label, s < fresh) ∧ ∀ e ∈ d.children, KeepsBelow fresh e := by
  rw [KeepsBelow, every_iff]
  cases d.label <;> simp [KeepsBelow]

theorem Below.mono {fresh later : Stamp} (hle : fresh ≤ later) {n : Cell} (h : n.Below fresh) : n.Below later := by
  induction n using child_induction with
  | node n ih =>
    obtain ⟨hlabel, hchildren⟩ := below_iff.mp h
    exact below_iff.mpr ⟨hlabel.trans_le hle, fun m hm => ih m hm (hchildren m hm)⟩

theorem KeepsBelow.mono {fresh later : Stamp} (hle : fresh ≤ later) {d : Draft} (h : KeepsBelow fresh d) :
    KeepsBelow later d := by
  induction d using child_induction with
  | node d ih =>
    obtain ⟨hlabel, hchildren⟩ := keepsBelow_iff.mp h
    exact keepsBelow_iff.mpr ⟨fun s hs => (hlabel s hs).trans_le hle, fun e he => ih e he (hchildren e he)⟩

theorem keepsBelow_draft (fresh : Stamp) (t : Tree) : KeepsBelow fresh t.draft :=
  (every_map _ (p := fun _ => true) (fun n => by cases n <;> simp [label]) t).mpr (by
    induction t using child_induction with
    | node n ih => exact every_iff.mpr ⟨rfl, ih⟩)

theorem keepsBelow_kept {fresh : Stamp} {n : Cell} (h : n.Below fresh) : KeepsBelow fresh n.kept :=
  (every_map _ (fun n => by cases n <;> rfl) n).mpr h

@[simp] theorem plain_draft (t : Tree) : t.draft.plain = t := by
  rw [draft, plain_map, plain_plain]

/-- What stamping does to a tree. -/
structure Stamps (fresh : Stamp) (d : Draft) (stamped : Cell × Stamp) : Prop where
  plain : stamped.1.plain = d.plain
  le : fresh ≤ stamped.2
  below : stamped.1.Below stamped.2

theorem stampAll_spec {ds : List Draft}
    (h : ∀ d ∈ ds, ∀ fresh, KeepsBelow fresh d → Stamps fresh d (stamp fresh d)) (fresh : Stamp)
    (hkeep : ∀ d ∈ ds, KeepsBelow fresh d) :
    (stampAll fresh ds).1.map plain = ds.map plain ∧ fresh ≤ (stampAll fresh ds).2 ∧
      ∀ n ∈ (stampAll fresh ds).1, n.Below (stampAll fresh ds).2 := by
  induction ds generalizing fresh with
  | nil => exact ⟨rfl, le_refl fresh, by simp [stampAll]⟩
  | cons d ds ih =>
    obtain ⟨hd, hds⟩ := List.forall_mem_cons.mp h
    obtain ⟨hkeep, hkeeps⟩ := List.forall_mem_cons.mp hkeep
    obtain ⟨hplain, hle, hbelow⟩ := hd fresh hkeep
    obtain ⟨hplains, hles, hbelows⟩ := ih hds (stamp fresh d).2 fun e he => (hkeeps e he).mono hle
    refine ⟨?_, hle.trans hles, List.forall_mem_cons.mpr ⟨hbelow.mono hles, hbelows⟩⟩
    rw [stampAll, List.map_cons, List.map_cons, hplain, hplains]

theorem stamp_spec (d : Draft) (fresh : Stamp) (hkeep : KeepsBelow fresh d) : Stamps fresh d (stamp fresh d) := by
  induction d using child_induction generalizing fresh with
  | node d ih =>
    obtain ⟨hlabel, hchildren⟩ := keepsBelow_iff.mp hkeep
    have hget : d.label.getD fresh < fresh + 1 := by
      cases hd : d.label with
      | none => exact fresh.lt_add Nat.one_pos
      | some s => exact (hlabel s hd).trans_le (fresh.le_add 1)
    cases d with
    | atom label a => exact ⟨rfl, fresh.le_add 1, below_iff.mpr ⟨hget, by simp [stamp, children]⟩⟩
    | trivia label t => exact ⟨rfl, fresh.le_add 1, below_iff.mpr ⟨hget, by simp [stamp, children]⟩⟩
    | composite label kind children =>
      have hchildren : ∀ e ∈ children, KeepsBelow fresh e := hchildren
      obtain ⟨hplain, hle, hbelow⟩ := stampAll_spec ih (fresh + 1) fun e he => (hchildren e he).mono (fresh.le_add 1)
      refine ⟨?_, (fresh.le_add 1).trans hle, below_iff.mpr ⟨hget.trans_le hle, hbelow⟩⟩
      rw [stamp, plain_composite, plain_composite]
      exact congrArg _ hplain

end Node

end SexprEdit
