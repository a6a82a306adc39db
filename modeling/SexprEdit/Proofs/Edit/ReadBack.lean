import SexprEdit.Proofs.Edit.Extract
import SexprEdit.Session.Document

/-!
# Documents read back

Mutations are applied one after the other to a document that was read, and those that fail are left out. The tree of
the document stays grammatical, so its source reads back as a tree of the same shape exactly if the tree is spaced.
Without comments that begin with a hash every mutation but one keeps it spaced; the one is an extraction that puts its
name right behind a form that it runs into.
-/

namespace SexprEdit

open Node

/-- Whether a text has no comment that begins with a hash. -/
def hashFree (source : Text) : Bool :=
  (lex source).all fun piece => piece.token?.all (!·.isHashComment)

theorem Care.allows_of_hashFree {source : Text} (h : hashFree source = true) (care : Care) : care.Allows source := by
  intro u hu hgenuine
  refine care.lawful.of_tame u ⟨hgenuine, ?_⟩
  simpa [Lexeme.token?] using List.all_eq_true.mp h (.token u) hu

theorem Care.grammar_allows (source : Text) : Care.grammar.Allows source :=
  fun _ _ hgenuine => hgenuine

namespace Mutation

def fragment? : Mutation → Option Text
  | replace fragment | insertBefore fragment | insertAfter fragment | insertChild fragment | appendChild fragment =>
    some fragment
  | _ => none

def isExtract : Mutation → Bool
  | extract _ => true
  | _ => false

/-- Whether the name that a mutation extracts, if it does, stands clear. -/
def extractsClear (config : Config) (c : Cursor) : Mutation → Bool
  | extract name => c.extractsClear config name
  | _ => true

theorem ok_of_moved {x : Except CursorError Cursor} {applied : Applied} (h : moved x = .ok applied) :
    x = .ok applied.cursor := by
  cases x with
  | ok cursor =>
    obtain rfl := Except.ok.inj h
    rfl
  | error e => simp [moved] at h

theorem ok_of_withFragment {fragment : Text} {edit : Draft → Except CursorError Cursor} {applied : Applied}
    (h : withFragment fragment edit = .ok applied) :
    ∃ form, Tree.readFragment fragment = .ok form ∧ edit form.draft = .ok applied.cursor := by
  obtain ⟨form, hread, h⟩ := Except.exists_ok_of_bind h
  exact ⟨form, hread, ok_of_moved h⟩

end Mutation

/-- Every mutation keeps a document as it should be. -/
theorem Mutation.kept {care : Care} {config : Config} {c : Cursor} {applied : Applied} {m : Mutation} (h : c.Kept care)
    (hfragment : ∀ fragment ∈ m.fragment?, care.Allows fragment)
    (hhead : m.isExtract = true → ∀ fresh, Draft.Kept care fresh (Draft.symbol config.bindingHead))
    (hclear : care = .spacing → m.extractsClear config c = true)
    (hm : m.apply config c = .ok applied) : applied.cursor.Kept care := by
  cases m with
  | navigate direction => exact h.walk (Direction.walk (ok_of_moved hm))
  | goto path => exact h.walk (Cursor.Walk.refl.goto (ok_of_moved hm))
  | replace fragment =>
    obtain ⟨form, hread, hedit⟩ := ok_of_withFragment hm
    exact h.replace (Tree.kept_of_readFragment hread (hfragment fragment rfl) _) hedit
  | insertBefore fragment =>
    obtain ⟨form, hread, hedit⟩ := ok_of_withFragment hm
    exact h.insertBefore (Tree.kept_of_readFragment hread (hfragment fragment rfl) _) hedit
  | insertAfter fragment =>
    obtain ⟨form, hread, hedit⟩ := ok_of_withFragment hm
    exact h.insertAfter (Tree.kept_of_readFragment hread (hfragment fragment rfl) _) hedit
  | insertChild fragment =>
    obtain ⟨form, hread, hedit⟩ := ok_of_withFragment hm
    exact h.insertChild (Tree.kept_of_readFragment hread (hfragment fragment rfl) _) hedit
  | appendChild fragment =>
    obtain ⟨form, hread, hedit⟩ := ok_of_withFragment hm
    exact h.appendChild (Tree.kept_of_readFragment hread (hfragment fragment rfl) _) hedit
  | remove => exact h.remove (ok_of_moved hm)
  | rename query replacement options =>
    obtain ⟨matcher, -, hm⟩ := Except.exists_ok_of_bind hm
    obtain ⟨⟨cursor, count⟩, hrename, hm⟩ := Except.exists_ok_of_bind hm
    obtain rfl := Except.ok.inj hm
    exact h.rename hrename
  | extract name =>
    obtain ⟨cursor, hcursor, hm⟩ := Except.exists_ok_of_bind hm
    obtain rfl := Except.ok.inj hm
    exact h.extract (hhead rfl) hclear hcursor
  | thread style =>
    obtain ⟨cursor, hcursor, hm⟩ := Except.exists_ok_of_bind hm
    obtain rfl := Except.ok.inj hm
    exact h.thread hcursor
  | findNext query options =>
    obtain ⟨matcher, -, hm⟩ := Except.exists_ok_of_bind hm
    obtain ⟨cursor, hcursor, hm⟩ := Except.exists_ok_of_bind hm
    obtain rfl := Except.ok.inj hm
    exact h.walk (Cursor.Walk.findNext hcursor)

namespace Document

variable {care : Care} {config : Config} {d : Document}

/-- The document after a mutation, or as it is if the mutation fails. -/
def attempt (config : Config) (d : Document) (m : Mutation) : Document :=
  match d.apply config m with
  | .ok (next, _) => next
  | .error _ => d

/-- The document after all mutations that do not fail. -/
def attemptAll (config : Config) (d : Document) (ms : List Mutation) : Document :=
  ms.foldl (attempt config) d

theorem kept_attempt (h : d.cursor.Kept care) {m : Mutation} (hfragment : ∀ fragment ∈ m.fragment?, care.Allows fragment)
    (hhead : m.isExtract = true → ∀ fresh, Draft.Kept care fresh (Draft.symbol config.bindingHead))
    (hclear : care = .spacing → m.extractsClear config d.cursor = true) :
    (d.attempt config m).cursor.Kept care := by
  rw [attempt]
  cases happly : d.apply config m with
  | error e => exact h
  | ok result =>
    obtain ⟨applied, hm, hresult⟩ := Except.exists_ok_of_bind happly
    obtain rfl := Except.ok.inj hresult
    exact Mutation.kept h hfragment hhead hclear hm

/-- Whether all names that mutations extract one after the other stand clear. -/
def extractsClear (config : Config) (d : Document) : List Mutation → Bool
  | [] => true
  | m :: ms => m.extractsClear config d.cursor && extractsClear config (d.attempt config m) ms

theorem extractsClear_of_isExtract {ms : List Mutation} (h : ∀ m ∈ ms, m.isExtract = false) :
    d.extractsClear config ms = true := by
  induction ms generalizing d with
  | nil => rfl
  | cons m ms ih =>
    obtain ⟨hm, hms⟩ := List.forall_mem_cons.mp h
    have hclear : m.extractsClear config d.cursor = true := by
      cases m with
      | extract name => simp [Mutation.isExtract] at hm
      | _ => rfl
    rw [extractsClear, hclear, ih hms, Bool.and_true]

theorem kept_attemptAll {ms : List Mutation} (h : d.cursor.Kept care)
    (hfragments : ∀ m ∈ ms, ∀ fragment ∈ m.fragment?, care.Allows fragment)
    (hhead : ∀ m ∈ ms, m.isExtract = true → ∀ fresh, Draft.Kept care fresh (Draft.symbol config.bindingHead))
    (hclear : care = .spacing → d.extractsClear config ms = true) : (d.attemptAll config ms).cursor.Kept care := by
  induction ms generalizing d with
  | nil => exact h
  | cons m ms ih =>
    obtain ⟨hfragment, hfragments⟩ := List.forall_mem_cons.mp hfragments
    obtain ⟨hheadHere, hhead⟩ := List.forall_mem_cons.mp hhead
    have hclear : care = .spacing → m.extractsClear config d.cursor = true ∧
        (d.attempt config m).extractsClear config ms = true := fun hcare => by
      simpa [extractsClear] using hclear hcare
    refine ih (kept_attempt h hfragment hheadHere fun hcare => (hclear hcare).1) hfragments hhead ?_
    exact fun hcare => (hclear hcare).2

theorem kept_read {start : Stamp} {source : Text} {origin : Origin} (h : Document.read start source origin = .ok d)
    (hsource : care.Allows source) : d.cursor.Kept care := by
  rw [Document.read] at h
  cases hread : Tree.read source with
  | error e => simp [hread] at h
  | ok t =>
    simp only [hread, Except.ok.injEq] at h
    subst h
    obtain ⟨hroot, -, hspaced⟩ := Tree.sound_of_read hread
    have hon := Cursor.on_ofTree start (isForm_of_isRoot hroot)
    refine ⟨hon.valid (Tree.made_of_read hread hsource) hroot, fun _ => ?_⟩
    have hplain : (Cursor.ofTree start t).whole.plain.Spaced := by rwa [hon.whole]
    exact (spaced_map _ _).mp hplain

/-- The source of a document reads back exactly if its tree is spaced. -/
theorem reads_back_iff (h : d.cursor.Kept care) :
    (∃ t, Tree.read d.source = .ok t ∧ t.shape = d.cursor.tree.shape) ↔ d.cursor.tree.Spaced := by
  have htree := h.valid.on.tree
  have hmade : d.cursor.tree.Made care.tokens := by
    rw [← made_map (fun _ => ()), ← plain, htree, plain, made_map]
    exact h.valid.made
  have hroot : d.cursor.tree.isRoot = true := by
    rw [← isRoot_map (fun _ => ()), ← plain, htree, plain, isRoot_map]
    exact h.valid.root
  exact Node.reads_back_iff (hmade.mono care.lawful.genuine) hroot

theorem spaced_of_kept (h : d.cursor.Kept .spacing) : d.cursor.tree.Spaced := by
  rw [← spaced_map (fun _ => ()), ← plain, h.valid.on.tree, plain, spaced_map]
  exact h.spaced rfl

/-! ## Runs of mutations -/

/-- Without comments that begin with a hash, and without extraction, a document reads back as it is after any
mutations. -/
theorem attemptAll_reads_back (config : Config) {start : Stamp} {source : Text} {origin : Origin}
    (hread : Document.read start source origin = .ok d) (hsource : hashFree source = true) (ms : List Mutation)
    (hms : ∀ m ∈ ms, m.isExtract = false ∧ ∀ fragment ∈ m.fragment?, hashFree fragment = true) :
    ∃ t, Tree.read (d.attemptAll config ms).source = .ok t ∧ t.shape = (d.attemptAll config ms).cursor.tree.shape := by
  have hkept : (d.attemptAll config ms).cursor.Kept .spacing := by
    refine kept_attemptAll (kept_read hread (Care.allows_of_hashFree hsource _)) (fun m hm fragment hfragment => ?_)
      (fun m hm hextract => ?_) fun _ => extractsClear_of_isExtract fun m hm => (hms m hm).1
    · exact Care.allows_of_hashFree ((hms m hm).2 fragment hfragment) _
    · rw [(hms m hm).1] at hextract
      exact absurd hextract (by simp)
  exact (reads_back_iff hkept).mpr (spaced_of_kept hkept)

theorem exists_of_run (start : Stamp) (source : Text) (ms : List Mutation) (result : Text)
    (h : (Document.read start source).toOption.map (fun d => (d.attemptAll {} ms).source) = some result) :
    ∃ d, Document.read start source = .ok d ∧ (d.attemptAll {} ms).source = result := by
  cases hread : Document.read start source with
  | ok d =>
    rw [hread] at h
    exact ⟨d, rfl, Option.some.inj h⟩
  | error e => simp [hread, Except.toOption] at h

/-- A word in place of the vector at the end of a mark is kept apart from the set behind the mark. -/
theorem attemptAll_reads_back_mark :
    ∃ d, Document.read (Supply.outside 0).first "(@[x]#\x7bb\x7d)".toList = .ok d ∧
      (d.attemptAll {} [.goto [0, 0, 0], .replace "y".toList]).source = "(@y #\x7bb\x7d)".toList ∧
        ∃ t, Tree.read (d.attemptAll {} [.goto [0, 0, 0], .replace "y".toList]).source = .ok t ∧
          t.shape = (d.attemptAll {} [.goto [0, 0, 0], .replace "y".toList]).cursor.tree.shape := by
  obtain ⟨d, hread, hsource⟩ := exists_of_run (Supply.outside 0).first "(@[x]#\x7bb\x7d)".toList
    [.goto [0, 0, 0], .replace "y".toList] "(@y #\x7bb\x7d)".toList (by decide +kernel)
  exact ⟨d, hread, hsource, attemptAll_reads_back {} hread (by decide +kernel) _ (by decide +kernel)⟩

theorem kept_bindingHead (care : Care) (fresh : Stamp) :
    Draft.Kept care fresh (Draft.symbol ({} : Config).bindingHead) :=
  Draft.kept_symbol ⟨'l', ['e', 't'], rfl, by decide, by decide⟩ rfl

/-- With the default settings, a document after any mutations is accepted as the tree that it is exactly if that tree
is spaced. It is spaced if no comment begins with a hash and every name that is extracted stands clear. -/
theorem attemptAll_reads_back_iff {start : Stamp} {source : Text} {origin : Origin}
    (hread : Document.read start source origin = .ok d) (ms : List Mutation) :
    ((∃ t, Tree.read (d.attemptAll {} ms).source = .ok t ∧ t.shape = (d.attemptAll {} ms).cursor.tree.shape) ↔
        (d.attemptAll {} ms).cursor.tree.Spaced) ∧
      (hashFree source = true → (∀ m ∈ ms, ∀ fragment ∈ m.fragment?, hashFree fragment = true) →
        d.extractsClear {} ms = true → (d.attemptAll {} ms).cursor.tree.Spaced) := by
  constructor
  · have hread : d.cursor.Kept .grammar := kept_read hread (Care.grammar_allows source)
    refine reads_back_iff (kept_attemptAll hread ?_ ?_ (by simp))
    · exact fun m _ fragment _ => Care.grammar_allows fragment
    · exact fun m _ _ => kept_bindingHead .grammar
  · intro hsource hfragments hclear
    refine spaced_of_kept (kept_attemptAll (kept_read hread (Care.allows_of_hashFree hsource _)) ?_ ?_ fun _ => hclear)
    · exact fun m hm fragment hfragment => Care.allows_of_hashFree (hfragments m hm fragment hfragment) _
    · exact fun m _ _ => kept_bindingHead .spacing

/-- An extraction in front of another binding, with a blank before that binding. -/
theorem attemptAll_reads_back_iff_extract :
    ∃ d, Document.read (Supply.outside 0).first "(let [a 1 [b c](g y)] z)".toList = .ok d ∧
      (d.attemptAll {} [.goto [0, 1, 3, 1], .extract "x".toList]).source = "(let [a 1 x y [b c](g x)] z)".toList ∧
        ∃ t, Tree.read (d.attemptAll {} [.goto [0, 1, 3, 1], .extract "x".toList]).source = .ok t ∧
          t.shape = (d.attemptAll {} [.goto [0, 1, 3, 1], .extract "x".toList]).cursor.tree.shape := by
  obtain ⟨d, hread, hsource⟩ := exists_of_run (Supply.outside 0).first "(let [a 1 [b c](g y)] z)".toList
    [.goto [0, 1, 3, 1], .extract "x".toList] "(let [a 1 x y [b c](g x)] z)".toList (by decide +kernel)
  have hclear : ((Document.read (Supply.outside 0).first "(let [a 1 [b c](g y)] z)".toList).toOption.all
      (extractsClear {} · [.goto [0, 1, 3, 1], .extract "x".toList])) = true := by decide +kernel
  rw [hread] at hclear
  obtain ⟨hiff, hspaced⟩ := attemptAll_reads_back_iff hread [.goto [0, 1, 3, 1], .extract "x".toList]
  exact ⟨d, hread, hsource, hiff.mpr (hspaced (by decide +kernel) (by decide +kernel) hclear)⟩

theorem not_read_of_isNone {source : Text} (h : (Tree.read source).toOption.isNone = true) (t : Tree) :
    Tree.read source ≠ .ok t := by
  intro hread
  simp [hread, Except.toOption] at h

/-- A child in front of a comment that begins with a hash, and an extracted name behind a number: no gap is left. -/
theorem attemptAll_source_rejected :
    (∃ d, Document.read (Supply.outside 0).first "(#! (\n)".toList = .ok d ∧
        ∀ t, Tree.read (d.attemptAll {} [.navigate .down, .insertChild "a".toList]).source ≠ .ok t) ∧
      ∃ d, Document.read (Supply.outside 0).first "(let [a 1[b c](g y)] z)".toList = .ok d ∧
        ∀ t, Tree.read (d.attemptAll {} [.goto [0, 1, 3, 1], .extract "x".toList]).source ≠ .ok t := by
  obtain ⟨d, hread, hsource⟩ := exists_of_run (Supply.outside 0).first "(#! (\n)".toList
    [.navigate .down, .insertChild "a".toList]
    "(a#! (\n)".toList (by decide +kernel)
  obtain ⟨d', hread', hsource'⟩ := exists_of_run (Supply.outside 0).first "(let [a 1[b c](g y)] z)".toList
    [.goto [0, 1, 3, 1], .extract "x".toList] "(let [a 1x y [b c](g x)] z)".toList (by decide +kernel)
  refine ⟨⟨d, hread, ?_⟩, d', hread', ?_⟩
  · rw [hsource]
    exact not_read_of_isNone (by decide +kernel)
  · rw [hsource']
    exact not_read_of_isNone (by decide +kernel)

end Document

end SexprEdit
