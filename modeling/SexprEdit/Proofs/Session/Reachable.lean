import SexprEdit.Proofs.Cursor.Identity
import SexprEdit.Proofs.Edit.Runs
import SexprEdit.Session.Registry

/-!
# Registries that can be reached

A registry changes by operations on its sessions, and each of them opens a session, commits a document, takes a step
through the history, or changes when the session was used. A property of sessions that survives these four
(`Session.Invariant`) holds of all sessions that are ever open (`Registry.Reaches.every`). Functions may bring documents
from elsewhere, and what is known of those is a parameter.
-/

namespace SexprEdit

/-! ## Histories -/

namespace History

variable {α : Type} {h h' : History α} {a b : α}

def states (h : History α) : List α :=
  h.past ++ h.future

theorem mem_states_record (hb : b ∈ (h.record a).states) : b = a ∨ b ∈ h.states := by
  have hpast : b ∈ a :: h.past := by
    rw [states, record, List.append_nil] at hb
    simp only at hb
    split_ifs at hb
    · exact List.dropLast_subset _ hb
    · exact hb
  rcases List.mem_cons.mp hpast with rfl | hpast
  · exact .inl rfl
  · exact .inr (List.mem_append_left _ hpast)

theorem undo?_perm (hundo : h.undo? a = some (b, h')) : (b :: h'.states).Perm (a :: h.states) := by
  rw [undo?] at hundo
  cases hpast : h.past with
  | nil => simp [hpast] at hundo
  | cons c past =>
    simp only [hpast, Option.some.injEq, Prod.mk.injEq] at hundo
    obtain ⟨rfl, rfl⟩ := hundo
    rw [states, states, hpast, ← List.cons_append]
    exact List.perm_middle

theorem redo?_perm (hredo : h.redo? a = some (b, h')) : (b :: h'.states).Perm (a :: h.states) := by
  rw [redo?] at hredo
  cases hfuture : h.future with
  | nil => simp [hfuture] at hredo
  | cons c future =>
    simp only [hfuture, Option.some.injEq, Prod.mk.injEq] at hredo
    obtain ⟨rfl, rfl⟩ := hredo
    rw [states, states, hfuture, List.cons_append]
    exact (List.Perm.swap _ _ _).trans (List.perm_middle.symm.cons _)

end History

/-! ## Documents that mutations make -/

namespace Document

/-- The cursor of the document is in order. -/
def Steady (d : Document) : Prop :=
  d.cursor.Steady

/-- The second document is made from the first by mutations, with any settings. -/
inductive Derives (d : Document) : Document → Prop where
  | refl : Derives d d
  | apply {e e' : Document} {config : Config} {m : Mutation} {count : Option Nat} (h : Derives d e)
      (hm : e.apply config m = .ok (e', count)) : Derives d e'

variable {d d' e : Document}

theorem Derives.applyAll {config : Config} {ms : List Mutation} {count total : Option Nat} (h : Derives d e)
    (hms : e.applyAll config count ms = .ok (d', total)) : Derives d d' := by
  induction ms generalizing e count with
  | nil =>
    obtain ⟨rfl, -⟩ := Prod.mk.inj (Except.ok.inj hms)
    exact h
  | cons m ms ih =>
    rw [Document.applyAll] at hms
    obtain ⟨⟨next, replaced⟩, hm, hms⟩ := Except.exists_ok_of_bind hms
    exact ih (h.apply hm) hms

theorem Derives.edits {strict : Prop} (h : Derives d d') (hd : d.cursor.InOrder strict) :
    Cursor.Edits strict d.cursor d'.cursor := by
  induction h with
  | refl => exact .refl
  | apply _ hm ih =>
    obtain ⟨applied, happlied, hresult⟩ := Except.exists_ok_of_bind hm
    obtain ⟨rfl, -⟩ := Prod.mk.inj (Except.ok.inj hresult)
    exact ih.trans (Mutation.edits (ih.runs.inOrder hd) happlied)

theorem Derives.runs (h : Derives d d') (hd : d.Steady) : Cursor.Runs False d.cursor d'.cursor :=
  (h.edits ⟨hd, False.elim⟩).runs

end Document

/-! ## Sessions -/

namespace Session

/-- A property of sessions that survives whatever happens to one, given the limit of its history and what is known of
documents that are brought from elsewhere. -/
structure Invariant (limit : Nat) (brings : Document → Prop) (P : Session → Prop) : Prop where
  opened : ∀ {start source origin d opening now}, Document.read start source origin = .ok d →
    P (ofDocument d opening limit now)
  used : ∀ {s branch now held}, P s → P { s with branch := branch, lastUsed := now, held := held }
  commit : ∀ {s id d}, P s → (s.current id).Derives d ∨ brings d → P (s.commit d)
  undo : ∀ {s s'}, P s → s.undo? = some s' → P s'
  redo : ∀ {s s'}, P s → s.redo? = some s' → P s'

/-- The present document and all others that can be reached through the history. -/
def documents (s : Session) : List Document :=
  s.document :: s.history.states

/-- The cursors of all documents are in order. -/
def Steady (s : Session) : Prop :=
  ∀ d ∈ s.documents, d.Steady

theorem Steady.current {s : Session} (h : s.Steady) (id : String) : (s.current id).Steady :=
  Cursor.Steady.drawing (h s.document List.mem_cons_self) _

theorem invariant_steady (limit : Nat) : Invariant limit Document.Steady Steady where
  opened hread d hd := by
    obtain rfl := List.mem_singleton.mp hd
    have horder : d.cursor.InOrder False := Document.inOrder_read hread
    exact horder.steady
  used h := h
  commit {s id d} h hd e he := by
    rcases List.mem_cons.mp he with rfl | he
    · rcases hd with hderives | hd
      · exact (hderives.runs (h.current id)).steady (h.current id)
      · exact hd
    · rw [Session.commit] at he
      simp only at he
      split_ifs at he
      · exact h e (List.mem_cons.mpr (History.mem_states_record he))
      · exact h e (List.mem_cons_of_mem _ he)
  undo {s s'} h hundo d hd := by
    obtain ⟨⟨document, history⟩, hstep, rfl⟩ := Option.map_eq_some_iff.mp hundo
    exact h d ((History.undo?_perm hstep).mem_iff.mp hd)
  redo {s s'} h hredo d hd := by
    obtain ⟨⟨document, history⟩, hstep, rfl⟩ := Option.map_eq_some_iff.mp hredo
    exact h d ((History.redo?_perm hstep).mem_iff.mp hd)

theorem current_eq_document {s : Session} {id : String}
    (h : s.document.cursor.fresh.supply = .session id s.opening s.branch) : s.current id = s.document := by
  rw [current, Cursor.drawing_eq_self h]

/-- The session goes on from what it made of its document. -/
theorem current_commit {s : Session} {id : String} {d : Document} (hs : (s.current id).Steady)
    (h : (s.current id).Derives d) : (s.commit d).current id = d := by
  have hsupply : d.cursor.fresh.supply = .session id s.opening s.branch := (h.runs hs).supply_eq
  exact current_eq_document hsupply

theorem current_ofDocument {id : String} {opening : Nat} {source : Text} {origin : Origin} {d : Document}
    (h : Document.read (Supply.session id opening 0).first source origin = .ok d) (limit now : Nat) :
    (ofDocument d opening limit now).current id = d := by
  have hsupply : d.cursor.fresh.supply = .session id opening 0 := by
    rw [Document.read] at h
    split at h
    · obtain rfl := Except.ok.inj h
      exact Cursor.supply_stamp _ _
    · cases h
  exact current_eq_document hsupply

end Session

/-! ## Registries -/

section Entries

variable {α β : Type} [BEq α] [LawfulBEq α] {k other : α} {entries : List (α × β)}

theorem lookup_replace_self (h : (entries.lookup k).isSome = true) (v : β) :
    (entries.map fun entry => if entry.1 == k then (k, v) else entry).lookup k = some v := by
  induction entries with
  | nil => simp at h
  | cons entry entries ih =>
    obtain ⟨name, old⟩ := entry
    rw [List.map_cons]
    by_cases hname : name = k
    · rw [if_pos (beq_iff_eq.mpr hname), List.lookup_cons_self]
    · have hne : (k == name) = false := beq_eq_false_iff_ne.mpr (Ne.symm hname)
      rw [List.lookup_cons, hne] at h
      rw [if_neg (mt beq_iff_eq.mp hname), List.lookup_cons, hne]
      exact ih h

theorem lookup_replace_of_ne (hne : other ≠ k) (v : β) :
    (entries.map fun entry => if entry.1 == k then (k, v) else entry).lookup other = entries.lookup other := by
  induction entries with
  | nil => rfl
  | cons entry entries ih =>
    obtain ⟨name, old⟩ := entry
    rw [List.map_cons]
    by_cases hname : name = k
    · subst hname
      have hother : (other == name) = false := beq_eq_false_iff_ne.mpr hne
      rw [if_pos (beq_self_eq_true name), List.lookup_cons, List.lookup_cons, hother, ih]
    · rw [if_neg (mt beq_iff_eq.mp hname), List.lookup_cons, List.lookup_cons, ih]

end Entries

namespace Registry

variable {config : Config} {brings : Document → Prop} {r r₀ r₁ : Registry} {id : String} {s old : Session}
  {P : Session → Prop} {α : Type}

/-- The registry has the given settings, and all open sessions have a property. -/
structure Every (config : Config) (P : Session → Prop) (r : Registry) : Prop where
  config : r.config = config
  sessions : ∀ entry ∈ r.sessions, P entry.2

theorem Every.of_find? (h : r.Every config P) (hs : r.find? id = some s) : P s := by
  obtain ⟨front, back, hsessions, -⟩ := List.lookup_eq_some_iff.mp hs
  exact h.sessions (id, s) (by rw [hsessions]; simp)

theorem Every.put (h : r.Every config P) (hs : P s) : (r.put id s).Every config P := by
  refine ⟨h.config, fun entry hentry => ?_⟩
  obtain ⟨other, hother, rfl⟩ := List.mem_map.mp hentry
  split_ifs
  · exact hs
  · exact h.sessions other hother

theorem Every.filter (h : r.Every config P) (keep : String × Session → Bool) :
    Every config P { r with sessions := r.sessions.filter keep } :=
  ⟨h.config, fun entry hentry => h.sessions entry (List.mem_filter.mp hentry).1⟩

theorem find?_put (hs : r.find? id = some old) : (r.put id s).find? id = some s :=
  lookup_replace_self (Option.isSome_of_eq_some hs) s

theorem onSession_of_find? {f : Session → Except EditError α × Session} (hs : r.find? id = some s) :
    r.onSession id f = ((f s).1, r.put id (f s).2) := by
  rw [onSession, hs]

theorem Every.onSession {f : Session → Except EditError α × Session} (h : r.Every config P) (hf : ∀ s, P s → P (f s).2) :
    (r.onSession id f).2.Every config P := by
  cases hs : r.find? id with
  | none => rwa [Registry.onSession, hs]
  | some s =>
    rw [onSession_of_find? hs]
    exact h.put (hf s (h.of_find? hs))

/-- The second registry is reached from the first by operations, which may fail, and by time passing. What a function
does inside `withSession` is to apply operations to the registry, and to make a document by mutations of the given one or
to bring one of which `brings` holds. -/
inductive Reaches (brings : Document → Prop) : Registry → Registry → Prop where
  | refl {r : Registry} : Reaches brings r r
  | wait {r₀ r : Registry} (h : Reaches brings r₀ r) (now : Nat) : Reaches brings r₀ { r with now := now }
  | create {r₀ r : Registry} (h : Reaches brings r₀ r) (id : String) (source : Text) :
      Reaches brings r₀ (r.create id source).2
  | createFromFile {r₀ r : Registry} (h : Reaches brings r₀ r) (disk : Disk) (id path : String) :
      Reaches brings r₀ (r.createFromFile disk id path).2
  | withSession {α : Type} {r₀ r : Registry} (h : Reaches brings r₀ r) (id : String)
      (f : Document → Registry → Except EditError (Document × α) × Registry)
      (hf : ∀ d r₁, Reaches brings r₁ (f d r₁).2)
      (hdocument : ∀ d r₁ d' value, (f d r₁).1 = .ok (d', value) → d.Derives d' ∨ brings d') :
      Reaches brings r₀ (r.withSession id f).2
  | apply {r₀ r : Registry} (h : Reaches brings r₀ r) (id : String) (m : Mutation) : Reaches brings r₀ (r.apply id m).2
  | applyAll {r₀ r : Registry} (h : Reaches brings r₀ r) (id : String) (ms : List Mutation) :
      Reaches brings r₀ (r.applyAll id ms).2
  | rename {r₀ r : Registry} (h : Reaches brings r₀ r) (id : String) (query replacement : Text) (options : MatchOptions) :
      Reaches brings r₀ (r.rename id query replacement options).2
  | find {r₀ r : Registry} (h : Reaches brings r₀ r) (id : String) (query : Text) (options : MatchOptions) :
      Reaches brings r₀ (r.find id query options).2
  | info {r₀ r : Registry} (h : Reaches brings r₀ r) (id : String) : Reaches brings r₀ (r.info id).2
  | source {r₀ r : Registry} (h : Reaches brings r₀ r) (id : String) : Reaches brings r₀ (r.source id).2
  | save {r₀ r : Registry} (h : Reaches brings r₀ r) (disk : Disk) (id : String) (target : Option String) :
      Reaches brings r₀ (r.save disk id target).2.1
  | undo {r₀ r : Registry} (h : Reaches brings r₀ r) (id : String) : Reaches brings r₀ (r.undo id).2
  | redo {r₀ r : Registry} (h : Reaches brings r₀ r) (id : String) : Reaches brings r₀ (r.redo id).2
  | close {r₀ r : Registry} (h : Reaches brings r₀ r) (id : String) : Reaches brings r₀ (r.close id).2
  | evictIdle {r₀ r : Registry} (h : Reaches brings r₀ r) : Reaches brings r₀ r.evictIdle.2

/-! ## Invariants of sessions -/

theorem Every.openOn {source : Stamp → Except EditError Document} (hP : Session.Invariant config.historyLimit brings P)
    (h : r.Every config P)
    (hsource : ∀ start d, source start = .ok d → ∃ text origin, Document.read start text origin = .ok d) :
    (r.openOn id source).2.Every config P := by
  unfold Registry.openOn
  cases r.find? id with
  | some s => exact h
  | none =>
    cases hopened : source (Supply.session id (r.opened.count id) 0).first with
    | error e => simpa only [hopened] using h
    | ok d =>
      obtain ⟨text, origin, hread⟩ := hsource _ d hopened
      simp only [hopened]
      refine ⟨h.config, List.forall_mem_append.mpr ⟨h.sessions, List.forall_mem_singleton.mpr ?_⟩⟩
      rw [h.config]
      exact hP.opened hread

theorem commitResult_invariant {limit : Nat} (hP : Session.Invariant limit brings P) (hs : P s) {now : Nat}
    {result : Except EditError (Document × Option Nat)}
    (hresult : ∀ d count, result = .ok (d, count) → (s.current id).Derives d) : P (commitResult now s result).2 := by
  cases result with
  | error e => exact hP.used hs
  | ok pair =>
    obtain ⟨d, count⟩ := pair
    exact hP.used (hP.commit hs (.inl (hresult d count rfl)))

theorem stepResult_invariant {limit : Nat} (hP : Session.Invariant limit brings P) (hs : P s) {now : Nat}
    {missing : EditError} {moved : Option Session} (hmoved : ∀ s' ∈ moved, P s') :
    P (stepResult now s missing moved).2 := by
  cases moved with
  | none => exact hs
  | some s' => exact hP.used (hmoved s' rfl)

theorem Every.apply (hP : Session.Invariant config.historyLimit brings P) (h : r.Every config P) (m : Mutation) :
    (r.apply id m).2.Every config P :=
  h.onSession fun _ hs => commitResult_invariant hP hs fun _ _ hm => Document.Derives.refl.apply hm

/-- What survives everything that happens to one session holds of all sessions that are open at any time. -/
theorem Reaches.every (hP : Session.Invariant config.historyLimit brings P) (h : Reaches brings r₀ r)
    (h₀ : r₀.Every config P) : r.Every config P := by
  induction h with
  | refl => exact h₀
  | wait _ now ih => exact ⟨(ih h₀).config, (ih h₀).sessions⟩
  | create _ id source ih => exact (ih h₀).openOn hP fun start d hread => ⟨_, _, hread⟩
  | createFromFile _ disk id path ih =>
    refine (ih h₀).openOn hP fun start d hread => ?_
    split at hread
    · exact ⟨_, _, hread⟩
    · simp at hread
  | @withSession α r₀ r _ id f _ hdocument ih ihf =>
    have hr := ih h₀
    rw [Registry.withSession]
    cases hs : r.find? id with
    | none => exact hr
    | some s =>
      have hP' := hr.of_find? hs
      have hafter := ihf (s.current id) (r.put id { s with held := true }) (hr.put (hP.used hP'))
      simp only
      split
      · next document value after hf =>
        rw [hf] at hafter
        exact hafter.put (hP.used (hP.used (hP.commit hP' (hdocument _ _ _ _ (by rw [hf])))))
      · next e after hf =>
        rw [hf] at hafter
        exact hafter.put (hP.used hP')
  | apply _ id m ih => exact (ih h₀).apply hP m
  | applyAll _ id ms ih =>
    exact (ih h₀).onSession fun s hs => commitResult_invariant hP hs fun d count hms => .applyAll .refl hms
  | rename _ id query replacement options ih => exact (ih h₀).apply hP _
  | find _ id query options ih =>
    refine (ih h₀).onSession fun s hs => ?_
    split
    · exact hP.used hs
    · exact hs
  | info _ id ih => exact (ih h₀).onSession fun s hs => hP.used hs
  | source _ id ih => exact (ih h₀).onSession fun s hs => hP.used hs
  | @save r₀ r _ disk id target ih =>
    have hr := ih h₀
    rw [Registry.save]
    cases hs : r.find? id with
    | none => exact hr
    | some s =>
      have hput : (r.put id (s.touch r.now)).Every config P := hr.put (hP.used (hr.of_find? hs))
      simp only
      split
      · exact hput
      · split <;> exact hput
  | undo _ id ih => exact (ih h₀).onSession fun s hs => stepResult_invariant hP hs fun s' hundo => hP.undo hs hundo
  | redo _ id ih => exact (ih h₀).onSession fun s hs => stepResult_invariant hP hs fun s' hredo => hP.redo hs hredo
  | @close r₀ r _ id ih =>
    rw [Registry.close]
    split
    · exact ih h₀
    · exact (ih h₀).filter _
  | @evictIdle r₀ r _ ih =>
    rw [Registry.evictIdle]
    split
    · exact ih h₀
    · exact (ih h₀).filter _

end Registry

end SexprEdit
