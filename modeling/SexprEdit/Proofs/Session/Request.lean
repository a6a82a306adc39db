import Mathlib.Data.List.Nodup
import Mathlib.Data.List.Perm.Basic
import SexprEdit.Proofs.Edit.Errors
import SexprEdit.Proofs.Session.Reachable

/-!
# Requests

What a registry can be asked about one session is a request, and what comes back is an answer. A request acts on the
session of its name and on nothing else: `Request.act` says what it makes of that session, given only the settings, the
time and the disk, and `Request.run_acts` that a registry does just that in the one place. So a request that fails
changes no content, sessions do not disturb one another, and requests about different sessions can change places.
-/

namespace SexprEdit

/-- What can be asked about one session. The function of `withSession` is brought by the one who asks, and leaves the
registry alone. -/
inductive Request (α : Type) where
  | create (source : Text)
  | createFromFile (path : String)
  | apply (m : Mutation)
  | applyAll (ms : List Mutation)
  | withSession (f : Document → Except EditError (Document × α))
  | find (query : Text) (options : MatchOptions)
  | info
  | source
  | save (target : Option String)
  | undo
  | redo
  | close

/-- What a request that does not fail gives. -/
inductive Answer (α : Type) where
  | done
  | committed (report : CommitReport)
  | value (value : α)
  | found (found : List Match)
  | shown (info : SessionInfo)
  | text (text : Text)
  | saved (saved : Saved)

/-- What a session holds, apart from when it was used. -/
def Session.content (s : Session) : Document × History Document × Nat :=
  (s.document, s.history, s.version)

namespace Request

variable {α β : Type}

/-- The outcome of an operation on a registry as that of a request. -/
def told (answer : β → Answer α) (disk : Disk) (outcome : Except EditError β × Registry) :
    Except EditError (Answer α) × Registry × Disk :=
  (outcome.1.map answer, outcome.2, disk)

/-- Ask a registry about the session of a name. -/
def run (r : Registry) (disk : Disk) (id : String) : Request α → Except EditError (Answer α) × Registry × Disk
  | create text => told (fun _ => .done) disk (r.create id text)
  | createFromFile path => told (fun _ => .done) disk (r.createFromFile disk id path)
  | apply m => told .committed disk (r.apply id m)
  | applyAll ms => told .committed disk (r.applyAll id ms)
  | withSession f => told .value disk (r.withSession id fun d during => (f d, during))
  | find query options => told .found disk (r.find id query options)
  | info => told .shown disk (r.info id)
  | source => told .text disk (r.source id)
  | save target =>
    let outcome := r.save disk id target
    (outcome.1.map .saved, outcome.2)
  | undo => told .committed disk (r.undo id)
  | redo => told .committed disk (r.redo id)
  | close => told (fun _ => .done) disk (r.close id)

def opens : Request α → Bool
  | create _ | createFromFile _ => true
  | _ => false

/-- Whether a request is about a session that is open and stays so. -/
def visits : Request α → Bool
  | create _ | createFromFile _ | close => false
  | _ => true

/-- By how much a request that succeeds raises the version of its session. -/
def versionStep : Request α → Nat
  | apply _ | applyAll _ | withSession _ | undo | redo => 1
  | _ => 0

/-- The error that the function of the one who asks gives for a document, if it fails there. -/
def callerError? (d : Document) : Request α → Option EditError
  | withSession f =>
    match f d with
    | .ok _ => none
    | .error e => some e
  | _ => none

/-- A request that neither reads nor writes a file. -/
def InMemory (r : Registry) (id : String) : Request α → Prop
  | createFromFile _ => False
  | save target => ∀ s, r.find? id = some s → Registry.saveTarget target s.document.origin = none
  | _ => True

/-! ## What a request makes of its session -/

/-- A session on a document that was just read. -/
def opened (config : Config) (now opening : Nat) (disk : Disk) :
    Except EditError Document → Except EditError (Answer α) × Option Session × Disk
  | .error e => (.error e, none, disk)
  | .ok document => (.ok .done, some (.ofDocument document opening config.historyLimit now), disk)

def kept (answer : β → Answer α) (disk : Disk) (outcome : Except EditError β × Session) :
    Except EditError (Answer α) × Option Session × Disk :=
  (outcome.1.map answer, some outcome.2, disk)

/-- Take over the document that a function gives. -/
def takenOver (now : Nat) (s : Session) : Except EditError (Document × β) → Except EditError β × Session
  | .ok (document, value) => (.ok value, (s.commit document).fork.touch now)
  | .error e => (.error e, s.touch now)

/-- What a request makes of the session of its name, if there is one, after the given number of earlier ones. -/
def act (config : Config) (now opening : Nat) (disk : Disk) (id : String) :
    Request α → Option Session → Except EditError (Answer α) × Option Session × Disk
  | create text, none => opened config now opening disk (Document.read (Supply.session id opening 0).first text)
  | createFromFile path, none =>
    opened config now opening disk <|
      match disk.readText path with
      | .ok text => Document.read (Supply.session id opening 0).first text (.file path)
      | .error e => .error (.file e)
  | _, none => (.error (.unknownSession id), none, disk)
  | create _, some s | createFromFile _, some s => (.error (.duplicateId id), some s, disk)
  | apply m, some s => kept .committed disk (Registry.commitResult now s ((s.current id).apply config m))
  | applyAll ms, some s => kept .committed disk (Registry.commitResult now s ((s.current id).applyAll config none ms))
  | withSession f, some s => kept .value disk (takenOver now s (f (s.current id)))
  | find query options, some s =>
    kept .found disk <|
      match Matcher.ofQuery query options with
      | .ok m => (.ok (m.findAll s.document.cursor.tree), s.touch now)
      | .error e => (.error e, s)
  | info, some s => kept .shown disk (.ok (s.info config id), s.touch now)
  | source, some s => kept .text disk (.ok s.document.source, s.touch now)
  | save target, some s =>
    match Registry.saveTarget target s.document.origin with
    | none => (.ok (.saved (.text s.document.source)), some (s.touch now), disk)
    | some path =>
      match disk.writeText path s.document.source with
      | .ok disk => (.ok (.saved (.written path)), some (s.touch now), disk)
      | .error e => (.error (.file e), some (s.touch now), disk)
  | undo, some s => kept .committed disk (Registry.stepResult now s .nothingToUndo s.undo?)
  | redo, some s => kept .committed disk (Registry.stepResult now s .nothingToRedo s.redo?)
  | close, some _ => (.ok .done, none, disk)

end Request

/-! ## One place of a registry -/

namespace Registry

variable {r r' r'' : Registry} {id other : String} {s old : Session} {after : Option Session}

def Named (r : Registry) : Prop :=
  (r.sessions.map Prod.fst).Nodup

/-- How many sessions of a name are opened: one, if none was open before and one is after. -/
def openings (before after : Option Session) : Nat :=
  if before.isNone && after.isSome then 1 else 0

/-- The second registry comes from the first by what becomes of the session of one name. -/
structure Changes (r : Registry) (id : String) (after : Option Session) (r' : Registry) : Prop where
  config : r'.config = r.config
  now : r'.now = r.now
  here : r'.find? id = after
  opened : r'.opened.count id = r.opened.count id + openings (r.find? id) after
  others : ∀ other, other ≠ id → r'.find? other = r.find? other
  openedOthers : ∀ other, other ≠ id → r'.opened.count other = r.opened.count other
  named : r.Named → r'.Named

theorem Changes.refl (h : r.find? id = after) : r.Changes id after r := by
  refine ⟨rfl, rfl, h, ?_, fun _ _ => rfl, fun _ _ => rfl, fun h => h⟩
  rw [h]
  cases after <;> rfl

theorem Changes.trans (hs : r.find? id = some old) (h : r.Changes id (some s) r') (h' : r'.Changes id after r'') :
    r.Changes id after r'' := by
  refine ⟨h'.config.trans h.config, h'.now.trans h.now, h'.here, ?_,
    fun other hne => (h'.others other hne).trans (h.others other hne),
    fun other hne => (h'.openedOthers other hne).trans (h.openedOthers other hne), fun hr => h'.named (h.named hr)⟩
  rw [h'.opened, h.opened, h.here, hs]
  rfl

theorem lookup_cons_eq (name : String) (s : Session) (entries : List (String × Session)) :
    ((name, s) :: entries).lookup other = if other = name then some s else entries.lookup other := by
  by_cases hname : other = name
  · simp [hname]
  · rw [List.lookup_cons, beq_false_of_ne hname, if_neg hname]

theorem find?_put_of_ne (hne : other ≠ id) : (r.put id s).find? other = r.find? other :=
  lookup_replace_of_ne hne s

theorem changes_put (hs : r.find? id = some old) : r.Changes id (some s) (r.put id s) := by
  refine ⟨rfl, rfl, find?_put hs, by rw [hs]; rfl, fun other hne => find?_put_of_ne hne, fun _ _ => rfl, fun hr => ?_⟩
  have hnames : (r.put id s).sessions.map Prod.fst = r.sessions.map Prod.fst := by
    rw [put, List.map_map]
    refine List.map_congr_left fun entry _ => ?_
    by_cases hname : entry.1 = id <;> simp [hname]
  rwa [Named, hnames]

theorem changes_append (hs : r.find? id = none) :
    r.Changes id (some s) { r with sessions := r.sessions ++ [(id, s)], opened := id :: r.opened } := by
  have hopened : (id :: r.opened).count id = r.opened.count id + openings (r.find? id) (some s) := by
    rw [List.count_cons_self, hs]
    rfl
  have hs : r.sessions.lookup id = none := hs
  refine ⟨rfl, rfl, ?_, hopened, fun other hne => ?_, fun other hne => List.count_cons_of_ne hne.symm, fun hr => ?_⟩
  · simp [Registry.find?, List.lookup_append, hs]
  · rw [Registry.find?, List.lookup_append, lookup_cons_eq, if_neg hne]
    exact Option.or_none
  · have hnew : id ∉ r.sessions.map Prod.fst := by
      intro hmem
      obtain ⟨entry, hentry, rfl⟩ := List.mem_map.mp hmem
      exact absurd rfl (bne_iff_ne.mp (List.lookup_eq_none_iff.mp hs entry hentry))
    rw [Named, List.map_append]
    exact List.nodup_append'.mpr ⟨hr, List.nodup_singleton _, by simpa using hnew⟩

theorem changes_filter : r.Changes id none { r with sessions := r.sessions.filter (·.1 != id) } := by
  refine ⟨rfl, rfl, ?_, ?_, fun other hne => ?_, fun _ _ => rfl, fun hr => hr.sublist (List.filter_sublist.map _)⟩
  · refine List.lookup_eq_none_iff.mpr fun entry hentry => ?_
    rw [bne_comm]
    exact (List.mem_filter.mp hentry).2
  · rw [openings, Option.isSome_none, Bool.and_false]
    rfl
  · rw [Registry.find?, Registry.find?]
    induction r.sessions with
    | nil => rfl
    | cons entry entries ih =>
      obtain ⟨name, t⟩ := entry
      rw [List.filter_cons, lookup_cons_eq, ← ih]
      by_cases hname : name = id
      · rw [if_neg (by simp [hname]), if_neg (hname ▸ hne)]
      · rw [if_pos (bne_iff_ne.mpr hname), lookup_cons_eq]

theorem Named.mem_iff (h : r.Named) : (id, s) ∈ r.sessions ↔ r.find? id = some s := by
  constructor
  · intro hmem
    obtain ⟨front, back, hsessions⟩ := List.append_of_mem hmem
    refine List.lookup_eq_some_iff.mpr ⟨front, back, hsessions, fun entry hentry => ?_⟩
    rw [Named, hsessions, List.map_append, List.map_cons] at h
    have hne := (List.nodup_append.mp h).2.2 entry.1 (List.mem_map_of_mem hentry) id List.mem_cons_self
    exact bne_iff_ne.mpr hne.symm
  · intro hfind
    obtain ⟨front, back, hsessions, -⟩ := List.lookup_eq_some_iff.mp hfind
    rw [hsessions]
    simp

/-- Two registries with the same sessions under the same names, in whatever order. -/
structure Same (r r' : Registry) : Prop where
  config : r.config = r'.config
  now : r.now = r'.now
  find : ∀ id, r.find? id = r'.find? id
  sessions : r.sessions.Perm r'.sessions
  opened : r.opened.Perm r'.opened

theorem Named.perm (h : r.Named) (h' : r'.Named) (hfind : ∀ id, r.find? id = r'.find? id) :
    r.sessions.Perm r'.sessions := by
  refine (List.perm_ext_iff_of_nodup (List.Nodup.of_map _ h) (List.Nodup.of_map _ h')).mpr fun entry => ?_
  obtain ⟨id, s⟩ := entry
  rw [h.mem_iff, h'.mem_iff, hfind]

/-- Changes in two places can change places. -/
theorem Changes.comm {one two one' two' : Registry} {id' : String} {x y : Option Session} (hne : id' ≠ id)
    (hr : r.Named) (h₁ : r.Changes id x one) (h₂ : one.Changes id' y two) (h₁' : r.Changes id' y one')
    (h₂' : one'.Changes id x two') : Same two two' := by
  have hfind : ∀ name, two.find? name = two'.find? name := by
    intro name
    by_cases hid : name = id
    · subst hid
      rw [h₂.others _ hne.symm, h₁.here, h₂'.here]
    · by_cases hid' : name = id'
      · subst hid'
        rw [h₂.here, h₂'.others _ hne, h₁'.here]
      · rw [h₂.others _ hid', h₁.others _ hid, h₂'.others _ hid, h₁'.others _ hid']
  have hopened : ∀ name, two.opened.count name = two'.opened.count name := by
    intro name
    by_cases hid : name = id
    · subst hid
      rw [h₂.openedOthers _ hne.symm, h₁.opened, h₂'.opened, h₁'.openedOthers _ hne.symm, h₁'.others _ hne.symm]
    · by_cases hid' : name = id'
      · subst hid'
        rw [h₂.opened, h₁.openedOthers _ hne, h₁.others _ hne, h₂'.openedOthers _ hne, h₁'.opened]
      · rw [h₂.openedOthers _ hid', h₁.openedOthers _ hid, h₂'.openedOthers _ hid, h₁'.openedOthers _ hid']
  refine ⟨?_, ?_, hfind, (h₂.named (h₁.named hr)).perm (h₂'.named (h₁'.named hr)) hfind,
    List.perm_iff_count.mpr hopened⟩
  · rw [h₂.config, h₁.config, h₂'.config, h₁'.config]
  · rw [h₂.now, h₁.now, h₂'.now, h₁'.now]

end Registry

/-! ## Requests in a registry -/

namespace Request

open Registry

variable {α : Type} {r : Registry} {disk : Disk} {id : String} {config : Config} {now : Nat} {q : Request α}

theorem run_onSession {β : Type} {f : Session → Except EditError β × Session} {answer : β → Answer α} {s : Session}
    (hs : r.find? id = some s) :
    (told answer disk (r.onSession id f)).1 = (kept answer disk (f s)).1 ∧
      (told answer disk (r.onSession id f)).2.2 = (kept answer disk (f s)).2.2 ∧
        r.Changes id (kept answer disk (f s)).2.1 (told answer disk (r.onSession id f)).2.1 := by
  rw [onSession_of_find? hs]
  exact ⟨rfl, rfl, changes_put hs⟩

theorem run_openOn {source : Stamp → Except EditError Document} {document : Except EditError Document}
    (hs : r.find? id = none) (hsource : source (Supply.session id (r.opened.count id) 0).first = document) :
    (told (α := α) (fun _ => .done) disk (r.openOn id source)).1 =
        (opened r.config r.now (r.opened.count id) disk document).1 ∧
      (told (α := α) (fun _ => .done) disk (r.openOn id source)).2.2 =
          (opened (α := α) r.config r.now (r.opened.count id) disk document).2.2 ∧
        r.Changes id (opened (α := α) r.config r.now (r.opened.count id) disk document).2.1
          (told (α := α) (fun _ => .done) disk (r.openOn id source)).2.1 := by
  cases document with
  | error e =>
    simp only [Registry.openOn, hs, hsource]
    exact ⟨rfl, rfl, .refl hs⟩
  | ok document =>
    simp only [Registry.openOn, hs, hsource]
    exact ⟨rfl, rfl, changes_append hs⟩

/-- A registry does to the session of a name what the request does to one session, and nothing else. -/
theorem run_acts (q : Request α) (r : Registry) (disk : Disk) (id : String) :
    (q.run r disk id).1 = (q.act r.config r.now (r.opened.count id) disk id (r.find? id)).1 ∧
      (q.run r disk id).2.2 = (q.act r.config r.now (r.opened.count id) disk id (r.find? id)).2.2 ∧
        r.Changes id (q.act r.config r.now (r.opened.count id) disk id (r.find? id)).2.1 (q.run r disk id).2.1 := by
  cases hs : r.find? id with
  | none =>
    cases q with
    | create text => exact run_openOn hs rfl
    | createFromFile path => exact run_openOn hs rfl
    | apply _ | applyAll _ | find _ _ | info | source | undo | redo =>
      simp only [run, Registry.apply, Registry.applyAll, Registry.find, Registry.info, Registry.source, Registry.undo,
        Registry.redo, onSession, hs]
      exact ⟨rfl, rfl, .refl hs⟩
    | withSession f =>
      simp only [run, Registry.withSession, hs]
      exact ⟨rfl, rfl, .refl hs⟩
    | save target =>
      simp only [run, Registry.save, hs]
      exact ⟨rfl, rfl, .refl hs⟩
    | close =>
      simp only [run, Registry.close, hs]
      exact ⟨rfl, rfl, .refl hs⟩
  | some s =>
    cases q with
    | create _ | createFromFile _ =>
      simp only [run, Registry.create, Registry.createFromFile, Registry.openOn, hs]
      exact ⟨rfl, rfl, .refl hs⟩
    | apply _ | applyAll _ | find _ _ | info | source | undo | redo => exact run_onSession hs
    | withSession f =>
      have hheld : r.Changes id (some { s with held := true }) (r.put id { s with held := true }) := changes_put hs
      simp only [run, Registry.withSession, hs]
      cases hf : f (s.current id) with
      | error e => exact ⟨by rw [act, hf]; rfl, rfl, by rw [act, hf]; exact .trans hs hheld (changes_put hheld.here)⟩
      | ok result => exact ⟨by rw [act, hf]; rfl, rfl, by rw [act, hf]; exact .trans hs hheld (changes_put hheld.here)⟩
    | save target =>
      simp only [run, Registry.save, hs, act]
      cases saveTarget target s.document.origin with
      | none => exact ⟨rfl, rfl, changes_put hs⟩
      | some path =>
        simp only
        cases disk.writeText path s.document.source with
        | ok written => exact ⟨rfl, rfl, changes_put hs⟩
        | error e => exact ⟨rfl, rfl, changes_put hs⟩
    | close =>
      simp only [run, Registry.close, hs]
      exact ⟨rfl, rfl, changes_filter⟩

end Request

end SexprEdit
