import SexprEdit.Proofs.Session.Request

/-!
# Sessions do not disturb one another

What a request does to one session (`Request.act_visit`) and that it does so in one place of the registry
(`Request.run_acts`) give the rules that callers rely on: a request that fails leaves all content as it was, it fails
for want of a session exactly if there is none, one that succeeds counts as one version or as none, and two requests
about different sessions can be made in either order.
-/

namespace SexprEdit

namespace Request

open Registry

variable {α β : Type} {r : Registry} {disk : Disk} {id : String} {config : Config} {now opening : Nat} {q : Request α}
  {s : Session} {step : Nat}

/-! ## One session -/

theorem opens_or_close_or_visits (q : Request α) : q.opens = true ∨ q = close ∨ q.visits = true := by
  cases q <;> simp [opens, visits]

/-- What comes of an operation on an open session: if it failed, the content is as before, and otherwise the version
went up by a number of steps. -/
structure Outcome (step : Nat) (s : Session) (answer : Except EditError β) (s' : Session) : Prop where
  failed : ∀ e, answer = .error e → s'.content = s.content
  version : ∀ b, answer = .ok b → s'.version = s.version + step

theorem outcome_ok {s' : Session} (b : β) (h : s'.version = s.version + step) : Outcome step s (.ok b) s' :=
  ⟨fun e he => (by cases he), fun _ _ => h⟩

theorem outcome_error {s' : Session} (e : EditError) (h : s'.content = s.content) :
    Outcome step s (.error e : Except EditError β) s' :=
  ⟨fun _ _ => h, fun b hb => (by cases hb)⟩

theorem Outcome.map {answer : Except EditError β} {s' : Session} (f : β → α) (h : Outcome step s answer s') :
    Outcome step s (answer.map f) s' := by
  cases answer with
  | ok b => exact outcome_ok (f b) (h.version b rfl)
  | error e => exact outcome_error e (h.failed e rfl)

theorem outcome_used (answer : Except EditError β) (now : Nat) : Outcome 0 s answer (s.touch now) :=
  ⟨fun _ _ => rfl, fun _ _ => rfl⟩

theorem outcome_takenOver (result : Except EditError (Document × β)) :
    Outcome 1 s (takenOver now s result).1 (takenOver now s result).2 := by
  cases result with
  | ok pair => exact outcome_ok _ rfl
  | error e => exact outcome_error e rfl

theorem outcome_commitResult (result : Except EditError (Document × Option Nat)) :
    Outcome 1 s (commitResult now s result).1 (commitResult now s result).2 := by
  cases result with
  | ok pair => exact outcome_ok _ rfl
  | error e => exact outcome_error e rfl

theorem outcome_stepResult (missing : EditError) {moved : Option Session}
    (hmoved : ∀ s' ∈ moved, s'.version = s.version + 1) :
    Outcome 1 s (stepResult now s missing moved).1 (stepResult now s missing moved).2 := by
  cases moved with
  | some s' => exact outcome_ok _ (hmoved s' rfl)
  | none => exact outcome_error missing rfl

theorem version_undo? : ∀ s' ∈ s.undo?, s'.version = s.version + 1 := by
  intro s' hs'
  obtain ⟨pair, -, rfl⟩ := Option.map_eq_some_iff.mp hs'
  rfl

theorem version_redo? : ∀ s' ∈ s.redo?, s'.version = s.version + 1 := by
  intro s' hs'
  obtain ⟨pair, -, rfl⟩ := Option.map_eq_some_iff.mp hs'
  rfl

theorem known_commitResult {result : Except EditError (Document × Option Nat)} (h : Known result) :
    Known (commitResult now s result).1 := by
  cases result with
  | ok pair => exact known_ok _
  | error e => exact fun id hid => h id (congrArg Except.error (Except.error.inj hid))

theorem known_stepResult {missing : EditError} (h : ∀ id, missing ≠ .unknownSession id) (moved : Option Session) :
    Known (stepResult now s missing moved).1 := by
  cases moved with
  | some s' => exact known_ok _
  | none => exact fun id hid => h id (Except.error.inj hid)

/-- A request about an open session leaves it open. It does not fail for want of it, unless the function of the one who
asks says so. -/
theorem act_visit (config : Config) (now opening : Nat) (disk : Disk) (id : String) (hq : q.visits = true) (s : Session) :
    ∃ s', (q.act config now opening disk id (some s)).2.1 = some s' ∧
      Outcome q.versionStep s (q.act config now opening disk id (some s)).1 s' ∧
        ((q.act config now opening disk id (some s)).1 = .error (.unknownSession id) →
          q.callerError? (s.current id) = some (.unknownSession id)) := by
  have hknown : ∀ {γ : Type} {x : Except EditError γ} {f : γ → Answer α} {e : EditError}, Known x →
      x.map f = .error (.unknownSession id) → q.callerError? (s.current id) = some e := by
    intro γ x f e hx h
    cases x with
    | ok a => cases h
    | error e => exact absurd (congrArg Except.error (Except.error.inj h)) (hx id)
  cases q with
  | create _ | createFromFile _ | close => simp [visits] at hq
  | apply m =>
    exact ⟨_, rfl, (outcome_commitResult _).map _, hknown (known_commitResult ((s.current id).known_apply config m))⟩
  | applyAll ms =>
    exact ⟨_, rfl, (outcome_commitResult _).map _,
      hknown (known_commitResult ((s.current id).known_applyAll config none ms))⟩
  | withSession f =>
    refine ⟨_, rfl, (outcome_takenOver _).map _, fun h => ?_⟩
    rw [act] at h
    cases hf : f (s.current id) with
    | ok pair => rw [hf] at h; cases h
    | error e =>
      rw [hf] at h
      simp only [callerError?, hf]
      exact congrArg some (Except.error.inj h)
  | find query options =>
    have hquery := known_ofQuery query options
    cases hm : Matcher.ofQuery query options with
    | ok m =>
      simp only [act, hm]
      exact ⟨_, rfl, outcome_used _ now, fun h => by cases h⟩
    | error e =>
      simp only [act, hm]
      refine ⟨_, rfl, outcome_error e rfl, fun h => ?_⟩
      exact absurd (hm.trans (congrArg Except.error (Except.error.inj h))) (hquery id)
  | info => exact ⟨_, rfl, outcome_used _ now, fun h => by cases h⟩
  | source => exact ⟨_, rfl, outcome_used _ now, fun h => by cases h⟩
  | save target =>
    simp only [act]
    cases saveTarget target s.document.origin with
    | none => exact ⟨_, rfl, outcome_used _ now, fun h => by cases h⟩
    | some path =>
      simp only
      cases disk.writeText path s.document.source with
      | ok written => exact ⟨_, rfl, outcome_used _ now, fun h => by cases h⟩
      | error e => exact ⟨_, rfl, outcome_used _ now, fun h => by cases h⟩
  | undo =>
    exact ⟨_, rfl, (outcome_stepResult _ version_undo?).map _, hknown (known_stepResult (by simp) _)⟩
  | redo =>
    exact ⟨_, rfl, (outcome_stepResult _ version_redo?).map _, hknown (known_stepResult (by simp) _)⟩

theorem act_none (hq : q.opens = false) :
    q.act config now opening disk id none = (.error (.unknownSession id), none, disk) := by
  cases q with
  | create _ | createFromFile _ => simp [opens] at hq
  | _ => rfl

theorem act_some (hq : q.opens = true) (s : Session) :
    q.act config now opening disk id (some s) = (.error (.duplicateId id), some s, disk) := by
  cases q with
  | create _ | createFromFile _ => rfl
  | _ => simp [opens] at hq

theorem act_open (hq : q.opens = true) :
    (q.act config now opening disk id none).1 ≠ .error (.duplicateId id) ∧
      ∀ e, (q.act config now opening disk id none).1 = .error e → (q.act config now opening disk id none).2.1 = none := by
  have hopened : ∀ {document : Except EditError Document}, document ≠ .error (.duplicateId id) →
      (opened (α := α) config now opening disk document).1 ≠ .error (.duplicateId id) ∧
        ∀ e, (opened (α := α) config now opening disk document).1 = .error e →
          (opened (α := α) config now opening disk document).2.1 = none := by
    intro document hdocument
    cases document with
    | ok d => exact ⟨fun h => (by cases h), fun e h => (by cases h)⟩
    | error e => exact ⟨fun h => hdocument (congrArg Except.error (Except.error.inj h)), fun _ _ => rfl⟩
  have hread : ∀ (start : Stamp) (text : Text) (origin : Origin),
      Document.read start text origin ≠ .error (.duplicateId id) := by
    intro start text origin
    rw [Document.read]
    split <;> simp
  cases q with
  | create text => exact hopened (hread _ text .text)
  | createFromFile path =>
    refine hopened ?_
    cases disk.readText path with
    | ok text => exact hread _ text _
    | error e => simp
  | _ => simp [opens] at hq

/-- A request that fails leaves the content of its session as it was. -/
theorem act_failed {x : Option Session} {e : EditError} (h : (q.act config now opening disk id x).1 = .error e) :
    (q.act config now opening disk id x).2.1.map Session.content = x.map Session.content := by
  cases x with
  | none =>
    by_cases hq : q.opens = true
    · rw [(act_open hq).2 e h]
    · rw [act_none (Bool.eq_false_iff.mpr hq)]
  | some s =>
    obtain hq | rfl | hq := q.opens_or_close_or_visits
    · rw [act_some hq]
    · cases h
    · obtain ⟨s', hs', houtcome, -⟩ := act_visit config now opening disk id hq s
      rw [hs', Option.map_some, houtcome.failed e h]
      rfl

theorem act_disk {x : Option Session}
    (h : ∀ target, q = save target → ∀ s ∈ x, saveTarget target s.document.origin = none) :
    (q.act config now opening disk id x).2.2 = disk := by
  have hopened : ∀ document, (opened (α := α) config now opening disk document).2.2 = disk := by
    intro document
    cases document <;> rfl
  cases x with
  | none =>
    cases q with
    | create _ | createFromFile _ => exact hopened _
    | _ => rfl
  | some s =>
    cases q with
    | save target =>
      simp only [act, h target rfl s rfl]
    | _ => rfl

/-! ## The registry -/

theorem inMemory_save (h : q.InMemory r id) :
    ∀ target, q = save target → ∀ s ∈ r.find? id, saveTarget target s.document.origin = none := by
  rintro target rfl s hs
  exact h s hs

/-- It makes no difference which of two requests comes first: each gets the same answer, and in the end the files and
the sessions are the same. -/
structure Commutes (q : Request α) (id : String) (q' : Request β) (id' : String) (r : Registry) (disk : Disk) : Prop where
  first : (q.run (q'.run r disk id').2.1 (q'.run r disk id').2.2 id).1 = (q.run r disk id).1
  second : (q'.run (q.run r disk id).2.1 (q.run r disk id).2.2 id').1 = (q'.run r disk id').1
  files : (q'.run (q.run r disk id).2.1 (q.run r disk id).2.2 id').2.2 =
    (q.run (q'.run r disk id').2.1 (q'.run r disk id').2.2 id).2.2
  same : Same (q'.run (q.run r disk id).2.1 (q.run r disk id).2.2 id').2.1
    (q.run (q'.run r disk id').2.1 (q'.run r disk id').2.2 id).2.1

theorem commutes_of_ne {q' : Request β} {id' : String} (hr : r.Named) (hne : id' ≠ id) (hq : q.InMemory r id)
    (hq' : q'.InMemory r id') : q.Commutes id q' id' r disk := by
  obtain ⟨hanswer, hdisk, hchange⟩ := q.run_acts r disk id
  obtain ⟨hanswer', hdisk', hchange'⟩ := q'.run_acts r disk id'
  rw [act_disk (inMemory_save hq)] at hdisk
  rw [act_disk (inMemory_save hq')] at hdisk'
  -- each request finds the session of its name, the settings and the time as if it came first
  obtain ⟨hthen, hthenDisk, hthenChange⟩ := q'.run_acts (q.run r disk id).2.1 disk id'
  obtain ⟨hback, hbackDisk, hbackChange⟩ := q.run_acts (q'.run r disk id').2.1 disk id
  rw [hchange.config, hchange.now, hchange.openedOthers id' hne, hchange.others id' hne] at hthen hthenDisk hthenChange
  rw [hchange'.config, hchange'.now, hchange'.openedOthers id hne.symm,
    hchange'.others id hne.symm] at hback hbackDisk hbackChange
  rw [act_disk (inMemory_save hq')] at hthenDisk
  rw [act_disk (inMemory_save hq)] at hbackDisk
  constructor
  · rw [hdisk', hback, hanswer]
  · rw [hdisk, hthen, hanswer']
  · rw [hdisk, hdisk', hthenDisk, hbackDisk]
  · rw [hdisk, hdisk']
    exact hchange.comm hne hr hthenChange hchange' hbackChange

/-- The rules of requests about sessions, in every registry. One that fails leaves the document, the history and the
version of every session and the names as they were. One about an open session fails for want of it exactly if it is not
open, the errors of a function that was brought along aside, and one that opens a session is refused exactly if the name
is taken, whatever the source. All other sessions stay as they are. One that succeeds raises the version of its session
by one if it takes over a document, and not at all if it only looks. Names stay apart, and two requests about different
sessions that use no files can be made in either order. -/
theorem run_isolated (q : Request α) (r : Registry) (disk : Disk) (id : String) :
    (∀ e, (q.run r disk id).1 = .error e →
        ∀ other, ((q.run r disk id).2.1.find? other).map Session.content = (r.find? other).map Session.content) ∧
      (q.opens = false → (∀ s, r.find? id = some s → q.callerError? (s.current id) ≠ some (.unknownSession id)) →
        ((q.run r disk id).1 = .error (.unknownSession id) ↔ r.find? id = none)) ∧
      (q.opens = true → ((q.run r disk id).1 = .error (.duplicateId id) ↔ ∃ s, r.find? id = some s)) ∧
      (∀ other, other ≠ id → (q.run r disk id).2.1.find? other = r.find? other) ∧
      (∀ a, (q.run r disk id).1 = .ok a → q.visits = true → ∃ s s', r.find? id = some s ∧
        (q.run r disk id).2.1.find? id = some s' ∧ s'.version = s.version + q.versionStep) ∧
      (r.Named → (q.run r disk id).2.1.Named) ∧
      ∀ (β : Type) (q' : Request β) (id' : String), r.Named → id' ≠ id → q.InMemory r id → q'.InMemory r id' →
        q.Commutes id q' id' r disk := by
  obtain ⟨hanswer, -, hchange⟩ := q.run_acts r disk id
  refine ⟨fun e he other => ?_, fun hq hcaller => ?_, fun hq => ?_, hchange.others, fun a ha hq => ?_,
    hchange.named, fun β q' id' hr hne hmemory hmemory' => commutes_of_ne hr hne hmemory hmemory'⟩
  · rw [hanswer] at he
    by_cases hother : other = id
    · rw [hother, hchange.here]
      exact act_failed he
    · rw [hchange.others other hother]
  · rw [hanswer]
    cases hs : r.find? id with
    | none => simp [act_none hq]
    | some s =>
      refine ⟨fun h => ?_, fun h => (by cases h)⟩
      obtain hopens | rfl | hvisits := q.opens_or_close_or_visits
      · cases hq.symm.trans hopens
      · cases h
      · obtain ⟨-, -, -, hunknown⟩ := act_visit r.config r.now (r.opened.count id) disk id hvisits s
        exact absurd (hunknown h) (hcaller s hs)
  · rw [hanswer]
    cases hs : r.find? id with
    | none => simpa using (act_open hq).1
    | some s => simp [act_some hq]
  · rw [hanswer] at ha
    cases hs : r.find? id with
    | none =>
      have hopens : q.opens = false := by cases q <;> simp [opens, visits] at hq ⊢
      rw [hs, act_none hopens] at ha
      cases ha
    | some s =>
      rw [hs] at ha hchange
      obtain ⟨s', hs', houtcome, -⟩ := act_visit r.config r.now (r.opened.count id) disk id hq s
      exact ⟨s, s', rfl, hchange.here.trans hs', houtcome.version a ha⟩

/-- A batch whose second mutation fails, and an edit of another session. -/
theorem run_isolated_batch :
    ∃ (r : Registry) (e : EditError) (s : Session), r.Named ∧ r.find? "a" = some s ∧
      ((applyAll [.navigate .down, .navigate .left] : Request Unit).run r {} "a").1 = .error e ∧
        (((applyAll [.navigate .down, .navigate .left] : Request Unit).run r {} "a").2.1.find? "a").map Session.content =
            some s.content ∧
          (applyAll [.navigate .down, .navigate .left] : Request Unit).Commutes "a"
            (apply (.replace "d".toList) : Request Unit) "b" r {} := by
  obtain ⟨r, hr⟩ : ∃ r, r = ((create "(c)".toList : Request Unit).run
      ((create "(a b)".toList : Request Unit).run {} {} "a").2.1 {} "b").2.1 := ⟨_, rfl⟩
  have hnamed : r.Named := by
    rw [hr, Named]
    decide +kernel
  have hopen : (r.find? "a").isSome = true := by
    rw [hr]
    decide +kernel
  have hfails : ((applyAll [.navigate .down, .navigate .left] : Request Unit).run r {} "a").1.toOption.isSome = false := by
    rw [hr]
    decide +kernel
  obtain ⟨s, hs⟩ := Option.isSome_iff_exists.mp hopen
  obtain ⟨hfailed, -, -, -, -, -, hcommutes⟩ :=
    run_isolated (applyAll [.navigate .down, .navigate .left] : Request Unit) r {} "a"
  cases hanswer : ((applyAll [.navigate .down, .navigate .left] : Request Unit).run r {} "a").1 with
  | ok a => simp [hanswer, Except.toOption] at hfails
  | error e =>
    refine ⟨r, e, s, hnamed, hs, hanswer, ?_, hcommutes Unit _ "b" hnamed (by decide) trivial trivial⟩
    rw [hfailed e hanswer, hs]
    rfl

end Request

end SexprEdit
