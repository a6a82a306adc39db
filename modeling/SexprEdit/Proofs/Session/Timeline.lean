import SexprEdit.Proofs.Cursor.Identity
import SexprEdit.Proofs.Reader.Excerpt
import SexprEdit.Proofs.Session.Moves
import SexprEdit.Proofs.Session.Request

/-!
# The history is a timeline

The documents that a session can go back and forward to are one list with the present document in it (`Timeline`).
Steps through the history move along the list, a commit puts a document in the place of the present one or at the end
of what came before, and nothing else happens to it (`Session.timeline_undo?`, `timeline_redo?`, `timeline_commit`). A commit
is recorded whenever it changes the source, since documents that are known to be on one tree have one source, and also
where a document with the same source was read anew (`Document.treeChanged_read`).
-/

namespace SexprEdit

/-- Documents in the order in which they were made, and the number of the present one. -/
structure Timeline where
  documents : List Document
  position : Nat

namespace Timeline

def back? (t : Timeline) : Option Timeline :=
  if 0 < t.position then some { t with position := t.position - 1 } else none

def forward? (t : Timeline) : Option Timeline :=
  if t.position + 1 < t.documents.length then some { t with position := t.position + 1 } else none

/-- A document in place of the present one. -/
def amend (t : Timeline) (d : Document) : Timeline :=
  { t with documents := t.documents.set t.position d }

/-- A document after the present one, in place of all that come after it. If there is a limit and more documents than
that would come before the new one, the oldest is dropped. -/
def extend (t : Timeline) (limit : Nat) (d : Document) : Timeline :=
  let documents := t.documents.take (t.position + 1) ++ [d]
  if 0 < limit ∧ limit < t.position + 1 then ⟨documents.tail, t.position⟩ else ⟨documents, t.position + 1⟩

end Timeline

/-! ## Documents on other trees -/

namespace Document

variable {d d' : Document}

theorem treeChanged_of_source_ne (h : d'.source ≠ d.source) : d.treeChanged d' = true := by
  rw [treeChanged, Bool.not_eq_true', Bool.eq_false_iff]
  exact fun hsame => h (Cursor.source_eq_of_sameTree hsame)

/-- A document that was read is on a tree of its own. -/
theorem treeChanged_read {start : Stamp} {source : Text} {origin : Origin}
    (h : Document.read start source origin = .ok d') (hroot : d.cursor.written.label ≠ start) :
    d.treeChanged d' = true := by
  rw [Document.read] at h
  split at h
  · obtain rfl := Except.ok.inj h
    rw [treeChanged, Cursor.sameTree_ofTree hroot, Bool.not_false]
  · cases h

end Document

/-! ## Sessions -/

namespace History

variable {α : Type} {h h' : History α} {a b : α}

theorem exists_past_record (h : History α) (a : α) : ∃ past, (h.record a).past = a :: past := by
  rw [record]
  simp only
  split_ifs with hfull
  · cases hpast : h.past with
    | nil =>
      simp only [hpast, Bool.and_eq_true, decide_eq_true_eq, List.length_singleton] at hfull
      omega
    | cons b past => exact ⟨(b :: past).dropLast, rfl⟩
  · exact ⟨h.past, rfl⟩

theorem limit_undo? (hundo : h.undo? a = some (b, h')) : h'.limit = h.limit := by
  rw [undo?] at hundo
  cases hpast : h.past with
  | nil => simp [hpast] at hundo
  | cons c past =>
    simp only [hpast, Option.some.injEq, Prod.mk.injEq] at hundo
    rw [← hundo.2]

theorem limit_redo? (hredo : h.redo? a = some (b, h')) : h'.limit = h.limit := by
  rw [redo?] at hredo
  cases hfuture : h.future with
  | nil => simp [hfuture] at hredo
  | cons c future =>
    simp only [hfuture, Option.some.injEq, Prod.mk.injEq] at hredo
    rw [← hredo.2]

end History

namespace Session

variable {s s' : Session} {d : Document} {limit : Nat}

/-- All documents of the session, the oldest first. -/
def timeline (s : Session) : Timeline :=
  ⟨s.history.past.reverse ++ s.document :: s.history.future, s.history.past.length⟩

theorem getElem?_timeline (s : Session) : s.timeline.documents[s.timeline.position]? = some s.document := by
  simp [timeline]

theorem timeline_undo? (s : Session) : s.undo?.map timeline = s.timeline.back? := by
  rw [undo?, History.undo?, Timeline.back?, timeline]
  cases s.history.past with
  | nil => rfl
  | cons previous past => simp [timeline, fork]

theorem timeline_redo? (s : Session) : s.redo?.map timeline = s.timeline.forward? := by
  rw [redo?, History.redo?, Timeline.forward?, timeline]
  cases s.history.future with
  | nil => simp
  | cons following future => simp [timeline, fork]

theorem timeline_commit (s : Session) (d : Document) :
    (s.commit d).timeline =
      if s.document.treeChanged d then s.timeline.extend s.history.limit d else s.timeline.amend d := by
  rw [commit]
  split_ifs with hchanged
  · have htake : (s.history.past.reverse ++ s.document :: s.history.future).take (s.history.past.length + 1) =
        (s.document :: s.history.past).reverse := by
      rw [List.reverse_cons, List.append_cons]
      exact List.take_left' (by simp)
    have htail : ((s.document :: s.history.past).reverse ++ [d]).tail =
        (s.document :: s.history.past).dropLast.reverse ++ [d] := by
      rw [List.tail_append_of_ne_nil (by simp), List.tail_reverse]
    rw [timeline, timeline, Timeline.extend, History.record]
    simp only [htake, htail, Bool.and_eq_true, decide_eq_true_eq, List.length_cons]
    split_ifs
    · simp
    · rfl
  · simp [timeline, Timeline.amend]

/-! ## The limit -/

/-- The history keeps to its limit. -/
structure Orderly (limit : Nat) (s : Session) : Prop where
  keeps : s.history.limit = limit
  bound : 0 < limit → s.levels.1 + s.levels.2 ≤ limit

theorem Orderly.commit (h : s.Orderly limit) (d : Document) : (s.commit d).Orderly limit := by
  refine ⟨?_, fun hpos => ?_⟩
  · rw [Session.commit]
    simp only
    split_ifs
    · exact h.keeps
    · exact h.keeps
  · have hbound := h.bound hpos
    rw [levels] at hbound
    rw [levels, Session.commit]
    simp only at hbound ⊢
    split_ifs
    · rw [History.record, h.keeps]
      simp only [Bool.and_eq_true, decide_eq_true_eq, List.length_cons, List.length_nil]
      split_ifs with hfull
      · simp only [List.length_dropLast, List.length_cons]
        omega
      · simp only [List.length_cons]
        omega
    · exact hbound

theorem Orderly.moved {document : Document} {history : History Document} {branch version : Nat} (h : s.Orderly limit)
    (hperm : (document :: history.states).Perm (s.document :: s.history.states)) (hlimit : history.limit = s.history.limit) :
    Orderly limit { s with document, history, branch, version } := by
  refine ⟨hlimit.trans h.keeps, fun hpos => ?_⟩
  have hlength := hperm.length_eq
  have hbound := h.bound hpos
  simp only [History.states, List.length_cons, List.length_append] at hlength
  rw [levels] at hbound ⊢
  simp only at hbound ⊢
  omega

theorem invariant_orderly (limit : Nat) (brings : Document → Prop) : Invariant limit brings (Orderly limit) where
  opened _ := ⟨rfl, fun _ => Nat.zero_le limit⟩
  used h := ⟨h.keeps, h.bound⟩
  commit {s id d} h _ := h.commit d
  undo {s s'} h hundo := by
    obtain ⟨⟨document, history⟩, hstep, rfl⟩ := Option.map_eq_some_iff.mp hundo
    exact h.moved (History.undo?_perm hstep) (History.limit_undo? hstep)
  redo {s s'} h hredo := by
    obtain ⟨⟨document, history⟩, hstep, rfl⟩ := Option.map_eq_some_iff.mp hredo
    exact h.moved (History.redo?_perm hstep) (History.limit_redo? hstep)

end Session

namespace Request

variable {α β : Type} {config : Config} {q : Request α} {s : Session} {d : Document}

/-- The document of a result, if there is one. -/
def made : Except EditError (Document × β) → Option Document
  | .ok (d, _) => some d
  | .error _ => none

/-- The document that a request takes over in place of the given one, if it does. -/
def makes (config : Config) (d : Document) : Request α → Option Document
  | apply m => made (d.apply config m)
  | applyAll ms => made (d.applyAll config none ms)
  | withSession f => made (f d)
  | _ => none

theorem made_eq_some {result : Except EditError (Document × β)} (h : made result = some d) :
    ∃ value, result = .ok (d, value) := by
  cases result with
  | ok pair =>
    obtain rfl := Option.some.inj h
    exact ⟨pair.2, rfl⟩
  | error e => cases h

theorem act_of_makes (now opening : Nat) (disk : Disk) (id : String) (h : q.makes config (s.current id) = some d) :
    ∃ a branch, q.act config now opening disk id (some s) =
      (.ok a, some (({ s.commit d with branch := branch } : Session).touch now), disk) := by
  cases q with
  | apply m =>
    obtain ⟨count, hm⟩ := made_eq_some h
    rw [act, hm]
    exact ⟨_, s.branch, rfl⟩
  | applyAll ms =>
    obtain ⟨count, hms⟩ := made_eq_some h
    rw [act, hms]
    exact ⟨_, s.branch, rfl⟩
  | withSession f =>
    obtain ⟨value, hf⟩ := made_eq_some h
    rw [act, hf]
    exact ⟨_, s.branch + 1, rfl⟩
  | _ => cases h

end Request

/-! ## Registries -/

namespace Registry

variable {config : Config} {r : Registry} {id : String} {s : Session} {d : Document}

/-- The outcome of a step through the history of a session: without such a step it fails and leaves the session as it
was, else the session has the given timeline. -/
def Stepped (id : String) (s : Session) (missing : EditError) (outcome : Except EditError CommitReport × Registry) :
    Option Timeline → Prop
  | none => outcome.1 = .error missing ∧ outcome.2.find? id = some s
  | some t => ∃ report s', outcome.1 = .ok report ∧ outcome.2.find? id = some s' ∧ s'.timeline = t

theorem onSession_of_step {s' : Session} {step : Session → Option Session} (hs : r.find? id = some s)
    (h : step s = some s') (missing : EditError) :
    r.onSession id (fun s => stepResult r.now s missing (step s)) =
      (.ok ((s'.touch r.now).report none), r.put id (s'.touch r.now)) := by
  rw [onSession_of_find? hs, h]
  rfl

theorem stepped_onSession (hs : r.find? id = some s) (missing : EditError) (step : Session → Option Session) :
    Stepped id s missing (r.onSession id fun s => stepResult r.now s missing (step s)) ((step s).map Session.timeline) := by
  cases hstep : step s with
  | none =>
    rw [onSession_of_find? hs, hstep]
    exact ⟨rfl, find?_put hs⟩
  | some s' =>
    rw [onSession_of_step hs hstep]
    exact ⟨_, _, rfl, find?_put hs, rfl⟩

theorem stepped_undo (hs : r.find? id = some s) : Stepped id s .nothingToUndo (r.undo id) s.timeline.back? := by
  rw [← Session.timeline_undo?]
  exact stepped_onSession hs .nothingToUndo Session.undo?

theorem stepped_redo (hs : r.find? id = some s) : Stepped id s .nothingToRedo (r.redo id) s.timeline.forward? := by
  rw [← Session.timeline_redo?]
  exact stepped_onSession hs .nothingToRedo Session.redo?

/-- Going back from a session leads to the first document, and going forward again to the second. -/
def Restores (r : Registry) (id : String) (before after : Document) : Prop :=
  ∃ back forth s s', (r.undo id).1 = .ok back ∧ (r.undo id).2.find? id = some s ∧ s.document = before ∧
    ((r.undo id).2.redo id).1 = .ok forth ∧ ((r.undo id).2.redo id).2.find? id = some s' ∧ s'.document = after

theorem restores_of_past {past : List Document} (hs : r.find? id = some s) (hpast : s.history.past = d :: past) :
    r.Restores id d s.document := by
  obtain ⟨t, hundo, hbefore, hfuture⟩ : ∃ t, s.undo? = some t ∧ t.document = d ∧
      t.history.future = s.document :: s.history.future := by
    rw [Session.undo?, History.undo?, hpast]
    exact ⟨_, rfl, rfl, rfl⟩
  obtain ⟨u, hredo, hafter⟩ : ∃ u, (t.touch r.now).redo? = some u ∧ u.document = s.document := by
    rw [Session.redo?, History.redo?, Session.touch, hfuture]
    exact ⟨_, rfl, rfl⟩
  have hback : r.undo id = _ := onSession_of_step hs hundo .nothingToUndo
  have hfound : (r.undo id).2.find? id = some (t.touch r.now) := by
    rw [hback]
    exact find?_put hs
  have hforth : (r.undo id).2.redo id = _ := onSession_of_step hfound hredo .nothingToRedo
  refine ⟨_, _, _, u.touch (r.undo id).2.now, congrArg Prod.fst hback, hfound, hbefore, congrArg Prod.fst hforth, ?_, hafter⟩
  rw [hforth]
  exact find?_put hfound

theorem restores_of_commit {t : Session} (hs : r.find? id = some t) (hdocument : t.document = d)
    (hhistory : t.history = (s.commit d).history) (hchanged : s.document.treeChanged d = true) :
    r.Restores id s.document d := by
  obtain ⟨past, hpast⟩ := s.history.exists_past_record s.document
  have hkept : t.history.past = s.document :: past := by
    rw [hhistory, Session.commit]
    simp only [hchanged, if_true]
    exact hpast
  rw [← hdocument]
  exact restores_of_past hs hkept

/-- The history of every session is a timeline that keeps to its limit, whatever documents functions bring. A step back
or forward moves along it, and fails exactly if it is at the end. A commit goes to the end of what came before or takes
the place of the present document. One that changes the source is of the first kind, and after it the document from
before, with its cursor, can be gone back to and the new one forward to. -/
theorem Reaches.timeline_linear {now : Nat} (h : Reaches (fun _ => True) { config := config, now := now } r)
    (hs : r.find? id = some s) :
    s.timeline.documents[s.timeline.position]? = some s.document ∧
      (0 < config.historyLimit → s.levels.1 + s.levels.2 ≤ config.historyLimit) ∧
      Stepped id s .nothingToUndo (r.undo id) s.timeline.back? ∧
      Stepped id s .nothingToRedo (r.redo id) s.timeline.forward? ∧
      ∀ (α : Type) (q : Request α) (disk : Disk) (d : Document), q.makes config (s.current id) = some d →
        ∃ a s', (q.run r disk id).1 = .ok a ∧ (q.run r disk id).2.1.find? id = some s' ∧ s'.document = d ∧
          s'.timeline = (if s.document.treeChanged d then s.timeline.extend config.historyLimit d
            else s.timeline.amend d) ∧
          (d.source ≠ s.document.source → s.document.treeChanged d = true) ∧
          (s.document.treeChanged d = true → (q.run r disk id).2.1.Restores id s.document d) := by
  have hevery := h.every (Session.invariant_orderly config.historyLimit _) ⟨rfl, by simp⟩
  have horder := hevery.of_find? hs
  refine ⟨s.getElem?_timeline, horder.bound, stepped_undo hs, stepped_redo hs, fun α q disk d hmakes => ?_⟩
  obtain ⟨hanswer, -, hchange⟩ := q.run_acts r disk id
  obtain ⟨a, branch, hact⟩ := Request.act_of_makes r.now (r.opened.count id) disk id hmakes
  rw [hevery.config, hs, hact] at hanswer hchange
  refine ⟨a, _, hanswer, hchange.here, rfl, ?_, Document.treeChanged_of_source_ne,
    restores_of_commit hchange.here rfl rfl⟩
  exact horder.keeps ▸ s.timeline_commit d

/-- Two documents that were read elsewhere are brought to a session one after the other. With room for one earlier
document, the second drops the one that the session was opened on. -/
theorem timeline_linear_brought :
    ∃ r s s' d, Reaches (fun _ => True) { config := { historyLimit := 1 } } r ∧ r.find? "a" = some s ∧
      s.timeline.documents.map Document.source = ["(a b)".toList, "(a c)".toList] ∧ s.timeline.position = 1 ∧
        Document.read (Supply.outside 1).first "(a d)".toList = .ok d ∧
          ((Request.withSession fun _ => .ok (d, ()) : Request Unit).run r {} "a").2.1.find? "a" = some s' ∧
            s'.timeline = s.timeline.extend 1 d ∧
              ((Request.withSession fun _ => .ok (d, ()) : Request Unit).run r {} "a").2.1.Restores "a" s.document d := by
  have hreach : Reaches (fun _ => True) { config := { historyLimit := 1 } } _ :=
    (Reaches.refl.create "a" "(a b)".toList).withSession "a"
      (fun _ r => ((Document.read (Supply.outside 0).first "(a c)".toList).map (·, ()), r)) (fun _ _ => .refl)
      (fun _ _ _ _ _ => .inr trivial)
  generalize hr : Prod.snd _ = r at hreach
  have hsession : ((r.find? "a").map fun s => (s.timeline.documents.map Document.source, s.timeline.position,
      s.document.source)) = some (["(a b)".toList, "(a c)".toList], 1, "(a c)".toList) := by
    rw [← hr]
    decide +kernel
  have hread : (Document.read (Supply.outside 1).first "(a d)".toList).toOption.map Document.source =
      some "(a d)".toList := by decide +kernel
  obtain ⟨s, hs, hview⟩ := Option.map_eq_some_iff.mp hsession
  obtain ⟨d, hd, hsource⟩ := Option.map_eq_some_iff.mp hread
  simp only [Prod.mk.injEq] at hview
  obtain ⟨hdocuments, hposition, hpresent⟩ := hview
  obtain ⟨-, -, -, -, hcommit⟩ := hreach.timeline_linear hs
  obtain ⟨a, s', -, hs', -, htimeline, hrecorded, hrestores⟩ := hcommit Unit (.withSession fun _ => .ok (d, ())) {} d rfl
  have hchanged := hrecorded (by rw [hsource, hpresent]; decide)
  rw [if_pos hchanged] at htimeline
  exact ⟨r, s, s', d, hreach, hs, hdocuments, hposition, Except.ok_of_toOption hd, hs', htimeline, hrestores hchanged⟩

end Registry

end SexprEdit
