import Mathlib.Data.List.Forall2
import SexprEdit.Proofs.Session.Timeline

/-!
# Batches

A batch runs its mutations on one document after the other and commits the last one; single mutations commit each of
them. The documents are the same (`applyEach_of_ok`), and so is the first error (`applyEach_of_error`). What differs is
what is recorded: the batch is one step of the history, and if one of its mutations fails it is none.
-/

namespace SexprEdit

/-- Whether a mutation counts what it replaced. -/
def Mutation.counts : Mutation → Bool
  | rename _ _ _ => true
  | _ => false

theorem Mutation.isSome_replacements {config : Config} {c : Cursor} {applied : Applied} {m : Mutation}
    (h : m.apply config c = .ok applied) : applied.replacements.isSome = m.counts := by
  cases m with
  | rename query replacement options =>
    obtain ⟨matcher, -, h⟩ := Except.exists_ok_of_bind h
    obtain ⟨⟨cursor, count⟩, -, h⟩ := Except.exists_ok_of_bind h
    obtain rfl := Except.ok.inj h
    rfl
  | extract name | thread style =>
    obtain ⟨cursor, -, h⟩ := Except.exists_ok_of_bind h
    obtain rfl := Except.ok.inj h
    rfl
  | findNext query options =>
    obtain ⟨matcher, -, h⟩ := Except.exists_ok_of_bind h
    obtain ⟨cursor, -, h⟩ := Except.exists_ok_of_bind h
    obtain rfl := Except.ok.inj h
    rfl
  | navigate _ | goto _ | remove => rw [replacements_moved h]; rfl
  | replace _ | insertBefore _ | insertAfter _ | insertChild _ | appendChild _ =>
    obtain ⟨form, -, h⟩ := Except.exists_ok_of_bind h
    rw [replacements_moved h]
    rfl

namespace Document

/-- The sum of some counts of replacements; none if all are missing. -/
def total (counts : List (Option Nat)) : Option Nat :=
  if counts.any Option.isSome then some ((counts.map (·.getD 0)).foldr (· + ·) 0) else none

theorem addCounts_assoc (a b c : Option Nat) : addCounts (addCounts a b) c = addCounts a (addCounts b c) := by
  cases a <;> cases b <;> cases c <;> simp [addCounts, Nat.add_assoc]

@[simp] theorem addCounts_none (a : Option Nat) : addCounts a none = a := by
  cases a <;> rfl

theorem total_cons (a : Option Nat) (counts : List (Option Nat)) : total (a :: counts) = addCounts a (total counts) := by
  have hzero : counts.any Option.isSome = false → (counts.map (·.getD 0)).foldr (· + ·) 0 = 0 := by
    intro hnone
    induction counts with
    | nil => rfl
    | cons b counts ih =>
      obtain ⟨hb, hcounts⟩ := Bool.or_eq_false_iff.mp hnone
      obtain rfl : b = none := by simpa using hb
      simpa using ih hcounts
  cases hany : counts.any Option.isSome with
  | true => cases a <;> simp [total, hany, addCounts]
  | false => cases a <;> simp [total, hany, addCounts, hzero hany]

end Document

namespace Registry

variable {config : Config} {r : Registry} {id : String} {s : Session} {d : Document} {ms : List Mutation}
  {count replaced : Option Nat} {e : EditError}

/-- Apply mutations to a session one after the other, each with a commit of its own, up to the first that fails. -/
def applyEach (r : Registry) (id : String) : List Mutation → Except EditError (List CommitReport) × Registry
  | [] => (.ok [], r)
  | m :: ms =>
    match r.apply id m with
    | (.ok report, next) => ((next.applyEach id ms).1.map (report :: ·), (next.applyEach id ms).2)
    | (.error e, next) => (.error e, next)

theorem applyEach_cons_of_ok {m : Mutation} (hs : r.find? id = some s)
    (hm : (s.current id).apply r.config m = .ok (d, replaced)) :
    ∃ report next, r.apply id m = (.ok report, next) ∧ report.replacements = replaced ∧ next.config = r.config ∧
      next.find? id = some ((s.commit d).touch r.now) := by
  refine ⟨((s.commit d).touch r.now).report replaced, r.put id ((s.commit d).touch r.now), ?_, rfl, rfl, find?_put hs⟩
  rw [Registry.apply, onSession_of_find? hs, hm]
  rfl

theorem current_of_apply {m : Mutation} (now : Nat) (hsteady : (s.current id).Steady)
    (hm : (s.current id).apply config m = .ok (d, replaced)) :
    ((s.commit d).touch now).current id = d ∧ d.Steady := by
  have hderives : (s.current id).Derives d := Document.Derives.refl.apply hm
  have hcurrent : (s.commit d).current id = d := Session.current_commit hsteady hderives
  exact ⟨hcurrent, (hderives.runs hsteady).steady hsteady⟩

/-- Mutations that all succeed on the documents succeed one by one, and lead to the same document. -/
theorem applyEach_of_ok (hs : r.find? id = some s) (hsteady : (s.current id).Steady)
    (h : (s.current id).applyAll r.config count ms = .ok (d, replaced)) :
    ∃ reports t, (r.applyEach id ms).1 = .ok reports ∧ (r.applyEach id ms).2.find? id = some t ∧ t.current id = d ∧
      (t.document = d ∨ ms = [] ∧ t = s) ∧
      replaced = Document.addCounts count (Document.total (reports.map CommitReport.replacements)) ∧
        List.Forall₂ (fun m report => report.replacements.isSome = m.counts) ms reports := by
  induction ms generalizing r s count with
  | nil =>
    obtain ⟨rfl, rfl⟩ := Prod.mk.inj (Except.ok.inj h)
    exact ⟨[], s, rfl, hs, rfl, .inr ⟨rfl, rfl⟩, (Document.addCounts_none count).symm, .nil⟩
  | cons m ms ih =>
    rw [Document.applyAll] at h
    obtain ⟨⟨next, one⟩, hm, h⟩ := Except.exists_ok_of_bind h
    obtain ⟨report, r', happly, hreport, hconfig, hfind⟩ := applyEach_cons_of_ok hs hm
    obtain ⟨hcurrent, hnext⟩ := current_of_apply r.now hsteady hm
    have hcounts : one.isSome = m.counts := by
      obtain ⟨applied, happlied, hresult⟩ := Except.exists_ok_of_bind hm
      obtain ⟨-, rfl⟩ := Prod.mk.inj (Except.ok.inj hresult)
      exact Mutation.isSome_replacements happlied
    obtain ⟨reports, t, hreports, ht, hdocument, hmade, htotal, hall⟩ :=
      ih hfind (hcurrent ▸ hnext) (show Document.applyAll _ _ (Document.addCounts count one) ms = _ by
        rw [hcurrent, hconfig]; exact h)
    have hlast : t.document = d := by
      rcases hmade with hmade | ⟨-, rfl⟩
      · exact hmade
      · exact hcurrent.symm.trans hdocument
    simp only [applyEach, happly]
    refine ⟨report :: reports, t, by rw [hreports]; rfl, ht, hdocument, .inl hlast, ?_,
      .cons (by rw [hreport, hcounts]) hall⟩
    rw [htotal, Document.addCounts_assoc, List.map_cons, Document.total_cons, hreport]

theorem applyEach_of_error (hs : r.find? id = some s) (hsteady : (s.current id).Steady)
    (h : (s.current id).applyAll r.config count ms = .error e) : (r.applyEach id ms).1 = .error e := by
  induction ms generalizing r s count with
  | nil => cases h
  | cons m ms ih =>
    rw [Document.applyAll] at h
    cases hm : (s.current id).apply r.config m with
    | error e' =>
      rw [hm] at h
      obtain rfl : e' = e := Except.error.inj h
      have happly : r.apply id m = (.error e', r.put id (s.touch r.now)) := by
        rw [Registry.apply, onSession_of_find? hs, hm]
        rfl
      rw [applyEach, happly]
    | ok result =>
      obtain ⟨next, one⟩ := result
      rw [hm] at h
      obtain ⟨report, r', happly, -, hconfig, hfind⟩ := applyEach_cons_of_ok hs hm
      obtain ⟨hcurrent, hnext⟩ := current_of_apply r.now hsteady hm
      have hrest := ih hfind (hcurrent ▸ hnext) (show Document.applyAll _ _ (Document.addCounts count one) ms = _ by
        rw [hcurrent, hconfig]; exact h)
      simp only [applyEach, happly]
      rw [hrest]
      rfl

theorem applyAll_of_ok (hs : r.find? id = some s) (h : (s.current id).applyAll r.config none ms = .ok (d, replaced)) :
    r.applyAll id ms = (.ok (((s.commit d).touch r.now).report replaced), r.put id ((s.commit d).touch r.now)) := by
  rw [applyAll, onSession_of_find? hs, h]
  rfl

theorem applyAll_of_error (hs : r.find? id = some s) (h : (s.current id).applyAll r.config none ms = .error e) :
    r.applyAll id ms = (.error e, r.put id (s.touch r.now)) := by
  rw [applyAll, onSession_of_find? hs, h]
  rfl

/-- What a batch that succeeds does to its session `s`, which becomes `s'`, compared with its mutations one by one, which
give the reports `reports` and lead to `t`. An empty batch takes over the document as operations get it. -/
structure ActsAsSteps (id : String) (ms : List Mutation) (s s' t : Session) (report : CommitReport)
    (reports : List CommitReport) : Prop where
  document : s'.document = if ms = [] then t.current id else t.document
  counted : List.Forall₂ (fun m report => report.replacements.isSome = m.counts) ms reports
  replacements : report.replacements = Document.total (reports.map CommitReport.replacements)
  missing : report.replacements = none ↔ ∀ m ∈ ms, m.counts = false
  reported : report.version = s'.version ∧ report.location = s'.document.cursor.location
  version : s'.version = s.version + 1
  history : s'.history = s.history ∨ s'.history = s.history.record s.document
  levels : s'.levels.1 ≤ s.levels.1 + 1

theorem total_eq_none_iff {reports : List CommitReport}
    (h : List.Forall₂ (fun m report => report.replacements.isSome = m.counts) ms reports) :
    Document.total (reports.map CommitReport.replacements) = none ↔ ∀ m ∈ ms, m.counts = false := by
  have hany : (reports.map CommitReport.replacements).any Option.isSome = ms.any Mutation.counts := by
    induction h with
    | nil => rfl
    | cons hm _ ih => rw [List.map_cons, List.any_cons, List.any_cons, hm, ih]
  rw [Document.total, hany]
  cases hms : ms.any Mutation.counts with
  | true => simpa using hms
  | false => simpa using hms

theorem levels_commit_le (s : Session) (d : Document) : (s.commit d).levels.1 ≤ s.levels.1 + 1 := by
  rw [Session.levels, Session.levels, Session.commit]
  simp only
  split_ifs
  · rw [History.record]
    simp only
    split_ifs
    · simp
    · simp
  · exact Nat.le_succ _

/-- A batch equals its mutations one by one and is one step of the history: it succeeds exactly if they all do, on the
same document and with the sum of their counts. It is one commit, of which at most one step is recorded, and if it changed
the source then one step back gives the document from before. If one of the mutations fails, the batch fails with its
error and leaves the session as it was. -/
theorem Reaches.batch_as_steps {now : Nat} (h : Reaches Document.Steady { config := config, now := now } r)
    (hs : r.find? id = some s) (ms : List Mutation) :
    ((∃ report, (r.applyAll id ms).1 = .ok report) ↔ ∃ reports, (r.applyEach id ms).1 = .ok reports) ∧
      (∀ report, (r.applyAll id ms).1 = .ok report →
        ∃ reports s' t, (r.applyEach id ms).1 = .ok reports ∧ (r.applyEach id ms).2.find? id = some t ∧
          (r.applyAll id ms).2.find? id = some s' ∧ ActsAsSteps id ms s s' t report reports ∧
            (s'.document.source ≠ s.document.source → (r.applyAll id ms).2.Restores id s.document s'.document)) ∧
      ∀ e, (r.applyEach id ms).1 = .error e →
        (r.applyAll id ms).1 = .error e ∧ (r.applyAll id ms).2.find? id = some (s.touch r.now) := by
  have hsteady : (s.current id).Steady :=
    ((h.every (Session.invariant_steady config.historyLimit) ⟨rfl, by simp⟩).of_find? hs).current id
  cases hms : (s.current id).applyAll r.config none ms with
  | error e =>
    have heach := applyEach_of_error hs hsteady hms
    have hall := applyAll_of_error hs hms
    rw [heach, hall]
    refine ⟨by simp, by simp, fun e' he => ?_⟩
    obtain rfl := Except.error.inj he
    exact ⟨rfl, find?_put hs⟩
  | ok result =>
    obtain ⟨d, replaced⟩ := result
    obtain ⟨reports, t, hreports, ht, hcurrent, hmade, htotal, hcounted⟩ := applyEach_of_ok hs hsteady hms
    have hall := applyAll_of_ok hs hms
    have hfind : (r.applyAll id ms).2.find? id = some ((s.commit d).touch r.now) := by
      rw [hall]
      exact find?_put hs
    have htotal : replaced = Document.total (reports.map CommitReport.replacements) := htotal
    refine ⟨by rw [hall, hreports]; simp, fun report hreport => ?_, fun e he => ?_⟩
    · rw [hall] at hreport
      obtain rfl := Except.ok.inj hreport
      refine ⟨reports, _, t, hreports, ht, hfind,
        ⟨?_, hcounted, htotal, ?_, ⟨rfl, rfl⟩, rfl, ?_, levels_commit_le s d⟩, fun hsource => ?_⟩
      · show d = _
        split_ifs with hempty
        · exact hcurrent.symm
        · rcases hmade with hmade | ⟨hnil, -⟩
          · exact hmade.symm
          · exact absurd hnil hempty
      · rw [← total_eq_none_iff hcounted, ← htotal]
        rfl
      · show (if _ then _ else _) = _ ∨ (if _ then _ else _) = _
        split_ifs
        · exact .inr rfl
        · exact .inl rfl
      · exact restores_of_commit hfind rfl rfl (Document.treeChanged_of_source_ne hsource)
    · rw [hreports] at he
      cases he

/-- An edit two lists deep and two renamings in one batch: one step back takes all of it back. -/
theorem batch_as_steps_renamings :
    ∃ r s s' t report reports, Reaches Document.Steady {} r ∧ r.find? "a" = some s ∧
      s.document.source = "((a d) a)".toList ∧
      (r.applyAll "a" [.goto [0, 0, 0], .replace "b".toList, .rename "a".toList "c".toList {},
        .rename "d".toList "e".toList {}]).1 = .ok report ∧ report.replacements = some 2 ∧
      (r.applyAll "a" [.goto [0, 0, 0], .replace "b".toList, .rename "a".toList "c".toList {},
        .rename "d".toList "e".toList {}]).2.find? "a" = some s' ∧ s'.document.source = "((b e) c)".toList ∧
      ActsAsSteps "a" [.goto [0, 0, 0], .replace "b".toList, .rename "a".toList "c".toList {},
        .rename "d".toList "e".toList {}] s s' t report reports ∧
      (r.applyAll "a" [.goto [0, 0, 0], .replace "b".toList, .rename "a".toList "c".toList {},
        .rename "d".toList "e".toList {}]).2.Restores "a" s.document s'.document := by
  obtain ⟨ms, hms⟩ : ∃ ms : List Mutation, ms = [.goto [0, 0, 0], .replace "b".toList,
      .rename "a".toList "c".toList {}, .rename "d".toList "e".toList {}] := ⟨_, rfl⟩
  have hreach : Reaches Document.Steady {} _ := Reaches.refl.create "a" "((a d) a)".toList
  generalize hr : Prod.snd _ = r at hreach
  have hbefore : (r.find? "a").map (·.document.source) = some "((a d) a)".toList := by
    rw [← hr]
    decide +kernel
  have hafter : ((r.applyAll "a" ms).2.find? "a").map (·.document.source) = some "((b e) c)".toList := by
    rw [← hr, hms]
    decide +kernel
  have hreport : (r.applyAll "a" ms).1.toOption.map CommitReport.replacements = some (some 2) := by
    rw [← hr, hms]
    decide +kernel
  obtain ⟨s, hs, hsource⟩ := Option.map_eq_some_iff.mp hbefore
  obtain ⟨report, hok, hcount⟩ := Option.map_eq_some_iff.mp hreport
  obtain ⟨-, hsteps, -⟩ := hreach.batch_as_steps hs ms
  obtain ⟨reports, s', t, -, -, hs', hacts, hrestores⟩ := hsteps report (Except.ok_of_toOption hok)
  have hsource' : s'.document.source = "((b e) c)".toList := by
    rw [hs'] at hafter
    exact Option.some.inj hafter
  rw [← hms]
  refine ⟨r, s, s', t, report, reports, hreach, hs, hsource, Except.ok_of_toOption hok, hcount, hs', hsource', hacts, ?_⟩
  exact hrestores (by rw [hsource, hsource']; decide)

end Registry

end SexprEdit
