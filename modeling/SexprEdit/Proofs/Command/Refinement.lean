import SexprEdit.Command.Run
import SexprEdit.Proofs.Session.Moves

/-!
# What the programs of commands compute

The document that an editing command makes is a function of the disk (`Command.edit?`), said without sessions and without
a machine. The program of the command refines that function: it succeeds where the function gives a document, with a
session that holds it, and meanwhile it changes no file and prints no result (`Program.Refines`). So only what comes last,
the saving or printing of the session, is left to be looked at.
-/

namespace SexprEdit

namespace Program

variable {α β γ δ : Type} {p : Program α} {m : Machine} {disk : Disk}

/-! ## Running -/

def exec (p : Program α) (m : Machine) : Except String α × Machine :=
  p.run.run m

@[simp] theorem exec_throw (e : String) (m : Machine) : (throw e : Program α).exec m = (.error e, m) := rfl

@[simp] theorem exec_read (m : Machine) : (read : Program Disk).exec m = (.ok m.disk, m) := rfl

theorem exec_bind_ok {a : α} {m' : Machine} (h : p.exec m = (.ok a, m')) (f : α → Program β) :
    (p >>= f).exec m = (f a).exec m' := by
  rw [exec] at h
  rw [exec, ExceptT.run_bind, StateT.run_bind, h]
  rfl

theorem exec_bind_error {e : String} {m' : Machine} (h : p.exec m = (.error e, m')) (f : α → Program β) :
    (p >>= f).exec m = (.error e, m') := by
  rw [exec] at h
  rw [exec, ExceptT.run_bind, StateT.run_bind, h]
  rfl

/-! ## What stays as it is -/

/-- Whatever comes of it, a program leaves something about the machine as it is. -/
def Leaves (view : Machine → β) (p : Program α) : Prop :=
  ∀ m, view (p.exec m).2 = view m

/-- The files, and the results printed so far. -/
def results (m : Machine) : Disk × String :=
  (m.disk, m.printed.out)

section Leaves

variable {view : Machine → γ} {f : α → Program β}

theorem leaves_pure (a : α) : (pure a : Program α).Leaves view := fun _ => rfl

theorem leaves_throw (e : String) : (throw e : Program α).Leaves view := fun _ => rfl

theorem leaves_read : (read : Program Disk).Leaves view := fun _ => rfl

theorem leaves_print (text : String) : (print text).Leaves Machine.disk := fun _ => rfl

theorem leaves_note (line : String) : (note line).Leaves results := fun _ => rfl

theorem Leaves.bind (hp : p.Leaves view) (hf : ∀ a, (f a).Leaves view) : (p >>= f).Leaves view := by
  intro m
  rcases hexec : p.exec m with ⟨result, m'⟩
  have hm' : view m' = view m := by rw [← hp m, hexec]
  cases result with
  | ok a => rw [exec_bind_ok hexec, hf a, hm']
  | error e => rw [exec_bind_error hexec, hm']

theorem Leaves.files (h : p.Leaves results) : p.Leaves Machine.disk := fun m => congrArg Prod.fst (h m)

theorem leaves_mapM (as : List α) (hf : ∀ a, (f a).Leaves view) : (as.mapM f).Leaves view := by
  induction as with
  | nil =>
    rw [List.mapM_nil]
    exact leaves_pure []
  | cons a as ih =>
    rw [List.mapM_cons]
    exact (hf a).bind fun b => ih.bind fun bs => leaves_pure (b :: bs)

theorem leaves_forM {f : α → Program Unit} (as : List α) (hf : ∀ a, (f a).Leaves view) : (as.forM f).Leaves view := by
  induction as with
  | nil => exact leaves_pure ()
  | cons a as ih => exact (hf a).bind fun _ => ih

theorem leaves_reportUnreadable (file : String) (source : Text) (e : ReadError) :
    (reportUnreadable file source e).Leaves results :=
  leaves_forM _ leaves_note

theorem leaves_orThrow (result : Except EditError α) : (orThrow result).Leaves view := by
  cases result with
  | ok a => exact leaves_pure a
  | error e => exact leaves_throw e.message

end Leaves

/-! ## Refinement -/

/-- On a disk, a program gives what a value gives, or fails if there is none. It changes no file and prints no result. -/
def Refines (disk : Disk) (p : Program α) (spec : Option β) (R : α → β → Prop) : Prop :=
  ∀ m, m.disk = disk → results (p.exec m).2 = results m ∧ Option.Rel R (p.exec m).1.toOption spec

theorem Refines.bind {spec : Option β} {R : α → β → Prop} {f : α → Program γ} {g : β → Option δ} {S : γ → δ → Prop}
    (hp : p.Refines disk spec R) (hf : ∀ a b, R a b → (f a).Refines disk (g b) S) :
    (p >>= f).Refines disk (spec.bind g) S := by
  intro m hm
  obtain ⟨hleaves, hrel⟩ := hp m hm
  rcases hexec : p.exec m with ⟨result, m'⟩
  rw [hexec] at hleaves hrel
  cases result with
  | ok a =>
    obtain ⟨b, hab, rfl⟩ : ∃ b, R a b ∧ spec = some b := by
      cases hrel with
      | some hab => exact ⟨_, hab, rfl⟩
    obtain ⟨hleaves', hrel'⟩ := hf a b hab m' ((congrArg Prod.fst hleaves).trans hm)
    rw [exec_bind_ok hexec]
    exact ⟨hleaves'.trans hleaves, hrel'⟩
  | error e =>
    obtain rfl : spec = none := by
      cases hrel
      rfl
    rw [exec_bind_error hexec]
    exact ⟨hleaves, .none⟩

theorem refines_pure {R : α → β → Prop} {a : α} {b : β} (h : R a b) : (pure a : Program α).Refines disk (some b) R :=
  fun _ _ => ⟨rfl, .some h⟩

theorem refines_orThrow {R : α → β → Prop} {result : Except EditError α} {spec : Option β}
    (h : Option.Rel R result.toOption spec) : (orThrow result).Refines disk spec R := by
  intro m _
  refine ⟨leaves_orThrow result m, ?_⟩
  cases result with
  | ok a => exact h
  | error e => exact h

theorem refines_note (line : String) : (note line).Refines disk (some ()) fun _ _ => True :=
  fun m _ => ⟨leaves_note line m, .some trivial⟩

theorem Refines.after_note {spec : Option β} {R : α → β → Prop} (line : String) (h : p.Refines disk spec R) :
    (note line >>= fun _ => p).Refines disk spec R := by
  have hbind := (refines_note line).bind (g := fun _ => spec) fun _ _ _ => h
  exact hbind

theorem refines_mapM {f : α → Program β} {g : α → Option β} (as : List α) (h : ∀ a, (f a).Refines disk (g a) Eq) :
    (as.mapM f).Refines disk (as.mapM g) Eq := by
  induction as with
  | nil =>
    rw [List.mapM_nil, List.mapM_nil]
    exact refines_pure rfl
  | cons a as ih =>
    rw [List.mapM_cons, List.mapM_cons]
    refine (h a).bind ?_
    rintro b _ rfl
    refine ih.bind ?_
    rintro bs _ rfl
    exact refines_pure rfl

end Program

/-! ## The specification -/

namespace Command

/-- The numbers of a path that is written with dots between them. -/
def path? (text : String) : Option (List Nat) :=
  if (Text.trim text.toList).isEmpty then some []
  else (Text.split '.' text.toList).mapM fun part => Program.natural? (Text.trim part)

def operations? (disk : Disk) (path : String) : Option (List Mutation) := do
  let content ← (disk.readText path).toOption
  (Json.read? content).bind (Json.arrayOf? Mutation.ofJson?)

/-- The file that a command edits, and whether the result is written to it. -/
def target? : Command → Option (String × Bool)
  | check _ | find _ _ _ _ => none
  | rename _ _ file _ write | extract file _ _ write | thread file _ _ write | apply file _ write => some (file, write)

def mutations? (disk : Disk) : Command → Option (List Mutation)
  | check _ | find _ _ _ _ => none
  | rename query replacement _ options _ => some [.rename query replacement options]
  | extract _ path name _ => (path? path).map fun numbers => [.goto numbers, .extract name]
  | thread _ path style _ => (path? path).map fun numbers => [.goto numbers, .thread style]
  | apply _ operations _ => operations? disk operations

def document? (disk : Disk) (file : String) : Option Document := do
  let source ← (disk.readText file).toOption
  (Document.read (Supply.session file 0 0).first source (.file file)).toOption

/-- The document that a command makes of the one in its file, with the number of replacements. -/
def edit? (settings : Settings) (disk : Disk) (c : Command) : Option (Document × Option Nat) := do
  let (file, _) ← c.target?
  let d ← document? disk file
  let ms ← c.mutations? disk
  (d.applyAll settings.editor none ms).toOption

theorem edit?_of_target {settings : Settings} {disk : Disk} {c : Command} {file : String} {write : Bool}
    (h : c.target? = some (file, write)) :
    c.edit? settings disk = (document? disk file).bind fun d => (c.mutations? disk).bind fun ms =>
      (d.applyAll settings.editor none ms).toOption := by
  rw [edit?, h]
  rfl

end Command

namespace Document

theorem origin_read {start : Stamp} {source : Text} {origin : Origin} {d : Document}
    (h : Document.read start source origin = .ok d) : d.origin = origin := by
  rw [Document.read] at h
  split at h
  · obtain rfl := Except.ok.inj h
    rfl
  · cases h

theorem origin_apply {config : Config} {d : Document} {m : Mutation} {x : Document × Option Nat}
    (h : d.apply config m = .ok x) : x.1.origin = d.origin := by
  obtain ⟨applied, -, h⟩ := Except.exists_ok_of_bind h
  obtain rfl := Except.ok.inj h
  rfl

theorem origin_applyAll {config : Config} {d : Document} {count : Option Nat} {ms : List Mutation}
    {x : Document × Option Nat} (h : d.applyAll config count ms = .ok x) : x.1.origin = d.origin := by
  induction ms generalizing d count with
  | nil =>
    obtain rfl := Except.ok.inj h
    rfl
  | cons m ms ih =>
    obtain ⟨y, hm, h⟩ := Except.exists_ok_of_bind h
    exact (ih h).trans (origin_apply hm)

theorem toOption_applyAll_cons (config : Config) (d : Document) (count : Option Nat) (m : Mutation) (ms : List Mutation) :
    (d.applyAll config count (m :: ms)).toOption =
      (d.apply config m).toOption.bind fun x => (x.1.applyAll config (addCounts count x.2) ms).toOption := by
  rw [applyAll]
  cases d.apply config m <;> rfl

end Document

/-! ## Sessions on files -/

/-- The registry holds a document that came from the file, in a session named after the file. Operations get it as it
is. -/
structure Registry.HoldsFile (config : Config) (file : String) (r : Registry) (d : Document) : Prop where
  config : r.config = config
  session : ∃ s, r.find? file = some s ∧ s.document = d ∧ s.current file = d
  steady : d.Steady
  origin : d.origin = .file file

namespace Registry

variable {config : Config} {file : String} {r : Registry} {d : Document}

theorem HoldsFile.commit (h : r.HoldsFile config file d) {result : Except EditError (Document × Option Nat)}
    (hresult : ∀ x, result = .ok x → d.Derives x.1 ∧ x.1.origin = d.origin)
    {answer : Except EditError CommitReport × Registry}
    (hanswer : answer = r.onSession file fun s => commitResult r.now s result) :
    Option.Rel (fun _ x => HoldsFile config file answer.2 x.1) answer.1.toOption result.toOption := by
  obtain ⟨s, hs, -, hcurrent⟩ := h.session
  rw [onSession_of_find? hs] at hanswer
  subst hanswer
  cases result with
  | error e => exact .none
  | ok x =>
    obtain ⟨hderives, horigin⟩ := hresult x rfl
    have hnext : (s.commit x.1).current file = x.1 :=
      Session.current_commit (by rw [hcurrent]; exact h.steady) (by rw [hcurrent]; exact hderives)
    exact .some ⟨h.config, ⟨_, find?_put hs, rfl, hnext⟩, (hderives.runs h.steady).steady h.steady,
      horigin.trans h.origin⟩

theorem HoldsFile.apply (h : r.HoldsFile config file d) (m : Mutation) :
    Option.Rel (fun _ x => HoldsFile config file (r.apply file m).2 x.1) (r.apply file m).1.toOption
      (d.apply config m).toOption := by
  obtain ⟨s, hs, -, hcurrent⟩ := h.session
  refine h.commit (fun x hx => ⟨Document.Derives.refl.apply hx, Document.origin_apply hx⟩) ?_
  rw [Registry.apply, onSession_of_find? hs, onSession_of_find? hs, h.config, hcurrent]

theorem HoldsFile.rename (h : r.HoldsFile config file d) (query replacement : Text) (options : MatchOptions) :
    Option.Rel (fun _ x => HoldsFile config file (r.rename file query replacement options).2 x.1)
      (r.rename file query replacement options).1.toOption (d.apply config (.rename query replacement options)).toOption := by
  have happly := h.apply (.rename query replacement options)
  rw [Registry.rename]
  revert happly
  generalize (d.apply config (.rename query replacement options)).toOption = spec
  generalize r.apply file (.rename query replacement options) = answer
  intro happly
  obtain ⟨result, r'⟩ := answer
  cases result with
  | error e =>
    cases happly
    exact .none
  | ok report =>
    cases happly with
    | some hx => exact .some hx

theorem HoldsFile.applyAll (h : r.HoldsFile config file d) (ms : List Mutation) :
    Option.Rel (fun _ x => HoldsFile config file (r.applyAll file ms).2 x.1) (r.applyAll file ms).1.toOption
      (d.applyAll config none ms).toOption := by
  obtain ⟨s, hs, -, hcurrent⟩ := h.session
  refine h.commit (fun x hx => ⟨Document.Derives.refl.applyAll hx, Document.origin_applyAll hx⟩) ?_
  rw [Registry.applyAll, onSession_of_find? hs, onSession_of_find? hs, h.config, hcurrent]

end Registry

/-! ## Programs -/

namespace Program

open Command (path? operations? document?)

variable {disk : Disk} {config : Config} {file : String} {r : Registry} {d : Document}

theorem leaves_openFile (r : Registry) (file : String) : (openFile r file).Leaves results := by
  refine leaves_read.bind fun disk => ?_
  split
  · exact leaves_pure _
  · exact (leaves_reportUnreadable _ _ _).bind fun _ => leaves_throw _
  · exact leaves_throw _

theorem openFile_ok {m : Machine} {r' : Registry} (h : r.createFromFile m.disk file file = (.ok (), r')) :
    ((openFile r file).exec m).1.toOption = some r' := by
  rw [openFile, exec_bind_ok (exec_read m), h]
  rfl

theorem toOption_exec_throw {α β : Type} (p : Program α) (e : String) (m : Machine) :
    ((p >>= fun _ => (throw e : Program β)).exec m).1.toOption = none := by
  rcases hexec : p.exec m with ⟨result, m'⟩
  cases result with
  | ok a => rw [exec_bind_ok hexec, exec_throw, Except.toOption]
  | error e' => rw [exec_bind_error hexec, Except.toOption]

theorem openFile_error {m : Machine} {e : EditError} {r' : Registry}
    (h : r.createFromFile m.disk file file = (.error e, r')) : ((openFile r file).exec m).1.toOption = none := by
  rw [openFile, exec_bind_ok (exec_read m), h]
  cases e with
  | unreadable e => exact toOption_exec_throw _ _ m
  | _ => rfl

theorem refines_openFile (config : Config) (file : String) :
    (openFile { config } file).Refines disk (document? disk file) (Registry.HoldsFile config file) := by
  rintro m rfl
  refine ⟨leaves_openFile _ _ m, ?_⟩
  cases hread : m.disk.readText file with
  | error e =>
    have hcreate : Registry.createFromFile { config } m.disk file file = (.error (.file e), { config }) := by
      rw [Registry.createFromFile, hread]
      rfl
    rw [openFile_error hcreate, document?, hread]
    exact .none
  | ok source =>
    have hspec : document? m.disk file =
        (Document.read (Supply.session file 0 0).first source (.file file)).toOption := by
      rw [document?, hread]
      rfl
    have hcreate : Registry.createFromFile { config } m.disk file file =
        Registry.openOn { config } file fun fresh => Document.read fresh source (.file file) := by
      rw [Registry.createFromFile, hread]
    rw [hspec]
    cases hdocument : Document.read (Supply.session file 0 0).first source (.file file) with
    | error e =>
      have hopen : Registry.createFromFile { config } m.disk file file = (.error e, { config }) := by
        rw [hcreate, Registry.openOn]
        simp only [List.count_nil, hdocument]
        rfl
      rw [openFile_error hopen]
      exact .none
    | ok d =>
      have hopen : Registry.createFromFile { config } m.disk file file =
          (.ok (), { config, sessions := [(file, .ofDocument d 0 config.historyLimit 0)], opened := [file] }) := by
        rw [hcreate, Registry.openOn]
        simp only [List.count_nil, hdocument]
        rfl
      rw [openFile_ok hopen]
      refine .some ⟨rfl, ⟨_, List.lookup_cons_self, rfl, ?_⟩, ?_, Document.origin_read hdocument⟩
      · exact Session.current_ofDocument hdocument _ _
      · have horder : d.cursor.InOrder False := Document.inOrder_read hdocument
        exact horder.steady

theorem refines_parsePath (text : String) : (parsePath text).Refines disk (path? text) Eq := by
  rw [parsePath, path?]
  split_ifs
  · exact refines_pure rfl
  · refine refines_mapM _ fun part => ?_
    cases natural? (Text.trim part) with
    | some n => exact refines_pure rfl
    | none => exact fun _ _ => ⟨rfl, .none⟩

theorem refines_readOperations (path : String) : (readOperations path).Refines disk (operations? disk path) Eq := by
  rintro m rfl
  rw [readOperations, exec_bind_ok (exec_read m), operations?]
  cases m.disk.readText path with
  | error e => exact ⟨rfl, .none⟩
  | ok content =>
    simp only [Except.toOption, Option.bind_eq_bind, Option.bind_some]
    cases (Json.read? content).bind (Json.arrayOf? Mutation.ofJson?) with
    | some ms => exact ⟨rfl, .some rfl⟩
    | none => exact ⟨rfl, .none⟩

theorem refines_mutate (h : r.HoldsFile config file d) (m : Mutation) :
    (mutate r file m).Refines disk (d.apply config m).toOption fun x y => x.2.HoldsFile config file y.1 := by
  have hbind : (mutate r file m).Refines disk ((d.apply config m).toOption.bind some) fun x y =>
      x.2.HoldsFile config file y.1 :=
    (refines_orThrow (h.apply m)).bind fun report x hx => refines_pure hx
  rwa [Option.bind_fun_some] at hbind

theorem refines_rename (settings : Settings) (query replacement : Text) (options : MatchOptions) (write : Bool) :
    (rename settings query replacement file options).Refines disk
      (Command.edit? settings disk (.rename query replacement file options write)) fun r x =>
        r.HoldsFile settings.editor file x.1 := by
  rw [Command.edit?_of_target rfl, rename]
  refine (refines_openFile settings.editor file).bind fun r d hr => ?_
  rw [Command.mutations?, Option.bind_some, Document.toOption_applyAll_cons]
  refine (refines_orThrow (hr.rename query replacement options)).bind fun count x hx => ?_
  refine Refines.after_note _ ?_
  exact refines_pure hx

/-- Going to a form and changing it there is a batch of two mutations. -/
theorem refines_mutateAt (settings : Settings) (path : String) (m : Mutation) (message : CommitReport → String) :
    (mutateAt settings file path m message).Refines disk
      ((document? disk file).bind fun d => ((path? path).map fun numbers => [.goto numbers, m]).bind fun ms =>
        (d.applyAll settings.editor none ms).toOption) fun r x => r.HoldsFile settings.editor file x.1 := by
  refine (refines_openFile settings.editor file).bind fun r d hr => ?_
  rw [Option.bind_map]
  refine (refines_parsePath path).bind ?_
  rintro numbers _ rfl
  rw [Function.comp_apply, Document.toOption_applyAll_cons]
  refine (refines_mutate hr (.goto numbers)).bind fun x y hy => ?_
  rw [Document.toOption_applyAll_cons]
  refine (refines_mutate hy m).bind fun x' y' hy' => ?_
  refine Refines.after_note _ ?_
  exact refines_pure hy'

theorem refines_apply (settings : Settings) (operations : String) (write : Bool) :
    (apply settings file operations).Refines disk (Command.edit? settings disk (.apply file operations write))
      fun r x => r.HoldsFile settings.editor file x.1 := by
  rw [Command.edit?_of_target rfl, Option.bind_comm, apply]
  refine (refines_readOperations operations).bind ?_
  rintro ms _ rfl
  refine (refines_openFile settings.editor file).bind fun r d hr => ?_
  rw [← Option.bind_fun_some (d.applyAll settings.editor none ms).toOption]
  refine (refines_orThrow (hr.applyAll ms)).bind fun report x hx => ?_
  refine Refines.after_note _ ?_
  cases report.replacements with
  | none => exact refines_pure hx
  | some count =>
    refine Refines.after_note _ ?_
    exact refines_pure hx

/-- The program of an editing command makes a session and then finishes with it. -/
theorem program_of_target (settings : Settings) (disk : Disk) {c : Command} {write : Bool}
    (h : c.target? = some (file, write)) :
    ∃ p : Program Registry, (c.program settings = p >>= fun r => finish r file write) ∧
      p.Refines disk (c.edit? settings disk) fun r x => r.HoldsFile settings.editor file x.1 := by
  cases c with
  | check inputs => cases h
  | find query inputs options json => cases h
  | rename query replacement file options write =>
    obtain ⟨rfl, rfl⟩ := Prod.mk.inj (Option.some.inj h)
    exact ⟨_, rfl, refines_rename settings query replacement options write⟩
  | extract file path name write =>
    obtain ⟨rfl, rfl⟩ := Prod.mk.inj (Option.some.inj h)
    exact ⟨_, rfl, refines_mutateAt settings path (.extract name) _⟩
  | thread file path style write =>
    obtain ⟨rfl, rfl⟩ := Prod.mk.inj (Option.some.inj h)
    exact ⟨_, rfl, refines_mutateAt settings path (.thread style) _⟩
  | apply file operations write =>
    obtain ⟨rfl, rfl⟩ := Prod.mk.inj (Option.some.inj h)
    exact ⟨_, rfl, refines_apply settings operations write⟩

end Program

end SexprEdit
