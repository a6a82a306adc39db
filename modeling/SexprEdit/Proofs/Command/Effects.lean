import SexprEdit.Proofs.Command.Refinement
import SexprEdit.Proofs.Edit.Reversal

/-!
# What commands do to files

A command changes a file only if it succeeds, only if it was asked to write, and then only the file that it edits. Before
the last step, a program only reads; the last step is to save the session, and it fails before anything is written
(`Invocation.Ends`). What is written or printed is the source of the document that the command makes of the one in its
file, and renaming without a match leaves every file as it is, byte by byte.
-/

namespace SexprEdit

/-! ## Files -/

namespace Disk

variable {disk left : Disk} {path : String} {target names : List String} {source text : Text}

/-- One disk is the other one with a text in one file. -/
structure Overwrites (disk : Disk) (target : List String) (text : Text) (left : Disk) : Prop where
  directories : left.directories = disk.directories
  written : left.file? target = some (String.ofList text).toUTF8
  others : ∀ names, names ≠ target → left.file? names = disk.file? names

theorem overwrites_put (disk : Disk) (target : List String) (text : Text) :
    disk.Overwrites target text (disk.put target (String.ofList text).toUTF8) := by
  rw [put]
  by_cases hfile : (disk.file? target).isSome = true
  · rw [if_pos hfile]
    exact ⟨rfl, lookup_replace_self hfile _, fun names hne => lookup_replace_of_ne hne _⟩
  · rw [if_neg hfile]
    have hnone : disk.files.lookup target = none := Option.not_isSome_iff_eq_none.mp hfile
    refine ⟨rfl, ?_, fun names hne => ?_⟩
    · rw [file?, List.lookup_append, hnone, List.lookup_cons_self]
      rfl
    · have hother : (names == target) = false := beq_eq_false_iff_ne.mpr hne
      rw [file?, List.lookup_append, List.lookup_cons, hother]
      exact Option.or_none

theorem locate_of_locateNew (h : disk.locateNew path = .ok target) : disk.locate path = .ok target := by
  rw [locateNew] at h
  by_cases hdirectory : namesDirectory path = true
  · rw [if_pos hdirectory] at h
    obtain ⟨_, -, h⟩ := Except.exists_ok_of_bind h
    obtain ⟨_, -, h⟩ := Except.exists_ok_of_bind h
    obtain ⟨_, -, h⟩ := Except.exists_ok_of_bind h
    cases h
  · rw [if_neg hdirectory] at h
    exact h

theorem overwrites_of_writeText (h : disk.writeText path text = .ok left) :
    ∃ target, disk.locate path = .ok target ∧ disk.Overwrites target text left := by
  rw [writeText] at h
  obtain ⟨target, htarget, h⟩ := Except.exists_ok_of_bind h
  refine ⟨target, locate_of_locateNew htarget, ?_⟩
  by_cases hdirectory : ((disk.file? target).isNone && disk.isDirectory target) = true
  · rw [if_pos hdirectory] at h
    cases h
  · rw [if_neg hdirectory] at h
    obtain rfl := Except.ok.inj h
    exact overwrites_put disk target text

theorem toUTF8_of_fromUTF8? {content : ByteArray} {s : String} (h : String.fromUTF8? content = some s) :
    s.toUTF8 = content := by
  rw [String.fromUTF8?] at h
  split at h
  · obtain rfl := Option.some.inj h
    rfl
  · cases h

theorem file?_of_readText (h : disk.readText path = .ok source) (htarget : disk.locate path = .ok target) :
    disk.file? target = some (String.ofList source).toUTF8 := by
  rw [readText] at h
  obtain ⟨names, hnames, h⟩ := Except.exists_ok_of_bind h
  obtain rfl : names = target := Except.ok.inj (hnames.symm.trans htarget)
  split at h
  · next content hcontent =>
    split at h
    · next s hs =>
      obtain rfl := Except.ok.inj h
      rw [hcontent, String.ofList_toList, toUTF8_of_fromUTF8? hs]
    · cases h
  · cases h

theorem Overwrites.same (h : disk.Overwrites target source left) (hread : disk.readText path = .ok source)
    (htarget : disk.locate path = .ok target) (names : List String) : left.file? names = disk.file? names := by
  by_cases hnames : names = target
  · rw [hnames, h.written, file?_of_readText hread htarget]
  · exact h.others names hnames

end Disk

/-! ## Programs that only read -/

namespace Program

theorem leaves_filesOf (settings : Settings) (input : String) : (filesOf settings input).Leaves Machine.disk := by
  refine leaves_read.bind fun disk => ?_
  split_ifs
  · exact leaves_pure _
  · split
    · exact leaves_pure _
    · exact leaves_throw _

theorem leaves_collectFiles (settings : Settings) (inputs : List String) :
    (collectFiles settings inputs).Leaves Machine.disk :=
  (leaves_mapM inputs (leaves_filesOf settings)).bind fun _ => leaves_pure _

theorem leaves_checkFile (file : String) : (checkFile file).Leaves Machine.disk := by
  refine leaves_read.bind fun disk => ?_
  split
  · exact leaves_throw _
  · split
    · split_ifs
      · exact (leaves_print _).bind fun _ => leaves_pure _
      · exact (leaves_print _).bind fun _ => leaves_pure _
    · exact (leaves_reportUnreadable _ _ _).files.bind fun _ => (leaves_print _).bind fun _ => leaves_pure _

theorem leaves_check (settings : Settings) (inputs : List String) : (check settings inputs).Leaves Machine.disk := by
  refine (leaves_collectFiles settings inputs).bind fun files => (leaves_mapM files leaves_checkFile).bind fun verdicts =>
    (leaves_print _).bind fun _ => ?_
  split_ifs
  · exact (leaves_print _).bind fun _ => leaves_throw _
  · exact leaves_pure _

theorem leaves_find (settings : Settings) (query : Text) (inputs : List String) (options : MatchOptions) (json : Bool) :
    (find settings query inputs options json).Leaves Machine.disk := by
  have hfile : ∀ file, (findInFile { config := settings.editor } query options file).Leaves Machine.disk := fun file =>
    (leaves_openFile _ file).files.bind fun r => (leaves_orThrow _).bind fun hits => leaves_pure _
  refine (leaves_collectFiles settings inputs).bind fun files => (leaves_mapM files hfile).bind fun results => ?_
  split_ifs
  · exact leaves_print _
  · exact (leaves_forM _ fun hit => leaves_print _).bind fun _ => (leaves_note _).files

theorem leaves_program_of_target {settings : Settings} {c : Command} (h : c.target? = none) :
    (c.program settings).Leaves Machine.disk := by
  cases c with
  | check inputs => exact leaves_check settings inputs
  | find query inputs options json => exact leaves_find settings query inputs options json
  | rename | extract | thread | apply => cases h

end Program

/-! ## The last step -/

namespace Registry

variable {config : Config} {file : String} {r : Registry} {d : Document} {disk left : Disk} {e : FileError}

theorem HoldsFile.source (h : r.HoldsFile config file d) : (r.source file).1 = .ok d.source := by
  obtain ⟨s, hs, rfl, -⟩ := h.session
  rw [Registry.source, onSession_of_find? hs]

theorem HoldsFile.save_ok (h : r.HoldsFile config file d) (hwrite : disk.writeText file d.source = .ok left) :
    ∃ r', r.save disk file none = (.ok (.written file), r', left) := by
  obtain ⟨s, hs, rfl, -⟩ := h.session
  simp only [save, hs, h.origin, saveTarget, hwrite]
  exact ⟨_, rfl⟩

theorem HoldsFile.save_error (h : r.HoldsFile config file d) (hwrite : disk.writeText file d.source = .error e) :
    ∃ r', r.save disk file none = (.error (.file e), r', disk) := by
  obtain ⟨s, hs, rfl, -⟩ := h.session
  simp only [save, hs, h.origin, saveTarget, hwrite]
  exact ⟨_, rfl⟩

end Registry

namespace Program

variable {config : Config} {file : String} {r : Registry} {d : Document} {m : Machine} {left : Disk} {e : FileError}

theorem exec_finish_print (h : r.HoldsFile config file d) (m : Machine) :
    (finish r file false).exec m =
      (.ok (), { m with printed.out := m.printed.out ++ String.ofList d.source }) := by
  rw [finish, if_neg Bool.false_ne_true, h.source]
  rfl

theorem exec_finish_write (h : r.HoldsFile config file d) (hwrite : m.disk.writeText file d.source = .ok left) :
    ∃ printed, (finish r file true).exec m = (.ok (), ⟨left, printed⟩) := by
  obtain ⟨r', hsave⟩ := h.save_ok hwrite
  have hexec : (save r file).exec m = (.ok (.written file), { m with disk := left }) := by
    rw [save, exec_bind_ok (exec_read m), hsave]
    rfl
  rw [finish, if_pos rfl, exec_bind_ok hexec]
  exact ⟨_, rfl⟩

theorem exec_finish_unwritable (h : r.HoldsFile config file d) (hwrite : m.disk.writeText file d.source = .error e) :
    (finish r file true).exec m = (.error (EditError.file e).message, m) := by
  obtain ⟨r', hsave⟩ := h.save_error hwrite
  have hexec : (save r file).exec m = (.error (EditError.file e).message, m) := by
    rw [save, exec_bind_ok (exec_read m), hsave]
    rfl
  rw [finish, if_pos rfl, exec_bind_error hexec]

end Program

/-! ## Renaming without a match -/

section NoMatch

variable {disk : Disk} {file : String} {source query : Text} {t : Tree} {m : Matcher} {options : MatchOptions}

theorem Cursor.Within.source_of_read {c : Cursor} (hc : c.Within t) (h : Tree.read source = .ok t) : c.source = source := by
  rw [← Tree.text_of_read h, ← hc.tree, Node.plain, Node.text_map]
  rfl

theorem Cursor.Within.rename_of_none {c : Cursor} (replacement : Text) (hc : c.Within t) (hroot : t.isRoot = true)
    (hnone : ∀ a ∈ t.atoms, m.matchesAtom a = false) : c.rename m replacement = .ok (c, 0) := by
  obtain rfl := hc.tree
  rw [Node.atoms_plain] at hnone
  rw [Node.isRoot_plain] at hroot
  have hreads : ∀ a ∈ c.tree.atoms, m.Respells replacement a := by
    intro a ha hmatch
    rw [hnone a ha] at hmatch
    cases hmatch
  have hnil : m.findAll c.tree = [] := by
    rw [← List.length_eq_zero_iff, m.length_findAll, List.countP_eq_zero]
    exact fun a ha => Bool.eq_false_iff.mp (hnone a ha)
  obtain ⟨d, hrename, -, -, hsame⟩ := hc.rename_ok hroot hreads
  rw [hrename, hsame hnil, hnil, List.length_nil]

theorem Command.edit?_rename_of_none (settings : Settings) (replacement : Text) (write : Bool)
    (hread : disk.readText file = .ok source) (h : Tree.read source = .ok t) (hm : Matcher.ofQuery query options = .ok m)
    (hnone : ∀ a ∈ t.atoms, m.matchesAtom a = false) :
    Command.edit? settings disk (.rename query replacement file options write) =
      some (⟨.ofTree (Supply.session file 0 0).first t, .file file⟩, some 0) := by
  generalize hstart : (Supply.session file 0 0).first = start
  have hdocument : document? disk file = some ⟨.ofTree start t, .file file⟩ := by
    simp only [document?, hread, Except.toOption, Option.bind_eq_bind, Option.bind_some, Document.read, h, hstart]
  have hrename : (Cursor.ofTree start t).rename m replacement = .ok (Cursor.ofTree start t, 0) :=
    (Cursor.within_ofTree start t).rename_of_none replacement (Tree.sound_of_read h).1 hnone
  have happly : Document.apply settings.editor ⟨.ofTree start t, .file file⟩ (.rename query replacement options) =
      .ok (⟨.ofTree start t, .file file⟩, some 0) := by
    rw [Document.apply, Cursor.apply_rename_eq_ok_iff.mpr ⟨m, hm, hrename⟩]
    rfl
  rw [edit?_of_target rfl, hdocument, Option.bind_some, mutations?, Option.bind_some, Document.toOption_applyAll_cons,
    happly]
  rfl

end NoMatch

/-! ## Runs -/

namespace Invocation

variable {i : Invocation} {disk : Disk} {file : String} {write : Bool}

/-- The document that an invocation makes of the one in its file, with the number of replacements. -/
def edit? (disk : Disk) (i : Invocation) : Option (Document × Option Nat) := do
  let settings ← (Settings.load disk i.settings).toOption
  i.command.edit? settings disk

theorem run_of_ok {m : Machine} (h : i.program.exec { disk } = (.ok (), m)) :
    i.run disk = ⟨0, m.printed, m.disk⟩ := by
  rw [Program.exec] at h
  rw [run, h]

theorem run_of_error {m : Machine} {message : String} (h : i.program.exec { disk } = (.error message, m)) :
    (i.run disk).exitCode = 1 ∧ (i.run disk).disk = m.disk := by
  rw [Program.exec] at h
  rw [run, h]
  exact ⟨rfl, rfl⟩

theorem exec_program_of_load {settings : Settings} (h : Settings.load disk i.settings = .ok settings) :
    i.program.exec { disk } = (i.command.program settings).exec { disk } := by
  rw [program, Program.exec_bind_ok (Program.exec_read _), h]

theorem exec_program_of_load_error {message : String} (h : Settings.load disk i.settings = .error message) :
    i.program.exec { disk } = (.error message, { disk }) := by
  rw [program, Program.exec_bind_ok (Program.exec_read _), h]
  rfl

/-- How an editing command can end on a disk, by the document that it makes. -/
inductive Ends (disk : Disk) (file : String) (write : Bool) : Option (Document × Option Nat) → Outcome → Prop
  | failed {o : Outcome} : o.exitCode = 1 → o.disk = disk → Ends disk file write none o
  | printed {x : Document × Option Nat} {o : Outcome} : write = false → o.exitCode = 0 → o.disk = disk →
      o.printed.out = String.ofList x.1.source → Ends disk file write (some x) o
  | written {x : Document × Option Nat} {o : Outcome} : write = true → o.exitCode = 0 →
      disk.writeText file x.1.source = .ok o.disk → Ends disk file write (some x) o
  | unwritable {x : Document × Option Nat} {o : Outcome} {e : FileError} : write = true → o.exitCode = 1 →
      disk.writeText file x.1.source = .error e → o.disk = disk → Ends disk file write (some x) o

/-- The ways in which the last step of an editing command can end. -/
theorem ends_of_finish {r : Registry} {config : Config} {x : Document × Option Nat} {m : Machine}
    (hprogram : i.program.exec { disk } = (Program.finish r file write).exec m)
    (hm : Program.results m = (disk, "")) (hr : r.HoldsFile config file x.1) :
    Ends disk file write (some x) (i.run disk) := by
  obtain ⟨hdisk, hout⟩ := Prod.mk.inj hm
  cases write with
  | false =>
    rw [Program.exec_finish_print hr] at hprogram
    rw [run_of_ok hprogram]
    exact .printed rfl rfl hdisk (by rw [hout, String.empty_append])
  | true =>
    cases hwrite : m.disk.writeText file x.1.source with
    | ok left =>
      obtain ⟨printed, hfinish⟩ := Program.exec_finish_write hr hwrite
      rw [hfinish] at hprogram
      rw [run_of_ok hprogram]
      exact .written rfl rfl (hdisk ▸ hwrite)
    | error e =>
      rw [Program.exec_finish_unwritable hr hwrite] at hprogram
      obtain ⟨hcode, hleft⟩ := run_of_error hprogram
      exact .unwritable rfl hcode (hdisk ▸ hwrite) (hleft.trans hdisk)

theorem run_ends (h : i.command.target? = some (file, write)) : Ends disk file write (i.edit? disk) (i.run disk) := by
  rw [edit?]
  cases hload : Settings.load disk i.settings with
  | error message =>
    obtain ⟨hcode, hdisk⟩ := run_of_error (exec_program_of_load_error hload)
    exact .failed hcode hdisk
  | ok settings =>
    obtain ⟨p, hp, hrefines⟩ := Program.program_of_target settings disk h
    obtain ⟨hresults, hrel⟩ := hrefines { disk } rfl
    have hprogram := exec_program_of_load hload
    rw [hp] at hprogram
    -- up to the last step the files and the results are those of the start
    rcases hexec : p.exec { disk } with ⟨result, m⟩
    rw [hexec] at hresults hrel
    simp only [Except.toOption, Option.bind_eq_bind, Option.bind_some] at hrel ⊢
    generalize i.command.edit? settings disk = spec at hrel ⊢
    cases result with
    | error message =>
      cases hrel
      rw [Program.exec_bind_error hexec] at hprogram
      obtain ⟨hcode, hdisk⟩ := run_of_error hprogram
      exact .failed hcode (hdisk.trans (congrArg Prod.fst hresults))
    | ok r =>
      cases hrel with
      | some hr =>
        rw [Program.exec_bind_ok hexec] at hprogram
        exact ends_of_finish hprogram hresults hr

theorem disk_run_of_target (h : i.command.target? = none) : (i.run disk).disk = disk := by
  have hleaves : i.program.Leaves Machine.disk := by
    refine Program.leaves_read.bind fun disk => ?_
    split
    · exact Program.leaves_program_of_target h
    · exact Program.leaves_throw _
  have hdisk := hleaves { disk }
  rcases hexec : i.program.exec { disk } with ⟨result, m⟩
  rw [hexec] at hdisk
  cases result with
  | ok _ => rw [run_of_ok hexec, hdisk]
  | error message => rw [(run_of_error hexec).2, hdisk]

section Ends

variable {o : Outcome} {x : Document × Option Nat} {made : Option (Document × Option Nat)}

theorem Ends.disk_eq (h : Ends disk file write made o) (hkept : o.exitCode ≠ 0 ∨ write = false) : o.disk = disk := by
  cases h with
  | failed _ hdisk => exact hdisk
  | printed _ _ hdisk _ => exact hdisk
  | written hwrite hcode _ =>
    rcases hkept with hkept | hkept
    · exact absurd hcode hkept
    · cases hwrite.symm.trans hkept
  | unwritable _ _ _ hdisk => exact hdisk

theorem Ends.exitCode_eq_zero_iff (h : Ends disk file write made o) :
    o.exitCode = 0 ↔ ∃ x, made = some x ∧ (write = true → ∃ left, disk.writeText file x.1.source = .ok left) := by
  cases h with
  | failed hcode _ => simp [hcode]
  | printed hwrite hcode _ _ => simp [hwrite, hcode]
  | written hwrite hcode hleft => simp [hwrite, hcode, hleft]
  | unwritable hwrite hcode herror _ => simp [hwrite, hcode, herror]

theorem Ends.out_eq (h : Ends disk file false (some x) o) : o.printed.out = String.ofList x.1.source := by
  cases h with
  | printed _ _ _ hout => exact hout
  | written hwrite => cases hwrite
  | unwritable hwrite => cases hwrite

theorem Ends.overwrites (h : Ends disk file true (some x) o) (hcode : o.exitCode = 0) :
    ∃ target, disk.locate file = .ok target ∧ disk.Overwrites target x.1.source o.disk := by
  cases h with
  | printed hwrite => cases hwrite
  | written _ _ hleft => exact Disk.overwrites_of_writeText hleft
  | unwritable _ hfailed =>
    rw [hfailed] at hcode
    cases hcode

theorem Ends.file?_eq (h : Ends disk file write (some x) o) (hread : disk.readText file = .ok x.1.source)
    (names : List String) : o.disk.file? names = disk.file? names := by
  -- only a run that writes can put something into the file, and then it is what was read from it
  by_cases hkept : o.exitCode ≠ 0 ∨ write = false
  · rw [h.disk_eq hkept]
  · obtain ⟨hcode, hwrite⟩ := not_or.mp hkept
    obtain rfl : write = true := Bool.eq_true_of_not_eq_false hwrite
    obtain ⟨target, htarget, hoverwrites⟩ := h.overwrites (not_not.mp hcode)
    exact hoverwrites.same hread htarget names

end Ends

/-- A command that fails, or was not asked to write, changes no file. -/
theorem disk_run_of_kept (h : (i.run disk).exitCode ≠ 0 ∨ ∀ file, i.command.target? ≠ some (file, true)) :
    (i.run disk).disk = disk := by
  cases htarget : i.command.target? with
  | none => exact disk_run_of_target htarget
  | some target =>
    obtain ⟨file, write⟩ := target
    refine (run_ends htarget).disk_eq (h.imp_right fun hkept => ?_)
    cases write with
    | false => rfl
    | true => exact absurd htarget (hkept file)

section NoMatch

variable {query replacement source : Text} {options : MatchOptions} {t : Tree} {m : Matcher}

theorem edit?_of_none (h : i.command = .rename query replacement file options write)
    (hread : disk.readText file = .ok source) (ht : Tree.read source = .ok t) (hm : Matcher.ofQuery query options = .ok m)
    (hnone : ∀ a ∈ t.atoms, m.matchesAtom a = false) :
    i.edit? disk = none ∨ ∃ d, i.edit? disk = some (d, some 0) ∧ d.source = source := by
  rw [edit?, h]
  cases Settings.load disk i.settings with
  | error message => exact .inl rfl
  | ok settings =>
    refine .inr ⟨_, Command.edit?_rename_of_none settings replacement write hread ht hm hnone, ?_⟩
    exact (Cursor.within_ofTree _ t).source_of_read ht

theorem run_rename_of_none (h : i.command = .rename query replacement file options write)
    (hread : disk.readText file = .ok source) (ht : Tree.read source = .ok t) (hm : Matcher.ofQuery query options = .ok m)
    (hnone : ∀ a ∈ t.atoms, m.matchesAtom a = false) :
    (∀ names, (i.run disk).disk.file? names = disk.file? names) ∧
      ((i.run disk).exitCode = 0 → write = false → (i.run disk).printed.out = String.ofList source) := by
  have htarget : i.command.target? = some (file, write) := by rw [h, Command.target?]
  have hends : Ends disk file write (i.edit? disk) (i.run disk) := run_ends htarget
  rcases edit?_of_none h hread ht hm hnone with hmade | ⟨d, hmade, rfl⟩
  · rw [hmade] at hends
    cases hends with
    | failed hcode hdisk =>
      refine ⟨fun names => by rw [hdisk], fun hzero => ?_⟩
      rw [hcode] at hzero
      cases hzero
  · rw [hmade] at hends
    refine ⟨hends.file?_eq hread, ?_⟩
    rintro - rfl
    exact hends.out_eq

end NoMatch

/-- Commands change files only if they succeed, and only when asked. A command that fails, does not edit, or was not asked
to write leaves the disk as it is. An editing command succeeds exactly if its mutations make a document of the one in its
file and that can be written, if it is to be. Then it prints the source of that document, or puts it into its file and
changes no other. Renaming where nothing matches leaves every file as it is, byte by byte. -/
theorem run_touches_target (i : Invocation) (disk : Disk) :
    ((i.run disk).exitCode ≠ 0 ∨ (∀ file, i.command.target? ≠ some (file, true)) → (i.run disk).disk = disk) ∧
      (∀ file write, i.command.target? = some (file, write) →
        ((i.run disk).exitCode = 0 ↔ ∃ x, i.edit? disk = some x ∧
          (write = true → ∃ left, disk.writeText file x.1.source = .ok left)) ∧
        ∀ x, i.edit? disk = some x → (i.run disk).exitCode = 0 →
          (write = false → (i.run disk).printed.out = String.ofList x.1.source) ∧
          (write = true → ∃ target, disk.locate file = .ok target ∧
            disk.Overwrites target x.1.source (i.run disk).disk)) ∧
      ∀ query replacement file options write source t m, i.command = .rename query replacement file options write →
        disk.readText file = .ok source → Tree.read source = .ok t → Matcher.ofQuery query options = .ok m →
        (∀ a ∈ t.atoms, m.matchesAtom a = false) →
          (∀ names, (i.run disk).disk.file? names = disk.file? names) ∧
          ((i.run disk).exitCode = 0 → write = false → (i.run disk).printed.out = String.ofList source) := by
  refine ⟨disk_run_of_kept, ?_, ?_⟩
  · intro file write htarget
    have hends : Ends disk file write (i.edit? disk) (i.run disk) := run_ends htarget
    refine ⟨hends.exitCode_eq_zero_iff, fun x hx hcode => ?_⟩
    rw [hx] at hends
    constructor
    · rintro rfl
      exact hends.out_eq
    · rintro rfl
      exact hends.overwrites hcode
  · intro query replacement file options write source t m hcommand hread ht hm hnone
    exact run_rename_of_none hcommand hread ht hm hnone

/-- A form is bound to a name in one of two files, and a name that is not there is renamed in it. -/
theorem run_touches_target_extract :
    ∃ (disk : Disk) (i j : Invocation) (x : Document × Option Nat),
      disk.readText "a/s.clj" = .ok "(f (g :x)) ; y".toList ∧ i.command.target? = some ("a/s.clj", true) ∧
        i.edit? disk = some x ∧ x.1.source = "(let [n (g :x)] (f n)) ; y".toList ∧ (i.run disk).exitCode = 0 ∧
          disk.Overwrites ["a", "s.clj"] x.1.source (i.run disk).disk ∧
            j.command = .rename ['y'] ['z'] "a/s.clj" {} true ∧ (j.run disk).exitCode = 0 ∧
              ∀ names, (j.run disk).disk.file? names = disk.file? names := by
  let disk : Disk := { files := [(["a", "s.clj"], "(f (g :x)) ; y".toUTF8), (["b"], "(y)".toUTF8)] }
  let i : Invocation := { settings := none, command := .extract "a/s.clj" "0.1" ['n'] true }
  let j : Invocation := { settings := none, command := .rename ['y'] ['z'] "a/s.clj" {} true }
  have hread : disk.readText "a/s.clj" = .ok "(f (g :x)) ; y".toList := by decide +kernel
  have hlocate : disk.locate "a/s.clj" = .ok ["a", "s.clj"] := by decide +kernel
  have hcode : (i.run disk).exitCode = 0 := by decide +kernel
  obtain ⟨-, hedits, -⟩ := run_touches_target i disk
  obtain ⟨hiff, hmade⟩ := hedits "a/s.clj" true rfl
  obtain ⟨x, hx, -⟩ := hiff.mp hcode
  obtain ⟨target, htarget, hoverwrites⟩ := (hmade x hx hcode).2 rfl
  obtain rfl : ["a", "s.clj"] = target := Except.ok.inj (hlocate.symm.trans htarget)
  have hsource : (i.edit? disk).map (fun x => x.1.source) = some "(let [n (g :x)] (f n)) ; y".toList := by decide +kernel
  rw [hx] at hsource
  have hnone : (Tree.read "(f (g :x)) ; y".toList).toOption.map
      (fun t => t.atoms.any (Matcher.mk ['y'] {} (by decide)).matchesAtom) = some false := by decide +kernel
  obtain ⟨t, ht, hnone⟩ := Option.map_eq_some_iff.mp hnone
  obtain ⟨-, -, hrenames⟩ := run_touches_target j disk
  obtain ⟨hsame, -⟩ := hrenames ['y'] ['z'] "a/s.clj" {} true _ t _ rfl hread (Except.ok_of_toOption ht) rfl
    fun a ha => Bool.eq_false_iff.mpr (List.any_eq_false.mp hnone a ha)
  exact ⟨disk, i, j, x, hread, rfl, hx, Option.some.inj hsource, hcode, hoverwrites, rfl, by decide +kernel, hsame⟩

end Invocation

end SexprEdit
