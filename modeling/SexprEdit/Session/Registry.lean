import SexprEdit.Session.Document
import SexprEdit.Session.History
import SexprEdit.Store.Disk

/-!
# Sessions

A session edits one document under a name that its user chose. Every operation computes a new document from the
current one and takes it over only when nothing failed. A registry holds the sessions that are open; operations on
one leave all others alone.
-/

namespace SexprEdit

/-- A document under edit, its history, and the number of commits so far. The stamps of its edits are told from others
by the number of earlier sessions of its name and the number of earlier branches. A session in the middle of an
operation is held. -/
structure Session where
  document : Document
  history : History Document
  opening : Nat
  branch : Nat := 0
  version : Nat := 0
  lastUsed : Nat := 0
  held : Bool := false

/-- What a committed operation reports: the version reached, the number of replacements, and the place of the
cursor. -/
structure CommitReport where
  version : Nat
  replacements : Option Nat
  location : Location
deriving DecidableEq, Repr

/-- What is shown of a session. -/
structure SessionInfo where
  id : String
  origin : Origin
  kind : String
  preview : Text
  location : Location
  path : List PathStep
  version : Nat
  canUndo : Bool
  canRedo : Bool
deriving DecidableEq, Repr

/-- What saving a session did: give the text, or write it to a file. -/
inductive Saved where
  | text (text : Text)
  | written (path : String)
deriving DecidableEq, Repr

namespace Session

/-- A session on a document that was just read. -/
def ofDocument (document : Document) (opening limit now : Nat) : Session :=
  { document, history := { limit }, opening, lastUsed := now }

/-- The document as an operation gets it, with new nodes to be stamped from the supply of this branch. -/
def current (s : Session) (id : String) : Document :=
  { s.document with cursor := s.document.cursor.drawing (.session id s.opening s.branch) }

/-- Go on from a document that is not the last one that the session made. -/
def fork (s : Session) : Session :=
  { s with branch := s.branch + 1 }

/-- Take over a document. It is recorded in the history unless it is known to be on the same tree, so a move of a cursor
that is out of step is recorded, and so is a text that was read anew. -/
def commit (s : Session) (d : Document) : Session :=
  { s with
    document := d
    history := if s.document.treeChanged d then s.history.record s.document else s.history
    version := s.version + 1 }

def touch (s : Session) (now : Nat) : Session :=
  { s with lastUsed := now }

def report (s : Session) (replacements : Option Nat) : CommitReport :=
  ⟨s.version, replacements, s.document.cursor.location⟩

def undo? (s : Session) : Option Session :=
  (s.history.undo? s.document).map fun (document, history) =>
    fork { s with document, history, version := s.version + 1 }

def redo? (s : Session) : Option Session :=
  (s.history.redo? s.document).map fun (document, history) =>
    fork { s with document, history, version := s.version + 1 }

def info (s : Session) (config : Config) (id : String) : SessionInfo :=
  let c := s.document.cursor
  { id, origin := s.document.origin, kind := c.node.kindName, preview := c.node.preview config.summaryWidth,
    location := c.location, path := c.pathSteps, version := s.version, canUndo := s.history.canUndo,
    canRedo := s.history.canRedo }

end Session

/-- The open sessions by name, their settings, the time, and the names of all sessions that were ever opened. -/
structure Registry where
  config : Config := {}
  sessions : List (String × Session) := []
  now : Nat := 0
  opened : List String := []

namespace Registry

variable {α : Type}

def find? (r : Registry) (id : String) : Option Session :=
  r.sessions.lookup id

/-- Put a session in the place of the open one of that name. -/
def put (r : Registry) (id : String) (s : Session) : Registry :=
  { r with sessions := r.sessions.map fun entry => if entry.1 == id then (id, s) else entry }

/-- Run an operation on the session of a name. -/
def onSession (r : Registry) (id : String) (f : Session → Except EditError α × Session) :
    Except EditError α × Registry :=
  match r.find? id with
  | none => (.error (.unknownSession id), r)
  | some s =>
    let outcome := f s
    (outcome.1, r.put id outcome.2)

/-- Open a session on a source, which is read with stamps that no other session of the name has. -/
def openOn (r : Registry) (id : String) (source : Stamp → Except EditError Document) :
    Except EditError Unit × Registry :=
  let opening := r.opened.count id
  match r.find? id, source (Supply.session id opening 0).first with
  | some _, _ => (.error (.duplicateId id), r)
  | none, .error e => (.error e, r)
  | none, .ok document =>
    let session := Session.ofDocument document opening r.config.historyLimit r.now
    (.ok (), { r with sessions := r.sessions ++ [(id, session)], opened := id :: r.opened })

def create (r : Registry) (id : String) (source : Text) : Except EditError Unit × Registry :=
  r.openOn id fun fresh => Document.read fresh source

def createFromFile (r : Registry) (disk : Disk) (id path : String) : Except EditError Unit × Registry :=
  r.openOn id fun fresh =>
    match disk.readText path with
    | .ok source => Document.read fresh source (.file path)
    | .error e => .error (.file e)

/-- Run a function on the document of a session and take over the document that it gives. The session is held
meanwhile, and the function may use the registry for other sessions. -/
def withSession (r : Registry) (id : String)
    (f : Document → Registry → Except EditError (Document × α) × Registry) : Except EditError α × Registry :=
  match r.find? id with
  | none => (.error (.unknownSession id), r)
  | some s =>
    match f (s.current id) (r.put id { s with held := true }) with
    | (.ok (document, value), after) => (.ok value, after.put id ((s.commit document).fork.touch r.now))
    | (.error e, after) => (.error e, after.put id (s.touch r.now))

/-- Take over the result of mutations, or only note the use of the session if they failed. -/
def commitResult (now : Nat) (s : Session) :
    Except EditError (Document × Option Nat) → Except EditError CommitReport × Session
  | .ok (document, replacements) =>
    let committed := (s.commit document).touch now
    (.ok (committed.report replacements), committed)
  | .error e => (.error e, s.touch now)

/-- Apply a mutation. -/
def apply (r : Registry) (id : String) (m : Mutation) : Except EditError CommitReport × Registry :=
  r.onSession id fun s => commitResult r.now s ((s.current id).apply r.config m)

/-- Apply several mutations in one commit, all or none. -/
def applyAll (r : Registry) (id : String) (ms : List Mutation) : Except EditError CommitReport × Registry :=
  r.onSession id fun s => commitResult r.now s ((s.current id).applyAll r.config none ms)

/-- Rename in a session; with the number of atoms that matched. -/
def rename (r : Registry) (id : String) (query replacement : Text) (options : MatchOptions) :
    Except EditError Nat × Registry :=
  let outcome := r.apply id (.rename query replacement options)
  (outcome.1.map fun report => report.replacements.getD 0, outcome.2)

def find (r : Registry) (id : String) (query : Text) (options : MatchOptions) :
    Except EditError (List Match) × Registry :=
  r.onSession id fun s =>
    match Matcher.ofQuery query options with
    | .ok m => (.ok (m.findAll s.document.cursor.tree), s.touch r.now)
    | .error e => (.error e, s)

def info (r : Registry) (id : String) : Except EditError SessionInfo × Registry :=
  r.onSession id fun s => (.ok (s.info r.config id), s.touch r.now)

def source (r : Registry) (id : String) : Except EditError Text × Registry :=
  r.onSession id fun s => (.ok s.document.source, s.touch r.now)

/-- Where a session is saved: at the given path, else in the file that it came from. -/
def saveTarget (target : Option String) (origin : Origin) : Option String :=
  match target, origin with
  | some path, _ => some path
  | none, .file path => some path
  | none, .text => none

/-- Save a session to its target, or give its text if it has none. -/
def save (r : Registry) (disk : Disk) (id : String) (target : Option String) :
    Except EditError Saved × Registry × Disk :=
  match r.find? id with
  | none => (.error (.unknownSession id), r, disk)
  | some s =>
    let r := r.put id (s.touch r.now)
    match saveTarget target s.document.origin with
    | none => (.ok (.text s.document.source), r, disk)
    | some path =>
      match disk.writeText path s.document.source with
      | .ok disk => (.ok (.written path), r, disk)
      | .error e => (.error (.file e), r, disk)

/-- Take over the state that a step through the history gives, if there is one. -/
def stepResult (now : Nat) (s : Session) (missing : EditError) :
    Option Session → Except EditError CommitReport × Session
  | some moved =>
    let moved := moved.touch now
    (.ok (moved.report none), moved)
  | none => (.error missing, s)

def undo (r : Registry) (id : String) : Except EditError CommitReport × Registry :=
  r.onSession id fun s => stepResult r.now s .nothingToUndo s.undo?

def redo (r : Registry) (id : String) : Except EditError CommitReport × Registry :=
  r.onSession id fun s => stepResult r.now s .nothingToRedo s.redo?

def close (r : Registry) (id : String) : Except EditError Unit × Registry :=
  match r.find? id with
  | none => (.error (.unknownSession id), r)
  | some _ => (.ok (), { r with sessions := r.sessions.filter (·.1 != id) })

/-- The names of the open sessions, sorted by code points. -/
def list (r : Registry) : List String :=
  (r.sessions.map (·.1)).mergeSort fun a b => !decide (b < a)

/-- Whether a session may be dropped: it is not held and was not used for the given time. -/
def isIdle (now timeout : Nat) (s : Session) : Bool :=
  !s.held && s.lastUsed + timeout ≤ now

/-- Drop the idle sessions, if there is a timeout, and give their names, sorted. -/
def evictIdle (r : Registry) : List String × Registry :=
  match r.config.idleTimeout with
  | none => ([], r)
  | some timeout =>
    let idle := { r with sessions := r.sessions.filter fun entry => isIdle r.now timeout entry.2 }
    (idle.list, { r with sessions := r.sessions.filter fun entry => !isIdle r.now timeout entry.2 })

end Registry

end SexprEdit
