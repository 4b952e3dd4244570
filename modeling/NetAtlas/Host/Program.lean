import NetAtlas.Host.Arguments
import NetAtlas.Host.StoreDirectory
import NetAtlas.Service.Session
import NetAtlas.Settings.Document

set_option autoImplicit false

/-!
# The program on its host

A start goes through its steps in order: settings, whatever file is in the socket's place, store,
socket. The first step that fails ends it and undoes nothing but the opening of the store. A program
that serves writes out what it has buffered before it leaves.
-/
namespace NetAtlas

/-- What a program finds when it starts: files, its working directory and the settings file that the
environment names. -/
structure Host where
  files : Files
  directory : Path
  settingsFile : Option String

/-- A program that serves. Its next timed flush is due at `flushAt`, and never if a trap has ended the
thread that flushes. -/
structure Program where
  settings : Settings
  database : Path
  socket : Path
  collector : Collector
  now : Int64
  flushAt : Option Int

namespace Program

/-- Why a start fails. -/
inductive Fault
  | noArguments
  | settings (fault : Settings.Fault)
  | store
  | socket
  deriving DecidableEq, Repr

def Fault.message : Fault → String
  | noArguments => Options.usage
  | settings _ => "Failed to load configuration"
  | store => "Failed to open store"
  | socket => "Failed to bind socket"

/-- Why the settings are at fault, where they can be read. -/
def Fault.cause? : Fault → Option String
  | settings (.rejected reason) => some (Error.rejected reason).message
  | _ => none

/-- The settings that the arguments or else the environment name. -/
def loadSettings (files : String → Option Bytes) (environment : Option String) (o : Options) :
    Except Settings.Fault Settings :=
  match o.config with
  | some path => Settings.load (files path)
  | none => Settings.ofEnvironment files environment

def flushTime (now : Int64) (settings : Settings) : Int :=
  now.toInt + settings.collector.pidFlushInterval.toNat

/-- Changes the files of the host. -/
def onFiles {α : Type} (fault : Fault) (change : FilesM α) : ExceptT Fault (StateM Host) α := fun h =>
  let (answer, files) := change.run h.files
  (answer.elim (.error fault) .ok, { h with files })

def start (now : Int64) (args : List String) : ExceptT Fault (StateM Host) Program := do
  let some options := Options.ofArguments? args | throw .noArguments
  let h ← get
  let settings ← match loadSettings (h.files.read h.directory) h.settingsFile options with
    | .ok settings => pure settings
    | .error fault => throw (.settings fault)
  if let some p := h.files.place? h.directory options.socket then
    set { h with files := h.files.remove p }
  let (database, contents) ← onFiles .store (StoreDirectory.openStore h.directory options.database)
  let socket ← tryCatch (onFiles .socket (Files.bind h.directory options.socket)) fun fault => do
    modify fun h => { h with files := StoreDirectory.closeStore h.files database contents false }
    throw fault
  let storage : Storage := { contents := .packed contents }
  return {
    settings, database, socket, now
    collector := Collector.start settings.collector storage
    flushAt := some (flushTime now settings) }

/-- Serves a client that sends a stream and then ends it. -/
def serve (p : Program) (stream : Bytes) : List Response × Except Trap Session.Ending × Program :=
  let ((responses, ending), collector) :=
    Session.run p.settings.query (fun _ => .still p.now) stream p.collector
  (responses, ending, { p with collector })

/-- The timed flush goes over all slots that are ready; if it fails, the next one tries again. -/
def flush (p : Program) : Program :=
  let (outcome, collector) := Collector.flushPids64 (.still p.now) p.collector
  let next := match outcome with
    | .error (.trapped _) => none
    | _ => some (flushTime p.now p.settings)
  { p with collector, flushAt := next }

/-- Lets time pass, and flushes if that is due by then. -/
def wait (p : Program) (milliseconds : Int64) : Program :=
  let p := { p with now := p.now + milliseconds }
  if p.flushAt.any (· ≤ p.now.toInt) then p.flush else p

/-- Writes out what is buffered, as a signal asks for. -/
def writeOut (p : Program) : Program := { p with collector := (Request.writeOut p.collector).2 }

/-- The files a program leaves behind. -/
def leave (p : Program) (files : Files) : Files :=
  let files := files.remove p.socket
  match p.collector.storage.contents with
  | .packed contents =>
    StoreDirectory.closeStore files p.database contents (p.collector.storage.calls.any Call.isPut)
  | .memory _ => files

end Program

end NetAtlas
