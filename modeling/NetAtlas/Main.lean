import NetAtlas.Host.Program
import NetAtlas.Store.Snapshot
import Std.Time.DateTime.Timestamp

set_option autoImplicit false

/-!
# Command line program

Serves the client on the standard streams; a listener on a socket starts it with a connection in
their place. The store is read from a snapshot in the directory that the first argument names, and
written back when the client is gone or asks for a shutdown.
-/
namespace NetAtlas

namespace CommandLine

def clock : IO Int64 := do
  return Int64.ofInt (← Std.Time.Timestamp.now).toMillisecondsSinceUnixEpoch.val

def readFile? (path : String) : IO (Option Bytes) := do
  try return some (← IO.FS.readBinFile path).data.toList
  catch _ => return none

def loadSettings (options : Options) : IO (Except Settings.Fault Settings) := do
  let environment ← IO.getEnv "CONNMAP_CONFIG"
  let file ← readFile? ((options.config <|> environment).getD "")
  return Program.loadSettings (fun _ => file) environment options

def snapshotPath (database : String) : String := database ++ "/snapshot"

def openStore (database : String) : IO (Option Packed) := do
  try
    IO.FS.createDirAll database
    match ← readFile? (snapshotPath database) with
    | some bs => return Packed.ofSnapshot? bs
    | none => return some .empty
  catch _ => return none

def saveStore (database : String) (storage : Storage) : IO Unit := do
  if let .packed p := storage.contents then
    IO.FS.writeBinFile (snapshotPath database) ⟨p.toSnapshot.toArray⟩

/-- Answers frames as they come in, until the stream or the session ends. -/
partial def serve (settings : Settings) (c : Collector) (pending : Bytes) : IO Collector := do
  match Frame.front pending with
  | .stopped .oversized => return c
  | .frame payload rest => do
    let request := Request.decode? payload
    match Session.answer settings.query (.still (← clock)) request c with
    | (.error _, c) => return c
    | (.ok response, c) => do
      let out ← IO.getStdout
      out.write ⟨(Frame.encode response.encode).toArray⟩
      out.flush
      if request = some .shutdown then return c else serve settings c rest
  | _ => do
    let more ← (← IO.getStdin).read 65536
    if more.isEmpty then return c else serve settings c (pending ++ more.data.toList)

def fail : Program.Fault → IO UInt32
  | .noArguments => do
    IO.eprint Options.usage
    return 1
  | fault => do
    IO.eprintln (": ".intercalate (fault.message :: fault.cause?.toList))
    return 1

def run (args : List String) : IO UInt32 := do
  let some options := Options.ofArguments? args | fail .noArguments
  match ← loadSettings options with
  | .error fault => fail (.settings fault)
  | .ok settings =>
    let some contents ← openStore options.database | fail .store
    let c := Collector.start settings.collector { contents := .packed contents }
    let c ← serve settings c []
    saveStore options.database (Request.writeOut c).2.storage
    return 0

end CommandLine

end NetAtlas

def main (args : List String) : IO UInt32 := NetAtlas.CommandLine.run args
