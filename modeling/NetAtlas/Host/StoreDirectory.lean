import NetAtlas.Host.Files
import NetAtlas.Host.StoreFormat

set_option autoImplicit false

/-!
# The directory of a store

A store has a directory of its own. `conf` says how it is written, `db` holds its rows as a log, `blobs`
what is too large for the log, and `snap.` files summarise the log, named for the position in it up to
which they do. An opening takes one step after another, and the first that fails ends it.
-/
namespace NetAtlas

namespace StoreDirectory

open Files (Item)

/-- A written path that goes on with a name. -/
def inside (text name : String) : String :=
  if text = "" ∨ text.endsWith "/" then text ++ name else text ++ "/" ++ name

/-- Fails unless a name in the directory can be written. -/
def requireRoom (text name : String) : FilesM Unit :=
  guard ((inside text name).utf8ByteSize ≤ Path.maxText)

/-! ## Directories -/

/-- Makes the directory and the one for blobs in it, unless something stands there already. -/
def make (directory : Path) (text : String) : FilesM Path := do
  let some r := Route.ofText? text | failure
  requireRoom text "blobs"
  let p ← Files.makeDirectories (r.start directory) r.steps
  let blobs := p ++ ["blobs"]
  if ((← get).item? blobs).isNone then modify (·.set blobs .directory)
  return p

/-! ## Format -/

/-- A format file of so many octets or fewer counts as missing. -/
def minFormatFile : Nat := 8

/-- Checks the format, and writes it if there is none. -/
def checkFormat (p : Path) : FilesM Unit := do
  let conf := p ++ ["conf"]
  let writeFormat := Files.write conf StoreFormat.current.encode
  match (← get).item? conf with
  | none => writeFormat
  | some (.file content) =>
    if content.length ≤ minFormatFile then writeFormat
    else guard (StoreFormat.decode? content = some .current)
  | some _ => failure

/-! ## Rows -/

/-- Takes the rows for this process, `none` where there are none yet. -/
def lock (p : Path) : FilesM (Option Files.Rows) := do
  match (← get).item? (p ++ ["db"]) with
  | none =>
    modify (·.set (p ++ ["db"]) (.file []))
    return none
  | some (.file _) => return none
  | some (.rows rows) => if rows.isOpen then failure else return some rows
  | some _ => failure

/-- About how far the log of rows goes. -/
def logEnd (contents : Packed) : Nat :=
  contents.trees.toList.foldl (fun n (name, tree) =>
    tree.toList.foldl (fun n (key, bytes) => n + key.length + bytes.length + 32)
      (n + name.utf8ByteSize + 128)) 256

/-! ## Summaries -/

def isSummaryName (name : String) : Bool := name.startsWith "snap." && !name.endsWith ".in___motion"

/-- The parts of the directory's path from the root as it is written. One slash may end it. -/
def writtenParts (directory : Path) (text : String) : List String :=
  let parts :=
    (if text.startsWith "/" then text else inside ("/" ++ "/".intercalate directory) text).splitOn "/"
  if parts.getLast? = some "" then parts.dropLast else parts

/-- Empty parts and `.` are dropped from the end of a path. -/
def trimmed (parts : List String) : List String :=
  (parts.reverse.dropWhile fun part => part = "" || part = ".").reverse

/-- The names of the summaries that are seen. They are looked for by the directory's written path: it
must not be too long, and an empty part or `.` at its end hides them. -/
def summaryNames (p : Path) (directory : Path) (text : String) : FilesM (List String) := do
  let parts := writtenParts directory text
  guard (("/".intercalate (trimmed parts)).utf8ByteSize ≤ Path.maxText)
  if parts = [""] || trimmed parts = parts then return ((← get).names p).filter isSummaryName
  else return []

/-- The last name in the order of text. -/
def last? (names : List String) : Option String := (names.mergeSort (· ≤ ·)).getLast?

/-- The last summary counts. Fails if it is not one. -/
def hasSummary (p : Path) (directory : Path) (text : String) : FilesM Bool := do
  match last? (← summaryNames p directory text) with
  | none => return false
  | some name =>
    match (← get).item? (p ++ [name]) with
    | some .summary => return true
    | _ => failure

def hexDigits (n : Nat) : String :=
  let ds := (Nat.toDigits 16 n).map Char.toUpper
  String.ofList (List.replicate (16 - ds.length) '0' ++ ds)

/-- Writes a summary of rows and removes the files of older ones. -/
def summarise (p : Path) (directory : Path) (text : String) (rows : Files.Rows) : FilesM Unit := do
  let name := "snap." ++ hexDigits (logEnd rows.contents)
  requireRoom text (name ++ ".generating")
  guard (!(← get).isDirectory (p ++ [name]))
  modify (·.set (p ++ [name]) .summary)
  modify (·.set (p ++ ["db"]) (.rows { rows with isSummarised := true }))
  let older := (← summaryNames p directory text).filter (· ≠ name)
  modify fun fs => older.foldl (fun fs old => fs.remove (p ++ [old])) fs

/-! ## Blobs -/

/-- The log position a blob is named for. -/
def position? (name : String) : Option Int := do
  let n : Int ← match name.toList with
    | '-' :: ds => (- ·) <$> (StoreFormat.digits? ds).map Int.ofNat
    | _ => (StoreFormat.natural? name).map Int.ofNat
  guard (-0x8000000000000000 ≤ n ∧ n < 0x8000000000000000)
  return n

/-- Removes the blobs that the log does not reach. A directory cannot be removed. -/
def removeBlobs (p : Path) (reach : Nat) : FilesM Unit := do
  let blobs := p ++ ["blobs"]
  let fs ← get
  guard (fs.isDirectory blobs)
  let late := (fs.names blobs).filter fun name => (position? name).any fun n => (reach : Int) < n
  late.forM fun name => do
    guard (!(← get).isDirectory (blobs ++ [name]))
    modify (·.erase (blobs ++ [name]))

/-! ## Opening and closing -/

/-- Opens the store in a directory, a new one where there is none; answers the directory and the
rows. A summary without rows is of no use, and rows that did not change since the last one need no
other. -/
def openStore (directory : Path) (text : String) : FilesM (Path × Packed) := do
  let p ← make directory text
  checkFormat p
  let found ← lock p
  let isSeen ← hasSummary p directory text
  match found with
  | none =>
    guard (!isSeen)
    modify (·.set (p ++ ["db"]) (.rows { contents := Packed.empty, isOpen := true }))
    return (p, Packed.empty)
  | some rows => do
    unless isSeen && rows.isSummarised do summarise p directory text rows
    removeBlobs p (logEnd rows.contents)
    modify (·.set (p ++ ["db"]) (.rows { rows with isOpen := true, isSummarised := true }))
    return (p, rows.contents)

/-- Closes a store, whose rows may have been put to. If they were removed while it was open, they are
lost. -/
def closeStore (fs : Files) (p : Path) (contents : Packed) (isChanged : Bool) : Files :=
  match fs.item? (p ++ ["db"]) with
  | some (.rows rows) =>
    if rows.isOpen then
      let isSummarised := rows.isSummarised && !isChanged
      fs.set (p ++ ["db"]) (.rows { contents, isSummarised })
    else fs
  | _ => fs

end StoreDirectory

end NetAtlas
