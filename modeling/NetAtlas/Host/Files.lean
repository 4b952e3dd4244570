import NetAtlas.Host.Path
import NetAtlas.Store.Packed

set_option autoImplicit false

/-!
# Files

What stands at the paths of a host. A written path is walked from left to right, and every name on its
way has to be a directory, also before a step up. A change may fail half-way; what it changed before
that stays.
-/
namespace NetAtlas

namespace Files

/-- The rows of a store are open in one process at a time. They are summarised until they are put to. -/
structure Rows where
  contents : Packed
  isOpen : Bool := false
  isSummarised : Bool := false

inductive Item
  | file (content : Bytes)
  | socket
  | directory
  | rows (rows : Rows)
  | summary

end Files

structure Files where
  entries : List (Path × Files.Item)

abbrev FilesM (α : Type) := OptionT (StateM Files) α

namespace Files

/-- The root alone. -/
def root : Files := ⟨[([], .directory)]⟩

def item? (fs : Files) (p : Path) : Option Item := fs.entries.lookup p

def erase (fs : Files) (p : Path) : Files := ⟨fs.entries.filter (·.1 ≠ p)⟩

def set (fs : Files) (p : Path) (item : Item) : Files := ⟨(p, item) :: (fs.erase p).entries⟩

def isDirectory (fs : Files) (p : Path) : Bool :=
  match fs.item? p with
  | some .directory => true
  | _ => false

/-- The names in a directory. -/
def names (fs : Files) (p : Path) : List String :=
  fs.entries.filterMap fun (q, _) => if q.dropLast = p then q.getLast? else none

/-! ## Finding -/

/-- Where steps lead. -/
def walk (fs : Files) : Path → List Path.Step → Option Path
  | p, [] => some p
  | p, .up :: steps => walk fs p.dropLast steps
  | p, .down name :: steps => if fs.isDirectory (p ++ [name]) then walk fs (p ++ [name]) steps else none

/-- The place of the name at the end of a written path, whether something stands there or not. -/
def place? (fs : Files) (directory : Path) (text : String) : Option Path := do
  let r ← Route.ofText? text
  let p ← fs.walk (r.start directory) r.way
  let name ← r.name?
  return p ++ [name]

def find? (fs : Files) (directory : Path) (text : String) : Option Item := do
  let r ← Route.ofText? text
  let p ← fs.walk (r.start directory) r.way
  fs.item? (p ++ r.name?.toList)

def read (fs : Files) (directory : Path) (text : String) : Option Bytes :=
  match fs.find? directory text with
  | some (.file content) => some content
  | _ => none

/-! ## Changing -/

/-- Removes what stands in a place and leaves a directory alone. -/
def remove (fs : Files) (p : Path) : Files := if fs.isDirectory p then fs else fs.erase p

/-- Goes steps and makes the directories that are missing. A step fails at anything but a directory and
at a new name that is too long. -/
def makeDirectories : Path → List Path.Step → FilesM Path
  | p, [] => return p
  | p, .up :: steps => makeDirectories p.dropLast steps
  | p, .down name :: steps => do
    let q := p ++ [name]
    match (← get).item? q with
    | some .directory => makeDirectories q steps
    | some _ => failure
    | none =>
      guard (name.utf8ByteSize ≤ Path.maxName)
      modify (·.set q .directory)
      makeDirectories q steps

/-- Writes over the front of a file, a new one where there is none; what stood behind it stays. -/
def write (p : Path) (content : Bytes) : FilesM Unit := do
  match (← get).item? p with
  | none => modify (·.set p (.file content))
  | some (.file old) => modify (·.set p (.file (content ++ old.drop content.length)))
  | some _ => failure

/-- The octets that the written path of a socket may have. -/
def maxSocketText : Nat := 107

/-- Puts a socket at a free place; answers the place. -/
def bind (directory : Path) (text : String) : FilesM Path := do
  guard (text.utf8ByteSize ≤ maxSocketText)
  let fs ← get
  let some p := fs.place? directory text | failure
  guard (fs.item? p).isNone
  modify (·.set p .socket)
  return p

end Files

end NetAtlas
