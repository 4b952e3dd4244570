import NetAtlas.Bytes.Utf8

set_option autoImplicit false

/-!
# Store formats

A store is written in a format, and a file beside it names the format: a line for each setting, with a
colon and a blank between its name and its value, and a checksum behind the lines. Of two lines for one
setting the later counts, and whatever stands behind another colon and blank is not looked at.
-/
namespace NetAtlas

structure StoreFormat where
  segmentSize : Nat
  isCompressed : Bool
  major : Nat
  minor : Nat
  deriving DecidableEq, Repr

namespace StoreFormat

/-- The format that stores are written in. -/
def current : StoreFormat := ⟨524288, false, 0, 34⟩

/-! ## Writing -/

def text (f : StoreFormat) : String :=
  s!"segment_size: {f.segmentSize}\nuse_compression: {f.isCompressed}\nversion: {f.major}.{f.minor}\n"

def checksumSize : Nat := 4

def encode (f : StoreFormat) : Bytes := Utf8.encode f.text ++ List.replicate checksumSize 0

/-! ## Reading -/

/-- A number in decimal digits. -/
def digits? (ds : List Char) : Option Nat :=
  if ds.isEmpty || !ds.all Char.isDigit then none
  else some (ds.foldl (fun n d => n * 10 + (d.toNat - '0'.toNat)) 0)

/-- A plus may stand before the digits. -/
def natural? (text : String) : Option Nat :=
  match text.toList with
  | '+' :: ds => digits? ds
  | ds => digits? ds

def truth? : String → Option Bool
  | "true" => some true
  | "false" => some false
  | _ => none

/-- The first two of the numbers between dots. -/
def version? (text : String) : Option (Nat × Nat) :=
  match text.splitOn "." with
  | major :: minor :: _ => do return (← natural? major, ← natural? minor)
  | _ => none

/-- A line feed ends a line, and a carriage return before it belongs to it. The last line may lack
both. -/
def lines (text : String) : List String :=
  let parts := text.splitOn "\n"
  let ended := parts.dropLast.map fun line =>
    if line.endsWith "\r" then String.ofList line.toList.dropLast else line
  ended ++ parts.getLast?.toList.filter (· ≠ "")

def setting? (line : String) : Option (String × String) :=
  match line.splitOn ": " with
  | name :: v :: _ => some (name, v)
  | _ => none

def ofText? (text : String) : Option StoreFormat := do
  let settings ← (lines text).mapM setting?
  let find (name : String) : Option String := settings.reverse.lookup name
  let segmentSize ← (← find "segment_size") |> natural?
  let isCompressed ← (← find "use_compression") |> truth?
  let (major, minor) ← (← find "version") |> version?
  return { segmentSize, isCompressed, major, minor }

/-- The format that a file names. The checksum at its end is not looked at. -/
def decode? (content : Bytes) : Option StoreFormat :=
  match Utf8.decode (content.take (content.length - checksumSize)) with
  | .ok text => ofText? text
  | .error _ => none

end StoreFormat

end NetAtlas
