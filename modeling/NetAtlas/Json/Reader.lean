import NetAtlas.Json.Basic

set_option autoImplicit false

/-!
# Reading JSON

The strict grammar: one value, blanks around every token, no comments, no trailing commas, no leading
zeros, no control characters inside strings.
-/
namespace NetAtlas

namespace Json

/-- Takes a value off the front of a text. -/
abbrev Parse := StateT (List Char) Option

namespace Parse

def isBlank (c : Char) : Bool := c = ' ' ∨ c = '\t' ∨ c = '\n' ∨ c = '\r'

def blanks : Parse Unit := modify (·.dropWhile isBlank)

/-- Takes the next character only if it is one of some class, and tells whether it was. -/
def acceptIf (p : Char → Bool) : Parse Bool := fun cs =>
  match cs with
  | c :: rest => if p c then some (true, rest) else some (false, cs)
  | [] => some (false, [])

def accept (c : Char) : Parse Bool := acceptIf (· = c)

def exactly : List Char → Parse Unit
  | [] => return ()
  | c :: cs => do if ← accept c then exactly cs else failure

/-! ### Numbers -/

def digits : Parse (List Char) := fun cs => some (cs.takeWhile Char.isDigit, cs.dropWhile Char.isDigit)

/-- At least one digit. -/
def someDigits : Parse Unit := do if (← digits).isEmpty then failure

def fraction : Parse Bool := do
  if ← accept '.' then
    someDigits
    return true
  else return false

def exponent : Parse Bool := do
  if ← acceptIf fun c => c = 'e' ∨ c = 'E' then
    discard (acceptIf fun c => c = '+' ∨ c = '-')
    someDigits
    return true
  else return false

def decimal (ds : List Char) : Nat := ds.foldl (fun n d => n * 10 + (d.toNat - '0'.toNat)) 0

/-- The digits an integer may have; with more of them a number is only a number. -/
def maxDigits : Nat := 20

def number : Parse Json := do
  let negative ← accept '-'
  let ds ← digits
  if ds.isEmpty || (ds.head? = some '0' && 1 < ds.length) then failure
  let hasFraction ← fraction
  let hasExponent ← exponent
  if hasFraction || hasExponent || maxDigits < ds.length then return .number
  let n := decimal ds
  if negative && n = 0 then return .number
  else return .integer (if negative then -n else n)

/-! ### Strings -/

/-- A character of a string, or the number an escape gives for one or for half of one. -/
inductive Piece
  | plain (c : Char)
  | unit (n : Nat)
  deriving DecidableEq, Repr

def hexDigit? (c : Char) : Option Nat :=
  if '0' ≤ c ∧ c ≤ '9' then some (c.toNat - '0'.toNat)
  else if 'a' ≤ c ∧ c ≤ 'f' then some (c.toNat - 'a'.toNat + 10)
  else if 'A' ≤ c ∧ c ≤ 'F' then some (c.toNat - 'A'.toNat + 10)
  else none

def hexNumber? (cs : List Char) : Option Nat := do
  return (← cs.mapM hexDigit?).foldl (fun n d => n * 16 + d) 0

def escaped? : Char → Option Char
  | '"' => some '"'
  | '\\' => some '\\'
  | '/' => some '/'
  | 'b' => some '\x08'
  | 'f' => some '\x0c'
  | 'n' => some '\n'
  | 'r' => some '\r'
  | 't' => some '\t'
  | _ => none

/-- The pieces up to the closing quote. -/
def pieces : List Char → Option (List Piece × List Char)
  | [] => none
  | '"' :: cs => some ([], cs)
  | '\\' :: 'u' :: a :: b :: c :: d :: cs => do
    let n ← hexNumber? [a, b, c, d]
    let (ps, rest) ← pieces cs
    return (.unit n :: ps, rest)
  | '\\' :: c :: cs => do
    let e ← escaped? c
    let (ps, rest) ← pieces cs
    return (.plain e :: ps, rest)
  | c :: cs => do
    if c < ' ' then failure
    let (ps, rest) ← pieces cs
    return (.plain c :: ps, rest)

def isHighHalf (n : Nat) : Bool := 0xD800 ≤ n && n < 0xDC00

def isLowHalf (n : Nat) : Bool := 0xDC00 ≤ n && n < 0xE000

/-- Pieces as text. Two halves make a character, a half on its own makes none. -/
def join? : List Piece → Option (List Char)
  | [] => some []
  | .plain c :: ps => (c :: ·) <$> join? ps
  | .unit high :: .unit low :: ps =>
    if isHighHalf high && isLowHalf low then
      (Char.ofNat (0x10000 + (high - 0xD800) * 0x400 + (low - 0xDC00)) :: ·) <$> join? ps
    else if isHighHalf high || isLowHalf high then none
    else (Char.ofNat high :: ·) <$> join? (.unit low :: ps)
  | .unit n :: ps => if isHighHalf n || isLowHalf n then none else (Char.ofNat n :: ·) <$> join? ps

/-- A string after its opening quote. -/
def text : Parse (Option String) := fun cs => do
  let (ps, rest) ← pieces cs
  return (String.ofList <$> join? ps, rest)

/-! ### Values -/

/-- Items between commas up to a closing character, `fuel` of them at most. -/
def items {α : Type} (item : Parse α) (close : Char) : Nat → Parse (List α)
  | 0 => failure
  | fuel + 1 => do
    let a ← item
    blanks
    if ← accept ',' then return a :: (← items item close fuel)
    else if ← accept close then return [a]
    else failure

/-- What stands behind an opening character. -/
def enclosed {α : Type} (item : Parse α) (close : Char) (fuel : Nat) : Parse (List α) := do
  blanks
  if ← accept close then return [] else items item close fuel

def member (value : Parse Json) : Parse (Option String × Json) := do
  blanks
  exactly ['"']
  let key ← text
  blanks
  exactly [':']
  return (key, ← value)

/-- A value with fewer than `fuel` arrays and objects around each other and fewer than `fuel` items in
each. -/
def value : Nat → Parse Json
  | 0 => failure
  | fuel + 1 => do
    blanks
    match (← get).head? with
    | some '[' =>
      modify List.tail
      return .array (← enclosed (value fuel) ']' fuel)
    | some '{' =>
      modify List.tail
      return .object (← enclosed (member (value fuel)) '}' fuel)
    | some '"' =>
      modify List.tail
      return .string (← text)
    | some 'n' => exactly "null".toList; return .null
    | some 't' => exactly "true".toList; return .bool true
    | some 'f' => exactly "false".toList; return .bool false
    | _ => number

end Parse

/-- The value a document holds. Every array, object and item takes a character, so the length bounds
how many there are. -/
def parse? (document : String) : Option Json :=
  match (Parse.value (document.toList.length + 1) <* Parse.blanks).run document.toList with
  | some (v, []) => some v
  | _ => none

end Json

end NetAtlas
