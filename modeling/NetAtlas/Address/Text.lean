import NetAtlas.Address.Ip

set_option autoImplicit false

/-!
# Written addresses

IPv4 is a strict dotted quad: four decimal numbers up to 255 without leading zeros. IPv6 is eight
groups of one to four hexadecimal digits. One `::` may stand for one or more zero groups, and a dotted
quad may stand for the last two groups. Printing is the canonical form: lower case, the longest run of
at least two zero groups shortened, a quad only for mapped IPv4 addresses.
-/
namespace NetAtlas

namespace Ip

/-- The parts of a text between separators; a text without one is a single part. -/
def splitAtEach (sep : Char) : List Char → List (List Char)
  | [] => [[]]
  | c :: cs =>
    if c = sep then [] :: splitAtEach sep cs
    else match splitAtEach sep cs with
      | [] => [[c]]
      | part :: parts => (c :: part) :: parts

/-- The texts before and after the first `::`. -/
def splitAtGap? : List Char → Option (List Char × List Char)
  | ':' :: ':' :: cs => some ([], cs)
  | c :: cs => (splitAtGap? cs).map fun (head, tail) => (c :: head, tail)
  | [] => none

def digit? (base : Nat) (c : Char) : Option Nat :=
  let value :=
    if '0' ≤ c ∧ c ≤ '9' then c.toNat - '0'.toNat
    else if 'a' ≤ c ∧ c ≤ 'z' then c.toNat - 'a'.toNat + 10
    else if 'A' ≤ c ∧ c ≤ 'Z' then c.toNat - 'A'.toNat + 10
    else base
  if value < base then some value else none

/-- The number written by one to `maxLength` digits. -/
def number? (base maxLength : Nat) (cs : List Char) : Option Nat :=
  if cs = [] ∨ maxLength < cs.length then none
  else (cs.mapM (digit? base)).map fun digits => digits.foldl (fun n d => n * base + d) 0

def octet? (cs : List Char) : Option Nat :=
  if 1 < cs.length ∧ cs.head? = some '0' then none
  else (number? 10 3 cs).filter (· < 256)

/-- The four numbers of a dotted quad. -/
def quad? (cs : List Char) : Option (List Nat) :=
  let parts := splitAtEach '.' cs
  if parts.length = 4 then parts.mapM octet? else none

def group? (cs : List Char) : Option Nat := number? 16 4 cs

/-- Groups between colons; the last part may be a quad. -/
def groups? : List (List Char) → Option (List Nat)
  | [] => some []
  | [part] =>
    match quad? part with
    | some [a, b, c, d] => some [a * 256 + b, c * 256 + d]
    | _ => (group? part).map ([·])
  | part :: parts => do return (← group? part) :: (← groups? parts)

/-- The groups after a gap, or all groups; an empty text has none. -/
def tailGroups? (cs : List Char) : Option (List Nat) :=
  if cs = [] then some [] else groups? (splitAtEach ':' cs)

/-- The groups before a gap: no quad among them. -/
def headGroups? (cs : List Char) : Option (List Nat) :=
  if cs = [] then some [] else (splitAtEach ':' cs).mapM group?

def allGroups? (cs : List Char) : Option (List Nat) :=
  match splitAtGap? cs with
  | none => (tailGroups? cs).filter (·.length = 8)
  | some (head, tail) => do
    let front ← headGroups? head
    let back ← tailGroups? tail
    if front.length + back.length ≤ 7 then
      return front ++ List.replicate (8 - front.length - back.length) 0 ++ back
    else none

def ofGroups? (groups : List Nat) : Option Ip :=
  ofOctets? .v6 (groups.flatMap (Bytes.bigEndian 2))

def parse? (text : String) : Option Ip :=
  let cs := text.toList
  match quad? cs with
  | some octets => ofOctets? .v4 (octets.map UInt8.ofNat)
  | none => (allGroups? cs).bind ofGroups?

def quadText (octets : Bytes) : String := ".".intercalate (octets.map fun b => toString b.toNat)

/-- Octets taken two by two. -/
def pairs : Bytes → List Nat
  | a :: b :: rest => (a.toNat * 256 + b.toNat) :: pairs rest
  | _ => []

/-- Where the longest run of zeros starts and how long it is; the first of equal ones. -/
def zeroRun (groups : List Nat) : Nat × Nat :=
  let runs := (List.range groups.length).map fun i => (i, ((groups.drop i).takeWhile (· = 0)).length)
  runs.foldl (fun best run => if best.2 < run.2 then run else best) (0, 0)

def groupsText (groups : List Nat) : String :=
  ":".intercalate (groups.map fun n => String.ofList (Nat.toDigits 16 n))

def sixText (octets : Bytes) : String :=
  let groups := pairs octets
  if groups.take 6 = [0, 0, 0, 0, 0, 0xffff] then "::ffff:" ++ quadText (octets.drop 12)
  else
    let (start, length) := zeroRun groups
    if 2 ≤ length then groupsText (groups.take start) ++ "::" ++ groupsText (groups.drop (start + length))
    else groupsText groups

def text (ip : Ip) : String :=
  match ip.family with
  | .v4 => quadText ip.octets
  | .v6 => sixText ip.octets

end Ip

end NetAtlas
