set_option autoImplicit false

/-!
# Paths

A place is named by the directory names on the way from the root. A written path is a route: it starts
at the root or at a working directory, goes down and up, and may end in a name. The name at its end
need not exist; a slash, `.` or `..` there leaves the route without one, and such a route can only
mean a directory.
-/
namespace NetAtlas

/-- The names on the way from the root. -/
abbrev Path := List String

namespace Path

/-- The octets that one name may have. -/
def maxName : Nat := 255

/-- The octets that a written path may have. -/
def maxText : Nat := 4095

inductive Step
  | down (name : String)
  | up
  deriving DecidableEq, Repr

/-- What one part of a written path asks for; an empty part and `.` ask for nothing. -/
def Step.ofText? : String → Option Step
  | "" => none
  | "." => none
  | ".." => some .up
  | name => some (.down name)

end Path

structure Route where
  fromRoot : Bool
  way : List Path.Step
  name? : Option String
  deriving DecidableEq, Repr

namespace Route

def ofText? (text : String) : Option Route :=
  if text.utf8ByteSize ≤ Path.maxText then
    let parts := text.splitOn "/"
    let fromRoot := text.startsWith "/"
    let way := parts.dropLast.filterMap Path.Step.ofText?
    some <| match parts.getLast?.bind Path.Step.ofText? with
      | some (.down name) => { fromRoot, way, name? := some name }
      | some .up => { fromRoot, way := way ++ [.up], name? := none }
      | none => { fromRoot, way, name? := none }
  else none

def start (r : Route) (directory : Path) : Path := if r.fromRoot then [] else directory

/-- All steps, the one to the name at the end among them. -/
def steps (r : Route) : List Path.Step := r.way ++ (r.name?.map Path.Step.down).toList

end Route

end NetAtlas
