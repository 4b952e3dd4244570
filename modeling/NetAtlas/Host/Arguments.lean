set_option autoImplicit false

/-!
# Command line

The first argument names the store, whatever it looks like. An option is looked for among all
arguments; its first occurrence counts and the argument after it is its value.
-/
namespace NetAtlas

/-- The argument after the first one of this name. -/
def argument? (name : String) : List String → Option String
  | [] => none
  | arg :: args => if arg = name then args.head? else argument? name args

structure Options where
  database : String
  socket : String
  config : Option String
  deriving DecidableEq, Repr

namespace Options

def defaultSocket : String := "/tmp/connmap.sock"

/-- Without arguments there is nothing to start. -/
def ofArguments? : List String → Option Options
  | [] => none
  | database :: args => some {
      database
      socket := (argument? "--socket" (database :: args)).getD defaultSocket
      config := argument? "--config" (database :: args) }

def usage : String :=
  "Usage: connmap-server <db-path> [--socket <socket-path>] [--config <config.json>]\n" ++
  "\n" ++
  "Arguments:\n" ++
  "  <db-path>      Path to the connection store directory\n" ++
  s!"  --socket       Unix socket path (default: {defaultSocket})\n" ++
  "  --config       JSON config file (default: $CONNMAP_CONFIG or built-in defaults)\n"

end Options

end NetAtlas
