import NetAtlas.Service.Delivery
import NetAtlas.Service.Handler

set_option autoImplicit false

/-!
# Sessions

A client sends frames and is answered each of them in order, those with an undecodable payload too,
until its stream ends or a shutdown was answered. A trap ends the session as well; what was answered
before is sent by then.
-/
namespace NetAtlas

/-- The thread that serves a client: the responses it has sent, the latest first, and the readings the
clock will give while it answers each of the payloads to come. -/
structure Session where
  collector : Collector
  clocks : Nat → Clock
  sent : List Response := []

namespace Session

/-- The answer to what a payload was decoded to. -/
def answer (settings : QuerySettings) (clock : Clock) : Option Request → Request.Answer
  | some request => request.answer settings clock
  | none => return .failed .undecodable

/-- Answers a payload and sends the response. -/
def respond (settings : QuerySettings) (request : Option Request) :
    ExceptT Trap (StateM Session) Response := fun s =>
  match answer settings (s.clocks 0) request s.collector with
  | (.ok response, collector) =>
    (.ok response, { collector, clocks := fun i => s.clocks (i + 1), sent := response :: s.sent })
  | (.error trap, collector) => (.error trap, { s with collector })

inductive Ending
  | stopped (stop : Frame.Stop)
  | shutdown
  deriving DecidableEq, Repr

/-- Reads and answers frames until none can be read or a shutdown was answered. -/
def converse {m : Type → Type} [Monad m] {α : Type} (answer : Option Request → m α) (pieces : Delivery) :
    m (List α × Ending) :=
  match _h : pieces.read with
  | .stopped stop => return ([], .stopped stop)
  | .frame payload rest => do
    let request := Request.decode? payload
    let response ← answer request
    if request = some .shutdown then return ([response], .shutdown)
    else
      let (responses, ending) ← converse answer rest
      return (response :: responses, ending)
termination_by pieces.flatten.length
decreasing_by exact Delivery.length_rest_lt _h

/-- Serves a client that sends a stream and then ends it: the responses sent to it, and the end. -/
def run (settings : QuerySettings) (clocks : Nat → Clock) (stream : Bytes) :
    StateM Collector (List Response × Except Trap Ending) := fun collector =>
  let (outcome, s) := converse (respond settings) [stream] { collector, clocks }
  ((s.sent.reverse, outcome.map (·.2)), s.collector)

end Session

end NetAtlas
