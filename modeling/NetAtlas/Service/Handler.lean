import NetAtlas.Atlas.Query
import NetAtlas.Collector.Basic
import NetAtlas.Service.Request
import NetAtlas.Service.Response

set_option autoImplicit false

/-!
# Answering requests

Reports are checked as a whole before the first one is stored; if the storage then fails, the answer
tells how many were stored. Selections change nothing. A shutdown writes out what is buffered as far
as the storage lets it.
-/
namespace NetAtlas

namespace Request

/-- Answers a request. A trap ends the thread before it has answered. -/
abbrev Answer := ExceptT Trap (StateM Collector) Response

/-- The answer to an action's outcome. -/
def answerWith {α : Type} (respond : α → Response) (action : CollectM α) : Answer := do
  match ← action.run with
  | .ok a => return respond a
  | .error e => return .failed (.failed e)

/-- Stores reports until one fails, each with two readings of the clock; `stored` of `total` were stored
before. -/
def storeReports (clock : Clock) (total : Nat) : Nat → List Observation → Answer
  | stored, [] => return .count stored
  | stored, o :: os => do
    match ← (Collector.report (clock 0) (clock 1) o).run with
    | .ok () => storeReports (clock.after 2) total (stored + 1) os
    | .error e => return .failed (.interrupted stored total e)

/-- Writes out the pids that are ready. -/
def flush (clock : Clock) : Answer := do
  match ← (Collector.flushPids64 clock).run with
  | .ok n => return .count n
  | .error (.failed e) => return .failed (.failed e)
  | .error (.trapped t) => throw t

/-- Answers a selection over a range of time. -/
def select {α : Type} (respond : α → Response) (first last : Int64) (query : TimeRange → StoreM α) :
    Answer :=
  answerWith respond (Collector.stored do query (← StoreM.reject (TimeRange.make first last)))

/-- Writes out all buffered pids, then the storage. Neither waits for the other to succeed. -/
def writeOut : StateM Collector Unit := do
  discard Collector.flushAllPids.run
  discard (Collector.stored StoreM.flush).run

def answer (settings : QuerySettings) (clock : Clock) : Request → Answer
  | reportConnections reports =>
    match reports.mapM Report.observe with
    | .ok os => storeReports clock os.length 0 os
    | .error reason => return .failed (.refused reason)
  | reportLocalAddresses agent addresses =>
    match addresses.mapM Report.address with
    | .ok ips => answerWith (fun _ => .done) (Collector.reportAddresses (clock 0) agent ips)
    | .error reason => return .failed (.refused reason)
  | selectConnectionMap agent first last callerDepth calleeDepth =>
    select .atlas first last fun range =>
      Query.atlas settings settings.sampler agent range callerDepth calleeDepth
  | selectLocalAddresses agent first last => select .addresses first last (Query.localAddresses agent)
  | selectPids agent first last => select .pids first last (Query.pids agent)
  | selectLocalLinks agent first last =>
    select .links first last (Query.localLinks settings.sampler agent)
  | flushPids => flush clock
  | ping => return .pong
  | shutdown => do
    writeOut
    return .done

end Request

end NetAtlas
