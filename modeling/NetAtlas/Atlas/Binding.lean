import NetAtlas.Link.Map
import NetAtlas.Store.Registries

set_option autoImplicit false

/-!
# Binding

Both sides report a socket: the opener in the callee view, the accepter in the caller view. Binding
starts from one side's reports, looks up the other side's reports under the peer addresses, and makes
a link of each matching pair that knows both processes. A report without match makes a link whose far
end is an address alone. The traffic of a report goes into one link: that with its first match.
-/
namespace NetAtlas

open Std

namespace Binding

/-- Two reports about one socket. -/
def sameSocket (p q : Observation) : Bool := p.src = q.src ∧ p.dst = q.dst ∧ p.transport = q.transport

/-- The link of a report, from the reporter's view and with the process at the far end. -/
def linkKey (v : View) (p : Observation) (peer : Option Node) : LinkKey :=
  let own : LinkEnd := ⟨v.own p, some p.node⟩
  let far : LinkEnd := ⟨v.peer p, peer⟩
  match v with
  | .caller => ⟨far, own, p.transport, v.direction⟩
  | .callee => ⟨own, far, p.transport, v.direction⟩

/-- The matching pairs, each with the reports whose traffic it carries: a report travels with the
first report of the other side that matches it. -/
def pairs (pending answers : List Observation) : List (Observation × Observation × List Observation) :=
  answers.zipIdx.flatMap fun (q, j) =>
    (pending.zipIdx.filter fun (p, _) => sameSocket p q).map fun (p, i) =>
      (p, q, (if answers.findIdx (sameSocket p) = j then [p] else []) ++
        (if pending.findIdx (sameSocket · q) = i then [q] else []))

def unanswered (pending answers : List Observation) : List Observation :=
  pending.filter fun p => answers.all fun q => !sameSocket p q

/-- The links of one side's reports and the other side's answers. -/
def join (w : Window) (v : View) (pending answers : List Observation) : LinkMap :=
  LinkMap.ofList <|
    ((pairs pending answers).map fun (p, q, carried) =>
      (linkKey v p (some q.node), LinkValue.ofObservations w carried)) ++
    ((unanswered pending answers).map fun p =>
      (linkKey v p none, LinkValue.ofObservations w [p]))

/-- Whether a report is one of the seed's: of its agent, of its pid if it has one, and of none of the
pids to skip. -/
def admits (seed : Node) (skip : PidGroup) (p : Observation) : Bool :=
  p.agent = seed.agent ∧ (seed.hasPid → p.pid = seed.pid) ∧ p.pid ∉ skip

def peerIps (v : View) (pending : List Observation) : List Ip :=
  (ExtTreeSet.ofList (pending.map fun p => (v.peer p).ip)).toList

/-- The links of a seed at one of its local addresses, seen from one view. -/
def bind (w : Window) (v : View) (seed : Node) (skip : PidGroup) (ip : Ip) : StoreM LinkMap := do
  let pending := (← v.query ip w.range).filter (admits seed skip)
  let answers ← (peerIps v pending).mapM fun peer => v.opposite.query peer w.range
  return join w v pending answers.flatten

/-- Only the directions that have a view can be bound. -/
def bindDirection (w : Window) (d : Direction) (seed : Node) (skip : PidGroup) (ip : Ip) :
    StoreM LinkMap :=
  match View.ofDirection? d with
  | some v => bind w v seed skip ip
  | none => throw (.rejected (.unboundDirection d))

end Binding

end NetAtlas
