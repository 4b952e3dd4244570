import NetAtlas.Atlas.Query
import NetAtlas.Proofs.Atlas.Rounds

set_option autoImplicit false

/-!
# Questions while the storage fails

Each question scans, and nothing else. If every scan is answered, its answer is the one it has without
failures; it breaks off at the first scan that is not. There are no answers in between, and what is
stored stays as it is.
-/
namespace NetAtlas

open StoreM

/-- What can be asked, by the kind of the answer. -/
inductive Question : Type → Type
  | atlas (settings : QuerySettings) (sampler : Sampler) (agent : String) (range : TimeRange)
      (callerDepth calleeDepth : Nat) : Question Atlas
  | localLinks (sampler : Sampler) (agent : String) (range : TimeRange) : Question (List Link)
  | pids (agent : String) (range : TimeRange) : Question (List Int32)
  | localAddresses (agent : String) (range : TimeRange) : Question (List Ip)

namespace Question

variable {α : Type}

def ask : Question α → StoreM α
  | atlas settings sampler agent range callerDepth calleeDepth =>
    Query.atlas settings sampler agent range callerDepth calleeDepth
  | localLinks sampler agent range => Query.localLinks sampler agent range
  | pids agent range => Query.pids agent range
  | localAddresses agent range => Query.localAddresses agent range

theorem reading_ask (q : Question α) : Reading q.ask := by
  cases q with
  | atlas settings sampler agent range callerDepth calleeDepth =>
    rw [ask, Query.atlas]
    split
    · exact reading_throw .emptyAgent
    · exact reading_bind (reading_reject _) fun window =>
        reading_map (Traversal.reading_run window _ _ _ agent) _
  | localLinks sampler agent range =>
    exact reading_bind (reading_reject _) fun window =>
      reading_map (LocalLinks.reading_select window agent) _
  | pids agent range => exact reading_map (reading_pids agent range) _
  | localAddresses agent range =>
    exact reading_map (reading_addresses agent range) _

/-- A question has the answer it has without failures if all its scans are answered, and is unavailable
from the first one that is not. -/
theorem answered_or_unavailable (q : Question α) (s : Storage) :
    (∀ what, (q.ask { s with outage := Outage.none }).1 ≠ .error (.unavailable what)) ∧
      ∃ made, (∀ call ∈ made, call.isScan) ∧ (q.ask s).2 = s.noting made ∧
        (s.Answered made ∧ (q.ask s).1 = (q.ask { s with outage := Outage.none }).1 ∨
          ∃ call before, made = call :: before ∧ s.Answered before ∧
            s.outage (before ++ s.calls) call = true ∧
            (q.ask s).1 = .error (.unavailable call.outageText)) := by
  have hread := q.reading_ask
  obtain ⟨_, hsound⟩ := hread.of_answersScans (answersScans_of_none s)
  rw [hsound]
  refine ⟨hread.available s.contents, ?_⟩
  obtain ⟨made, hscans, ⟨hmade, h⟩ | ⟨call, before, hlast, hbefore, hfail, h⟩⟩ := hread.runs s
  · rw [h]
    exact ⟨made, hscans, rfl, Or.inl ⟨hmade, rfl⟩⟩
  · rw [h]
    exact ⟨made, hscans, rfl, Or.inr ⟨call, before, hlast, hbefore, hfail, rfl⟩⟩

end Question

end NetAtlas
