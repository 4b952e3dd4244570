import NetAtlas.Proofs.Outcomes
import NetAtlas.Proofs.Service.Frames
import NetAtlas.Service.Session

set_option autoImplicit false

/-!
# Answers on a stream

However the stream of a client is cut, its frames are answered one by one in their order, until a shutdown
was answered or the stream gives no frame. Of the rest of the stream nothing is answered. A trap cuts this
short, and what was answered before it is sent.
-/
namespace NetAtlas

namespace Session

open NetAtlas.Frame

/-- Which payloads are served and how that ends: all of them if none is a shutdown, or else those up to the
first that is. -/
inductive Serves (stop : Stop) : List Bytes → List Bytes → Ending → Prop
  | whole {payloads : List Bytes} (h : ∀ payload ∈ payloads, Request.decode? payload ≠ some .shutdown) :
      Serves stop payloads payloads (.stopped stop)
  | shutdown {before after : List Bytes} {last : Bytes}
      (hbefore : ∀ payload ∈ before, Request.decode? payload ≠ some .shutdown)
      (hlast : Request.decode? last = some .shutdown) :
      Serves stop (before ++ last :: after) (before ++ [last]) .shutdown

theorem Serves.first {stop : Stop} {after : List Bytes} {last : Bytes}
    (hlast : Request.decode? last = some .shutdown) :
    Serves stop (last :: after) [last] .shutdown :=
  @shutdown stop [] after last (fun _ hmem => absurd hmem List.not_mem_nil) hlast

theorem Serves.cons {stop : Stop} {payloads served : List Bytes} {ending : Ending} {payload : Bytes}
    (h : Request.decode? payload ≠ some .shutdown) (hserves : Serves stop payloads served ending) :
    Serves stop (payload :: payloads) (payload :: served) ending := by
  cases hserves with
  | whole hpayloads => exact .whole (List.forall_mem_cons.mpr ⟨h, hpayloads⟩)
  | shutdown hbefore hlast => exact .shutdown (List.forall_mem_cons.mpr ⟨h, hbefore⟩) hlast

section Converse

variable {m : Type → Type} [Monad m] [LawfulMonad m] {α : Type} {pieces : Delivery}
  {payloads : List Bytes} {tail : Bytes} {stop : Stop}

/-- The turns of a conversation are the frames of the stream. -/
theorem converse_of_framing (answer : Option Request → m α)
    (h : Framing pieces.flatten payloads tail) (htail : front tail = .stopped stop) :
    ∃ served ending, Serves stop payloads served ending ∧
      converse answer pieces =
        (do return (← served.mapM fun payload => answer (Request.decode? payload), ending)) := by
  induction payloads generalizing pieces with
  | nil =>
    refine ⟨[], _, .whole fun _ hmem => absurd hmem List.not_mem_nil, ?_⟩
    rw [converse, Delivery.read_nil h htail]
    simp
  | cons payload payloads ih =>
    obtain ⟨rest, hread, hrest⟩ := Delivery.read_cons h
    rw [converse, hread]
    by_cases hshutdown : Request.decode? payload = some .shutdown
    · refine ⟨[payload], _, .first hshutdown, ?_⟩
      simp [hshutdown]
    · obtain ⟨served, ending, hserves, hconverse⟩ := ih hrest
      refine ⟨payload :: served, ending, hserves.cons hshutdown, ?_⟩
      simp [hshutdown, hconverse]

end Converse

section Answers

variable {ε σ α β : Type} {f : β → ExceptT ε (StateM σ) α} {s s' : σ}

theorem length_of_mapM {xs : List β} {answers : List α} (h : xs.mapM f s = (.ok answers, s')) :
    answers.length = xs.length := by
  induction xs generalizing s answers with
  | nil =>
    cases h
    rfl
  | cons x xs ih =>
    rw [exceptT_mapM_cons_run] at h
    rcases hfirst : f x s with ⟨e | a, s₁⟩
    · rw [hfirst] at h
      cases h
    · rw [hfirst] at h
      have hafter : (xs.mapM f s₁).2 = s' := congrArg Prod.snd h
      obtain ⟨rest, hrest, rfl⟩ := except_map_eq_ok (congrArg Prod.fst h)
      rw [List.length_cons, List.length_cons, ih (Prod.ext hrest hafter)]

end Answers

section Sent

variable {settings : QuerySettings} {s s' : Session}

/-- A response is sent as it is given, a trap sends nothing. -/
theorem sent_respond {request : Option Request} {outcome : Except Trap Response}
    (h : respond settings request s = (outcome, s')) : s'.sent = outcome.toOption.toList ++ s.sent := by
  rw [respond] at h
  rcases hanswer : answer settings (s.clocks 0) request s.collector with ⟨trap | response, collector⟩
  · rw [hanswer] at h
    cases h
    rfl
  · rw [hanswer] at h
    cases h
    rfl

/-- What was sent before a trap are the responses to fewer payloads than there are. -/
theorem sent_mapM {payloads : List Bytes} {outcome : Except Trap (List Response)}
    (h : payloads.mapM (fun payload => respond settings (Request.decode? payload)) s = (outcome, s')) :
    ∃ responses, s'.sent = responses.reverse ++ s.sent ∧ match outcome with
      | .ok all => responses = all
      | .error _ => responses.length < payloads.length := by
  induction payloads generalizing s outcome with
  | nil =>
    cases h
    exact ⟨[], rfl, rfl⟩
  | cons payload payloads ih =>
    rw [exceptT_mapM_cons_run] at h
    rcases hfirst : respond settings (Request.decode? payload) s with ⟨trap | response, s₁⟩
    · rw [hfirst] at h
      cases h
      exact ⟨[], sent_respond hfirst, Nat.zero_lt_succ _⟩
    · rw [hfirst] at h
      dsimp only at h
      have hsent : s₁.sent = response :: s.sent := sent_respond hfirst
      rcases hrest : payloads.mapM (fun payload => respond settings (Request.decode? payload)) s₁
        with ⟨trap | all, s₂⟩
      · rw [hrest] at h
        cases h
        obtain ⟨responses, hlater, hfewer⟩ := ih hrest
        refine ⟨response :: responses, ?_, Nat.succ_lt_succ hfewer⟩
        rw [hlater, hsent, List.reverse_cons, List.append_assoc, List.singleton_append]
      · rw [hrest] at h
        cases h
        obtain ⟨_, hlater, rfl⟩ := ih hrest
        refine ⟨_, ?_, rfl⟩
        rw [hlater, hsent, List.reverse_cons, List.append_assoc, List.singleton_append]

/-- A client is sent one response for each frame that is served, and less only if a trap ends it. -/
theorem run_sends (settings : QuerySettings) (clocks : Nat → Clock) (stream : Bytes)
    (collector : Collector) : ∃ payloads tail stop served ending,
      Framing stream payloads tail ∧ Stops tail stop ∧ Serves stop payloads served ending ∧
      ∃ responses outcome after,
        run settings clocks stream collector = ((responses, outcome), after) ∧ match outcome with
          | .ok ending' => ending' = ending ∧ responses.length = served.length
          | .error _ => responses.length < served.length := by
  obtain ⟨tail, hframing⟩ := exists_framing stream
  obtain ⟨stop, hstop⟩ := exists_front_stopped hframing.tail_ne
  have hpieces : Framing [stream].flatten (payloads stream) tail := by
    rw [List.flatten_singleton]
    exact hframing
  obtain ⟨served, ending, hserves, hconverse⟩ := converse_of_framing (respond settings) hpieces hstop
  refine ⟨_, tail, stop, served, ending, hframing, stops_of_front hstop, hserves, _, _, _, rfl, ?_⟩
  rw [hconverse, exceptT_bind_run]
  rcases hall : served.mapM (fun payload => respond settings (Request.decode? payload))
    { collector, clocks } with ⟨trap | all, s'⟩
  · obtain ⟨responses, hsent, hfewer⟩ := sent_mapM hall
    change s'.sent.reverse.length < served.length
    rw [hsent, List.append_nil, List.reverse_reverse]
    exact hfewer
  · obtain ⟨_, hsent, rfl⟩ := sent_mapM hall
    refine ⟨rfl, ?_⟩
    change s'.sent.reverse.length = served.length
    rw [hsent, List.append_nil, List.reverse_reverse, length_of_mapM hall]

end Sent

end Session

end NetAtlas
