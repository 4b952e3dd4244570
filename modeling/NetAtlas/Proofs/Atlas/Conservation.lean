import NetAtlas.Proofs.Atlas.BothEnds
import NetAtlas.Proofs.Link.Buckets

set_option autoImplicit false

/-!
# Binding conserves traffic

A bind books each of the seed's reports once and each report of the other side that matches one of them
once, however many of them share a socket. Exact sums over its links are therefore those over the reports.
-/
namespace NetAtlas

open Std Binding

/-- The reports of the other side about a socket of one of some reports. -/
def Contents.matching (c : Contents) (v : View) (range : TimeRange) (pending : List Observation) :
    List Observation :=
  (c.reports v.opposite range).filter fun q => pending.any (sameSocket · q)

namespace Binding

theorem about_linkKey (v : View) (p : Observation) (peer : Option Node) : (linkKey v p peer).about p := by
  rw [about_iff]
  cases v <;> exact ⟨rfl, rfl, rfl⟩

theorem about_of_sameSocket {v : View} {p q : Observation} (h : sameSocket p q) (peer : Option Node) :
    (linkKey v p peer).about q := by
  rw [← sameSocket_eq_about (about_linkKey v p peer)]
  exact h

variable (c : Contents) (v : View) (range : TimeRange) (e : Expansion) (ip : Ip)

theorem snd_owns_perm :
    ((Posting.owns (c.postingsAt v range e ip)).map Prod.snd).Perm (c.pendingAt v range e ip) := by
  have h := (owns_postings_perm v (c.pendingAt v range e ip)
    (c.answersTo v range (c.pendingAt v range e ip))).map Prod.snd
  rw [List.map_map] at h
  exact h.trans (List.Perm.of_eq (List.map_id _))

theorem snd_peers_perm :
    ((Posting.peers (c.postingsAt v range e ip)).map Prod.snd).Perm
      (c.matching v range (c.pendingAt v range e ip)) := by
  refine ((c.peers_postingsAt_perm v range e ip).map Prod.snd).trans (List.Perm.of_eq ?_)
  rw [Contents.matching, ← flatMap_singleton_ite, List.map_flatMap]
  apply List.flatMap_congr
  intro q _
  have hany : (c.pendingAt v range e ip).any (sameSocket · q) =
      ((c.pendingAt v range e ip).find? (sameSocket · q)).isSome := by
    rw [Bool.eq_iff_iff, List.find?_isSome, List.any_eq_true]
  rw [hany]
  cases (c.pendingAt v range e ip).find? (sameSocket · q) <;> rfl

theorem about_of_mem_owns {x : LinkKey × Observation}
    (h : x ∈ Posting.owns (c.postingsAt v range e ip)) : x.1.about x.2 := by
  obtain ⟨p, _, rfl⟩ := List.mem_map.mp ((owns_postings_perm v _ _).mem_iff.mp h)
  exact about_linkKey v p _

theorem about_of_mem_peers {x : LinkKey × Observation}
    (h : x ∈ Posting.peers (c.postingsAt v range e ip)) : x.1.about x.2 := by
  obtain ⟨q, _, hx⟩ := List.mem_flatMap.mp ((c.peers_postingsAt_perm v range e ip).mem_iff.mp h)
  obtain ⟨p, hp, rfl⟩ := List.mem_map.mp hx
  have hs := List.find?_some (Option.mem_toList.mp hp)
  exact about_of_sameSocket hs _

/-- Binding a seed at an address comes through, and what its links carry is each report of the seed at the
address once and each report of the other side about one of their sockets once: in one link of its socket,
in the slot of its time, and nothing else. So in every slot in which no link's sum is cut off, the sums
over the links are those over these reports. -/
theorem bind_conserves_traffic (w : Window) (s : Storage) (v : View) (seed : Node) (skip : PidGroup)
    (ip : Ip) :
    (s.AnswersScans → ∃ m, (bindDirection w v.direction seed skip ip s).1 = .ok m) ∧
    ∀ m, (bindDirection w v.direction seed skip ip s).1 = .ok m →
      ∃ owns peers : List (LinkKey × Observation),
        (owns.map Prod.snd).Perm (s.contents.pendingAt v w.range (seed, skip) ip) ∧
        (peers.map Prod.snd).Perm (s.contents.matching v w.range
          (s.contents.pendingAt v w.range (seed, skip) ip)) ∧
        (∀ x ∈ owns ++ peers, x.1.about x.2) ∧
        m.Carries w (owns ++ peers) ∧
        ∀ slot, (∀ l ∈ m.links, (Stat.exact (LinkValue.inSlot w slot
            (Posting.booked l.key (owns ++ peers)))).Fits) →
          Stat.sum (m.links.map fun l => l.value.bucket slot) =
            (Stat.exact (LinkValue.inSlot w slot
              (s.contents.pendingAt v w.range (seed, skip) ip))).plus
            (Stat.exact (LinkValue.inSlot w slot (s.contents.matching v w.range
              (s.contents.pendingAt v w.range (seed, skip) ip)))) := by
  refine ⟨fun hs => bindDirection_ok w hs v seed skip ip, fun m h => ?_⟩
  have howns := snd_owns_perm s.contents v w.range (seed, skip) ip
  have hpeers := snd_peers_perm s.contents v w.range (seed, skip) ip
  have hcarries := LinkMap.carries_ofPostings w (s.contents.postingsAt v w.range (seed, skip) ip)
  rw [← bindDirection_eq_ok w h] at hcarries
  refine ⟨_, _, howns, hpeers, fun x hx => ?_, hcarries, fun slot hfits => ?_⟩
  · rcases List.mem_append.mp hx with hx | hx
    · exact about_of_mem_owns s.contents v w.range (seed, skip) ip hx
    · exact about_of_mem_peers s.contents v w.range (seed, skip) ip hx
  · generalize Posting.owns (s.contents.postingsAt v w.range (seed, skip) ip) = owns at *
    generalize Posting.peers (s.contents.postingsAt v w.range (seed, skip) ip) = peers at *
    calc
      Stat.sum (m.links.map fun l => l.value.bucket slot) =
          Stat.exact (LinkValue.inSlot w slot ((owns ++ peers).map Prod.snd)) := hcarries.sum_eq hfits
      _ = (Stat.exact (LinkValue.inSlot w slot (owns.map Prod.snd))).plus
          (Stat.exact (LinkValue.inSlot w slot (peers.map Prod.snd))) := by
        rw [List.map_append, LinkValue.inSlot_append, Stat.exact_append]
      _ = _ := congrArg₂ Stat.plus (Stat.exact_perm (howns.filter _)) (Stat.exact_perm (hpeers.filter _))

/-- Three processes of an agent and two of another report one socket, over two slots; one more socket is
reported by the other agent alone. -/
def crowded : Storage := Sample.storage []
  [Sample.report "A" 1 .outgoing (Sample.host 1, 50000) (Sample.host 2, 443) 10,
   { Sample.report "A" 2 .outgoing (Sample.host 1, 50000) (Sample.host 2, 443) 20 with time := 1300 },
   Sample.report "A" 3 .outgoing (Sample.host 1, 50000) (Sample.host 2, 443) 1000,
   Sample.report "B" 7 .incoming (Sample.host 1, 50000) (Sample.host 2, 443) 100,
   { Sample.report "B" 8 .incoming (Sample.host 1, 50000) (Sample.host 2, 443) 200 with time := 1300 },
   Sample.report "B" 7 .incoming (Sample.host 1, 50001) (Sample.host 2, 443) 5000]

/-- Four links join the processes, and what they sent is that of the two reports without the skipped one
and of the two answers to them. -/
theorem bind_conserves_traffic_crowded :
    ∃ m, (bindDirection sharedWindow .outgoing (Node.ofAgent "A") {3} (Sample.host 1) crowded).1 = .ok m ∧
      m.links.length = 4 ∧
      ([900, 1200].map fun slot => (Stat.sum (m.links.map fun l => l.value.bucket slot)).sent) =
        [110, 220] ∧
      Stat.sum (m.links.map fun l => l.value.bucket 900) =
        (Stat.exact (LinkValue.inSlot sharedWindow 900
          (crowded.contents.pendingAt .callee sharedWindow.range (Node.ofAgent "A", {3}) (Sample.host 1)))).plus
        (Stat.exact (LinkValue.inSlot sharedWindow 900
          (crowded.contents.matching .callee sharedWindow.range (crowded.contents.pendingAt .callee
            sharedWindow.range (Node.ofAgent "A", {3}) (Sample.host 1))))) := by
  obtain ⟨hok, hconserves⟩ :=
    bind_conserves_traffic sharedWindow crowded .callee (Node.ofAgent "A") {3} (Sample.host 1)
  obtain ⟨m, hm⟩ := hok fun _ _ _ _ => rfl
  obtain ⟨owns, peers, _, _, _, hcarries, hsum⟩ := hconserves m hm
  have hlinks : ((bindDirection sharedWindow .outgoing (Node.ofAgent "A") {3} (Sample.host 1)
      crowded).1.toOption.map fun m => (m.links.length,
        [900, 1200].map (fun slot => (Stat.sum (m.links.map fun l => l.value.bucket slot)).sent),
        m.links.all fun l => (l.value.bucket 900).sent < 1000 ∧ (l.value.bucket 900).recv < 1000 ∧
          (l.value.bucket 900).retransmits < 1000)) = some (4, [110, 220], true) := by decide +kernel
  rw [show (bindDirection sharedWindow .outgoing _ _ _ crowded).1 = .ok m from hm] at hlinks
  simp only [Except.toOption, Option.map_some, Option.some.injEq, Prod.mk.injEq, List.all_eq_true,
    decide_eq_true_eq] at hlinks
  obtain ⟨hlength, hsent, hsmall⟩ := hlinks
  refine ⟨m, hm, hlength, hsent, hsum 900 fun l hl => ?_⟩
  obtain ⟨h₁, h₂, h₃⟩ := hsmall l hl
  rw [hcarries.bucket_eq hl] at h₁ h₂ h₃
  exact Stat.fits_of_clamped_lt (by omega) (by omega) (by omega)

end Binding

end NetAtlas
