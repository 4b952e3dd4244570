import NetAtlas.Proofs.Atlas.Mirrored

set_option autoImplicit false

/-!
# Binding from both ends

A socket that one agent reports from its source and one agent from its target is bound to the same
links from either end: every pair of reporting processes has a link, and what it carries is decided by
the first reports stored on both sides, whichever side is looked up first.
-/
namespace NetAtlas

open Std Binding

structure Socket where
  src : Endpoint
  dst : Endpoint
  transport : Transport

namespace Socket

/-- The end of a socket that a view's reporters are on. -/
def own (x : Socket) : View → Endpoint
  | .caller => x.dst
  | .callee => x.src

def about (x : Socket) (o : Observation) : Bool :=
  o.src = x.src ∧ o.dst = x.dst ∧ o.transport = x.transport

/-- Whether a link is one of the socket, whatever is known about its ends. -/
def joins (x : Socket) (k : LinkKey) : Bool :=
  k.src.address = x.src ∧ k.dst.address = x.dst ∧ k.transport = x.transport

/-- The link of two processes, found in one direction. -/
def link (x : Socket) (source target : Node) (direction : Direction) : LinkKey :=
  ⟨⟨x.src, some source⟩, ⟨x.dst, some target⟩, x.transport, direction⟩

theorem about_iff {x : Socket} {o : Observation} :
    x.about o ↔ o.src = x.src ∧ o.dst = x.dst ∧ o.transport = x.transport := decide_eq_true_iff

theorem joins_iff {x : Socket} {k : LinkKey} :
    x.joins k ↔ k.src.address = x.src ∧ k.dst.address = x.dst ∧ k.transport = x.transport :=
  decide_eq_true_iff

theorem joins_link (x : Socket) (m n : Node) (d : Direction) : x.joins (x.link m n d) :=
  joins_iff.mpr ⟨rfl, rfl, rfl⟩

theorem own_of_about {x : Socket} {o : Observation} (h : x.about o) (v : View) :
    v.own o = x.own v := by
  obtain ⟨hs, hd, _⟩ := about_iff.mp h
  cases v with
  | caller => exact hd
  | callee => exact hs

theorem sameSocket_of_about {x : Socket} {p q : Observation} (hp : x.about p) (hq : x.about q) :
    sameSocket p q := by
  obtain ⟨hs, hd, ht⟩ := about_iff.mp hp
  obtain ⟨hs', hd', ht'⟩ := about_iff.mp hq
  exact sameSocket_iff.mpr ⟨hs.trans hs'.symm, hd.trans hd'.symm, ht.trans ht'.symm⟩

theorem about_of_sameSocket {x : Socket} {p q : Observation} (h : sameSocket p q) (hp : x.about p) :
    x.about q := by
  obtain ⟨hs, hd, ht⟩ := sameSocket_iff.mp h
  obtain ⟨hs', hd', ht'⟩ := about_iff.mp hp
  exact about_iff.mpr ⟨hs.symm.trans hs', hd.symm.trans hd', ht.symm.trans ht'⟩

theorem joins_linkKey {x : Socket} {v : View} {p : Observation} {peer : Option Node} :
    x.joins (linkKey v p peer) ↔ x.about p := by
  rw [joins_iff, about_iff]
  cases v <;> rfl

/-- The link with the near process on a view's own side. -/
def linkOf (x : Socket) (v : View) (near far : Node) : LinkKey :=
  match v with
  | .caller => x.link far near v.direction
  | .callee => x.link near far v.direction

theorem linkOf_direction (x : Socket) (v : View) (m n : Node) :
    (x.linkOf v m n).direction = v.direction := by cases v <;> rfl

theorem about_linkOf (x : Socket) (v : View) (m n : Node) : (x.linkOf v m n).about = x.about := by
  cases v <;> rfl

theorem nearEnd_linkOf (x : Socket) (v : View) (m n : Node) :
    (nearEnd v (x.linkOf v m n)).node = some m := by cases v <;> rfl

theorem farEnd_linkOf (x : Socket) (v : View) (m n : Node) :
    (Side.farEnd v (x.linkOf v m n)).node = some n := by cases v <;> rfl

theorem linkKey_eq_linkOf {x : Socket} {v : View} {p : Observation} (hp : x.about p) (n : Node) :
    linkKey v p (some n) = x.linkOf v p.node n := by
  rw [linkKey_eq_iff (x.linkOf_direction v _ _), about_linkOf, nearEnd_linkOf, farEnd_linkOf]
  exact ⟨hp, rfl, rfl⟩

end Socket

namespace Contents

variable (c : Contents) (v : View) (w : Window) (x : Socket)

/-- The socket is reported in a view, by one agent. -/
structure ReportedBy (agent : String) : Prop where
  reported : ∃ o ∈ c.reports v w.range, x.about o
  only : ∀ o ∈ c.reports v w.range, x.about o → o.agent = agent

/-- What a link carries of one side: the reports of its process, if the other side's start with one of
the other process. -/
def share (k : LinkKey) : List Observation :=
  if leads v.opposite k (c.reports v.opposite w.range) then c.named v w k else []

/-- The links of one direction that pair a process reporting the socket from its source with one
reporting it from its target. -/
def Pairs (direction : Direction) (k : LinkKey) : Prop :=
  ∃ p ∈ c.reports .callee w.range, x.about p ∧ ∃ q ∈ c.reports .caller w.range, x.about q ∧
    k = x.link p.node q.node direction

variable {c v w x} {agent : String}

theorem pairs_link (m n : Node) (d d' : Direction) :
    c.Pairs w x d (x.link m n d) ↔ c.Pairs w x d' (x.link m n d') := by
  simp only [Pairs, Socket.link, LinkKey.mk.injEq, and_true]

/-- An agent as a whole finds at the socket's own address all reports about it. -/
theorem filter_pendingAt_about (h : c.ReportedBy v w x agent) :
    (c.pendingAt v w.range (Node.ofAgent agent, ∅) (x.own v).ip).filter x.about =
      (c.reports v w.range).filter x.about := by
  rw [pendingAt_eq, List.filter_filter]
  apply List.filter_congr
  intro o hmem
  cases ho : x.about o with
  | false => rfl
  | true =>
    have hadmits : admits (Node.ofAgent agent) ∅ o := by
      rw [admits_empty_iff]
      exact ⟨h.only o hmem ho, fun hpid => absurd hpid (Node.not_hasPid_ofAgent agent)⟩
    rw [Bool.true_and, decide_eq_true_iff, Socket.own_of_about ho]
    exact ⟨rfl, hadmits⟩

theorem filter_pendingAt (h : c.ReportedBy v w x agent) {pick : Observation → Bool}
    (hpick : ∀ o, pick o → x.about o) :
    (c.pendingAt v w.range (Node.ofAgent agent, ∅) (x.own v).ip).filter pick =
      (c.reports v w.range).filter pick := by
  have habout : ∀ os : List Observation, os.filter pick = (os.filter x.about).filter pick := by
    intro os
    rw [List.filter_filter]
    apply List.filter_congr
    intro o _
    cases ho : pick o with
    | false => rfl
    | true => rw [hpick o ho]; rfl
  rw [habout, filter_pendingAt_about h, ← habout]

theorem mem_pendingAt_of_about (h : c.ReportedBy v w x agent) {o : Observation} (ho : x.about o) :
    o ∈ c.pendingAt v w.range (Node.ofAgent agent, ∅) (x.own v).ip ↔ o ∈ c.reports v w.range := by
  have hmem : ∀ os : List Observation, o ∈ os ↔ o ∈ os.filter x.about := fun os =>
    ⟨fun h => List.mem_filter.mpr ⟨h, ho⟩, fun h => (List.mem_filter.mp h).1⟩
  rw [hmem, filter_pendingAt_about h, ← hmem]

theorem leads_pendingAt (h : c.ReportedBy v w x agent) (m n : Node) :
    leads v (x.linkOf v m n) (c.pendingAt v w.range (Node.ofAgent agent, ∅) (x.own v).ip) =
      leads v (x.linkOf v m n) (c.reports v w.range) := by
  rw [leads, leads, Socket.about_linkOf, ← List.head?_filter, ← List.head?_filter,
    filter_pendingAt_about h]

/-- What the agent's own reports add to a link. -/
theorem booked_owns_postingsAt (h : c.ReportedBy v w x agent) (m n : Node) :
    (Posting.booked (x.linkOf v m n) (Posting.owns
      (c.postingsAt v w.range (Node.ofAgent agent, ∅) (x.own v).ip))).Perm
      (c.share v w (x.linkOf v m n)) := by
  refine (c.booked_owns_postingsAt_perm v w (x.linkOf_direction v m n) _ _).trans (List.Perm.of_eq ?_)
  rw [share, named]
  refine if_congr Iff.rfl (filter_pendingAt h fun o ho => ?_) rfl
  rw [← Socket.about_linkOf x v m n]
  exact (of_decide_eq_true ho).1

/-- What the answers add to it. -/
theorem booked_peers_postingsAt (h : c.ReportedBy v w x agent) (m n : Node) :
    (Posting.booked (x.linkOf v m n) (Posting.peers
      (c.postingsAt v w.range (Node.ofAgent agent, ∅) (x.own v).ip))).Perm
      (c.share v.opposite w (x.linkOf v m n)) := by
  refine (c.booked_peers_postingsAt_perm v w (x.linkOf_direction v m n) (x.nearEnd_linkOf v m n)
    _ _).trans (List.Perm.of_eq ?_)
  rw [leads_pendingAt h, share, View.opposite_opposite]

/-- From the near side's reports a socket is linked to every process of the far side's, and to nothing
that is not known. -/
theorem mem_keys_postingsAt (h : c.ReportedBy v w x agent)
    (hfar : ∃ o ∈ c.reports v.opposite w.range, x.about o) {k : LinkKey} (hk : x.joins k) :
    k ∈ (c.postingsAt v w.range (Node.ofAgent agent, ∅) (x.own v).ip).map Posting.key ↔
      ∃ p ∈ c.reports v w.range, x.about p ∧ ∃ q ∈ c.reports v.opposite w.range, x.about q ∧
        k = x.linkOf v p.node q.node := by
  rw [postingsAt, mem_keys_postings]
  constructor
  · rintro ⟨p, hp, hl⟩
    rw [links_congr (c.answersTo_filter v w.range hp)] at hl
    have habout : x.about p := by
      rcases hl with ⟨q, _, _, rfl⟩ | ⟨_, rfl⟩
      · exact Socket.joins_linkKey.mp hk
      · exact Socket.joins_linkKey.mp hk
    refine ⟨p, (mem_pendingAt_of_about h habout).mp hp, habout, ?_⟩
    rcases hl with ⟨q, hq, hs, rfl⟩ | ⟨hnone, rfl⟩
    · exact ⟨q, hq, Socket.about_of_sameSocket hs habout, Socket.linkKey_eq_linkOf habout q.node⟩
    · obtain ⟨q, hq, hqa⟩ := hfar
      exact absurd (Socket.sameSocket_of_about habout hqa) (hnone q hq)
  · rintro ⟨p, hp, hpa, q, hq, hqa, rfl⟩
    have hpending := (mem_pendingAt_of_about h hpa).mpr hp
    refine ⟨p, hpending, ?_⟩
    rw [links_congr (c.answersTo_filter v w.range hpending)]
    exact Or.inl ⟨q, hq, Socket.sameSocket_of_about hpa hqa,
      (Socket.linkKey_eq_linkOf hpa q.node).symm⟩

end Contents

namespace Binding

open Contents Sample StoreM

/-- What a bind of a whole agent at the socket's own address finds of the socket. -/
theorem bind_of_reportedBy {w : Window} {s : Storage} {v : View} {x : Socket} {agent : String}
    (h : s.contents.ReportedBy v w x agent)
    (hfar : ∃ o ∈ s.contents.reports v.opposite w.range, x.about o) {found : LinkMap}
    (hbind : (bind w v (Node.ofAgent agent) ∅ (x.own v).ip s).1 = .ok found) :
    (∀ k, x.joins k → (k ∈ found ↔
      ∃ p ∈ s.contents.reports v w.range, x.about p ∧
        ∃ q ∈ s.contents.reports v.opposite w.range, x.about q ∧ k = x.linkOf v p.node q.node)) ∧
    ∀ m n, found[x.linkOf v m n]? = if x.linkOf v m n ∈ found then
      some (LinkValue.ofObservations w (s.contents.share v w (x.linkOf v m n) ++
        s.contents.share v.opposite w (x.linkOf v m n))) else none := by
  cases bind_eq_ok w hbind
  refine ⟨fun k hk => ?_, fun m n => ?_⟩
  · rw [LinkMap.mem_ofPostings]
    exact mem_keys_postingsAt h hfar hk
  · rw [LinkMap.getElem?_ofPostings]
    simp only [LinkMap.mem_ofPostings]
    rw [LinkValue.ofObservations_perm w
      ((booked_owns_postingsAt h m n).append (booked_peers_postingsAt h m n))]

/-- Bound as a whole, the agents at both ends of a socket find the same links of it, one for each pair
of a process that reports it from its source and one that reports it from its target, and these carry
the same traffic. -/
theorem bind_from_both_ends (w : Window) (s : Storage) (x : Socket) {a b : String}
    (ha : s.contents.ReportedBy .callee w x a) (hb : s.contents.ReportedBy .caller w x b) :
    (s.AnswersScans →
      (∃ out, (bindDirection w .outgoing (Node.ofAgent a) ∅ x.src.ip s).1 = .ok out) ∧
      ∃ back, (bindDirection w .incoming (Node.ofAgent b) ∅ x.dst.ip s).1 = .ok back) ∧
    ∀ out back, (bindDirection w .outgoing (Node.ofAgent a) ∅ x.src.ip s).1 = .ok out →
      (bindDirection w .incoming (Node.ofAgent b) ∅ x.dst.ip s).1 = .ok back →
      (∀ k, x.joins k → (k ∈ out ↔ s.contents.Pairs w x .outgoing k)) ∧
      (∀ k, x.joins k → (k ∈ back ↔ s.contents.Pairs w x .incoming k)) ∧
      ∀ m n, out[x.link m n .outgoing]? = back[x.link m n .incoming]? := by
  constructor
  · intro hs
    obtain ⟨_, hout⟩ := (reading_bind w .callee (Node.ofAgent a) ∅ x.src.ip).of_answersScans hs
    obtain ⟨_, hback⟩ := (reading_bind w .caller (Node.ofAgent b) ∅ x.dst.ip).of_answersScans hs
    rw [answer_bind] at hout hback
    exact ⟨⟨_, congrArg Prod.fst hout⟩, ⟨_, congrArg Prod.fst hback⟩⟩
  · intro out back hout hback
    obtain ⟨hkeys, hvalues⟩ := bind_of_reportedBy (v := .callee) ha hb.reported hout
    obtain ⟨hkeys', hvalues'⟩ := bind_of_reportedBy (v := .caller) hb ha.reported hback
    have hpairs : ∀ k, x.joins k → (k ∈ out ↔ s.contents.Pairs w x .outgoing k) := hkeys
    have hpairs' : ∀ k, x.joins k → (k ∈ back ↔ s.contents.Pairs w x .incoming k) := by
      intro k hk
      rw [hkeys' k hk]
      exact ⟨fun ⟨q, hq, hqa, p, hp, hpa, he⟩ => ⟨p, hp, hpa, q, hq, hqa, he⟩,
        fun ⟨p, hp, hpa, q, hq, hqa, he⟩ => ⟨q, hq, hqa, p, hp, hpa, he⟩⟩
    refine ⟨hpairs, hpairs', fun m n => ?_⟩
    have hsame : x.link m n .outgoing ∈ out ↔ x.link m n .incoming ∈ back := by
      rw [hpairs _ (Socket.joins_link x m n _), hpairs' _ (Socket.joins_link x m n _)]
      exact Contents.pairs_link m n _ _
    have hout := hvalues m n
    have hback := hvalues' n m
    change out[x.link m n .outgoing]? = _ at hout
    change back[x.link m n .incoming]? = _ at hback
    have hshare : ∀ v, s.contents.share v w (x.linkOf .callee m n) =
        s.contents.share v w (x.linkOf .caller n m) := fun v => by cases v <;> rfl
    rw [hout, hback, hshare, hshare, LinkValue.ofObservations_perm w List.perm_append_comm]
    exact if_congr hsame rfl rfl

/-- Two processes of each agent report one socket, over two slots. -/
def shared : Storage := Sample.storage []
  [report "A" 1 .outgoing (host 1, 50000) (host 2, 443) 10,
   { report "A" 2 .outgoing (host 1, 50000) (host 2, 443) 20 with time := 1300 },
   report "B" 7 .incoming (host 1, 50000) (host 2, 443) 100,
   { report "B" 8 .incoming (host 1, 50000) (host 2, 443) 200 with time := 1300 }]

def sharedWindow : Window := { window with range := ⟨800, 1400, by decide, by decide⟩ }

def sharedSocket : Socket := ⟨⟨host 1, 50000, by decide⟩, ⟨host 2, 443, by decide⟩, .tcp⟩

theorem bind_from_both_ends_shared :
    shared.contents.ReportedBy .callee sharedWindow sharedSocket "A" ∧
    shared.contents.ReportedBy .caller sharedWindow sharedSocket "B" ∧
    ∃ out back, (bindDirection sharedWindow .outgoing (Node.ofAgent "A") ∅ (host 1) shared).1 = .ok out ∧
      (bindDirection sharedWindow .incoming (Node.ofAgent "B") ∅ (host 2) shared).1 = .ok back ∧
      ∀ m n, out[sharedSocket.link m n .outgoing]? = back[sharedSocket.link m n .incoming]? := by
  have ha : shared.contents.ReportedBy .callee sharedWindow sharedSocket "A" :=
    ⟨by decide +kernel, by decide +kernel⟩
  have hb : shared.contents.ReportedBy .caller sharedWindow sharedSocket "B" :=
    ⟨by decide +kernel, by decide +kernel⟩
  obtain ⟨hok, hlinks⟩ := bind_from_both_ends sharedWindow shared sharedSocket ha hb
  obtain ⟨⟨out, hout⟩, back, hback⟩ := hok fun _ _ _ _ => rfl
  exact ⟨ha, hb, out, back, hout, hback, (hlinks out back hout hback).2.2⟩

end Binding

end NetAtlas
