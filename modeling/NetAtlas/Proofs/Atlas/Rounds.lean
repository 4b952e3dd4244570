import NetAtlas.Proofs.Atlas.Ledger
import NetAtlas.Proofs.Atlas.LocalLinks
import NetAtlas.Proofs.Atlas.Lookups

set_option autoImplicit false

/-!
# Rounds on contents

A traversal only reads. Without the storage and its failures in the way, each round is a function of
the contents: the nodes a side claims in it are expanded, what they book is added to its links. A run
that comes through has walked both sides so.
-/
namespace NetAtlas

open Std StoreM

variable (c : Contents) (w : Window)

namespace Binding

theorem reading_bind (v : View) (n : Node) (skip : PidGroup) (ip : Ip) :
    Reading (Binding.bind w v n skip ip) :=
  StoreM.reading_bind (View.reading_query _ _ _) fun _ =>
    reading_map (reading_mapM _ fun _ => View.reading_query _ _ _) _

/-- The links of a node at one address are those of its ledger there. -/
theorem answer_bind (v : View) (n : Node) (skip : PidGroup) (ip : Ip) :
    (Binding.bind w v n skip ip).answer c =
      .ok (LinkMap.ofPostings w (c.postingsAt v w.range (n, skip) ip)) := by
  rw [Binding.bind, StoreM.answer_bind (View.reading_query _ _ _) fun _ =>
    reading_map (reading_mapM _ fun _ => View.reading_query _ _ _) _,
    View.answer_query]
  change ((((peerIps v (c.pendingAt v w.range (n, skip) ip)).mapM fun peer =>
    v.opposite.query peer w.range) >>= fun answers => pure (join w v _ answers.flatten)).answer c) = _
  rw [answer_map (reading_mapM _ fun _ => View.reading_query _ _ _),
    answer_mapM _ fun _ => View.reading_query _ _ _,
    except_mapM_ok fun peer _ => View.answer_query v.opposite peer w.range c]
  change Except.ok (join w v _ _) = _
  rw [join_eq_ofPostings]
  rfl

theorem bindDirection_direction (v : View) (n : Node) (skip : PidGroup) (ip : Ip) :
    bindDirection w v.direction n skip ip = bind w v n skip ip := by
  rw [bindDirection, View.ofDirection?_direction]

theorem bindDirection_ok {s : Storage} (hs : s.AnswersScans) (v : View) (n : Node) (skip : PidGroup)
    (ip : Ip) : ∃ m, (bindDirection w v.direction n skip ip s).1 = .ok m := by
  obtain ⟨_, hbind⟩ := (reading_bind w v n skip ip).of_answersScans hs
  rw [bindDirection_direction, hbind, answer_bind]
  exact ⟨_, rfl⟩

theorem bind_eq_ok {s : Storage} {v : View} {n : Node} {skip : PidGroup} {ip : Ip} {m : LinkMap}
    (h : (bind w v n skip ip s).1 = .ok m) :
    m = LinkMap.ofPostings w (s.contents.postingsAt v w.range (n, skip) ip) := by
  have hanswer := (reading_bind w v n skip ip).answer_eq h
  rw [answer_bind] at hanswer
  cases hanswer
  rfl

theorem bindDirection_eq_ok {s : Storage} {v : View} {n : Node} {skip : PidGroup} {ip : Ip}
    {m : LinkMap} (h : (bindDirection w v.direction n skip ip s).1 = .ok m) :
    m = LinkMap.ofPostings w (s.contents.postingsAt v w.range (n, skip) ip) := by
  rw [bindDirection_direction] at h
  exact bind_eq_ok w h

end Binding

namespace Side

theorem reading_linksAt (v : View) (n : Node) (skip : PidGroup) (ips : ExtTreeSet Ip) :
    Reading (linksAt w v n skip ips) :=
  reading_map (reading_mapM _ fun _ => Binding.reading_bind _ _ _ _ _) _

theorem answer_linksAt (v : View) (n : Node) (skip : PidGroup) (ips : ExtTreeSet Ip) :
    (linksAt w v n skip ips).answer c =
      .ok (LinkMap.ofPostings w (ips.toList.flatMap (c.postingsAt v w.range (n, skip)))) := by
  rw [linksAt, answer_map (reading_mapM _ fun _ => Binding.reading_bind _ _ _ _ _), answer_mapM _ fun _ => Binding.reading_bind _ _ _ _ _,
    except_mapM_ok fun ip _ => Binding.answer_bind c w v n skip ip]
  apply congrArg Except.ok
  exact LinkMap.foldl_merge_ofPostings w (c.postingsAt v w.range (n, skip)) _ []

theorem reading_nodeLinks (v : View) (n : Node) (skip : PidGroup) :
    LookupM.Reading (nodeLinks w v n skip) :=
  LookupM.reading_bind (LookupM.reading_addresses _ _) fun _ =>
    LookupM.reading_lift (reading_linksAt _ _ _ _ _)

/-- A node has the links of its ledger, if its addresses can be looked up. -/
theorem answers_nodeLinks (v : View) (n : Node) (skip : PidGroup) :
    LookupM.Answers c w.range (nodeLinks w v n skip)
      ((fun _ => LinkMap.ofPostings w (c.postingsOf v w.range (n, skip))) <$>
        (AddressRegistry.addresses n.agent w.range).answer c) := by
  have hasked : LookupM.Answers c w.range (LookupM.addresses n.agent w.range) _ :=
    LookupM.answers_addresses n.agent
  have hlinks := hasked.bind (LookupM.reading_addresses _ _)
    (fun ips => LookupM.answers_lift (reading_linksAt w v n skip ips))
    (fun ips => LookupM.reading_lift (reading_linksAt w v n skip ips))
  cases hips : (AddressRegistry.addresses n.agent w.range).answer c with
  | error e =>
    rw [hips] at hlinks
    exact hlinks
  | ok ips =>
    rw [hips] at hlinks
    change LookupM.Answers c w.range _ ((linksAt w v n skip ips).answer c) at hlinks
    rw [answer_linksAt, answer_addresses_eq_ok c hips] at hlinks
    exact hlinks

def claims (s : Side) : List Expansion := (s.visits.claim s.frontier).1

def ledger (s : Side) : List Posting := s.claims.flatMap (c.postingsOf s.view w.range)

/-- An expansion of a side as a function of the contents. -/
def expandIn (s : Side) : Side where
  view := s.view
  depth := s.depth
  frontier := nextFrontier s.view (s.visits.claim s.frontier).2
    (LinkMap.ofPostings w (s.ledger c w))
  visits := (s.visits.claim s.frontier).2
  links := s.links.merge (LinkMap.ofPostings w (s.ledger c w))

def stepIn (round : Nat) (s : Side) : Side :=
  if round ≤ s.depth then s.expandIn c w else { s with frontier := [] }

/-- What asking for the addresses of all claimed nodes answers. -/
def lookups (s : Side) : Except Error (List (ExtTreeSet Ip)) :=
  s.claims.mapM fun e => (AddressRegistry.addresses e.1.agent w.range).answer c

def tryExpandIn (s : Side) : Except Error Side := (fun _ => s.expandIn c w) <$> s.lookups c w

def tryStepIn (round : Nat) (s : Side) : Except Error Side :=
  if round ≤ s.depth then s.tryExpandIn c w else .ok { s with frontier := [] }

theorem reading_explore (s : Side) : LookupM.Reading (s.explore w) := by
  rw [explore]
  exact LookupM.reading_bind (LookupM.reading_mapM _ fun _ => reading_nodeLinks _ _ _ _) fun _ =>
    LookupM.reading_pure _

theorem reading_expand (s : Side) : Reading (s.expand w) :=
  LookupM.reading_run' (reading_explore w s) ∅

theorem reading_step (round : Nat) (s : Side) : LookupM.Reading (s.step w round) := by
  rw [step]
  split
  · exact reading_explore w s
  · exact LookupM.reading_pure _

theorem foldl_merge_claims (s : Side) :
    ((s.claims.map fun e => LinkMap.ofPostings w (c.postingsOf s.view w.range e)).foldl
      LinkMap.merge ∅) = LinkMap.ofPostings w (s.ledger c w) :=
  LinkMap.foldl_merge_ofPostings w (c.postingsOf s.view w.range) s.claims []

theorem answers_explore (s : Side) :
    LookupM.Answers c w.range (s.explore w) (s.tryExpandIn c w) := by
  have hnodes := LookupM.answers_mapM s.claims
    (fun e => answers_nodeLinks c w s.view e.1 e.2) fun e => reading_nodeLinks w s.view e.1 e.2
  have hread := LookupM.reading_mapM s.claims fun e : Expansion =>
    reading_nodeLinks w s.view e.1 e.2
  rw [except_mapM_const] at hnodes
  have hexplore := hnodes.bind hread
    (fun perNode => LookupM.answers_pure { s with
      frontier := nextFrontier s.view (s.visits.claim s.frontier).2 (perNode.foldl LinkMap.merge ∅)
      visits := (s.visits.claim s.frontier).2
      links := s.links.merge (perNode.foldl LinkMap.merge ∅) })
    fun _ => LookupM.reading_pure _
  rw [tryExpandIn, lookups]
  cases hips : s.claims.mapM fun e => (AddressRegistry.addresses e.1.agent w.range).answer c with
  | error e =>
    rw [hips] at hexplore
    exact hexplore
  | ok ips =>
    rw [hips] at hexplore
    change LookupM.Answers c w.range _ (.ok _) at hexplore
    rw [foldl_merge_claims] at hexplore
    exact hexplore

theorem answer_expand (s : Side) : (s.expand w).answer c = s.tryExpandIn c w :=
  (answers_explore c w s).run' (reading_explore w s)

theorem answers_step (round : Nat) (s : Side) :
    LookupM.Answers c w.range (s.step w round) (s.tryStepIn c w round) := by
  rw [step, tryStepIn]
  split
  · exact answers_explore c w s
  · exact LookupM.answers_pure _

theorem tryExpandIn_eq_ok {s s' : Side} (h : s.tryExpandIn c w = .ok s') : s' = s.expandIn c w := by
  rw [tryExpandIn] at h
  cases hips : s.lookups c w with
  | error e =>
    rw [hips] at h
    cases h
  | ok ips =>
    rw [hips] at h
    cases h
    rfl

theorem lookups_ok {s : Side} (h : ∀ e ∈ s.claims, e.1.agent.utf8ByteSize < 65536) :
    s.lookups c w = .ok (s.claims.map fun e => c.addresses e.1.agent w.range) := by
  apply except_mapM_ok
  intro e he
  exact answer_addresses_ok c (h e he) w.range

theorem tryStepIn_eq_ok {round : Nat} {s s' : Side} (h : s.tryStepIn c w round = .ok s') :
    s' = s.stepIn c w round := by
  rw [tryStepIn] at h
  rw [stepIn]
  split at h
  · next hr =>
    rw [if_pos hr]
    exact tryExpandIn_eq_ok c w h
  · next hr =>
    rw [if_neg hr]
    cases h
    rfl

theorem tryStepIn_ok {round : Nat} {s : Side}
    (h : ∀ e ∈ s.claims, e.1.agent.utf8ByteSize < 65536) :
    s.tryStepIn c w round = .ok (s.stepIn c w round) := by
  rw [tryStepIn, stepIn, tryExpandIn, lookups_ok c w h]
  split
  · rfl
  · rfl

theorem answer_expand_eq_ok {s s' : Side} (h : (s.expand w).answer c = .ok s') :
    s' = s.expandIn c w :=
  tryExpandIn_eq_ok c w ((answer_expand c w s).symm.trans h)

def after (s : Side) : Nat → Side
  | 0 => s
  | r + 1 => (after s r).stepIn c w r

def expansions (s : Side) : Nat → List Expansion
  | 0 => []
  | r + 1 => expansions s r ++ if r ≤ s.depth then (after c w s r).claims else []

end Side

namespace Traversal

def side (t : Traversal) : View → Side
  | .caller => t.caller
  | .callee => t.callee

/-- How many rounds a side is expanded after its first. -/
def depthOf (callerDepth calleeDepth : Nat) : View → Nat
  | .caller => callerDepth
  | .callee => calleeDepth

theorem reading_round (t : Traversal) : LookupM.Reading (t.round w) :=
  LookupM.reading_bind (Side.reading_step _ _ _) fun _ =>
    LookupM.reading_bind (Side.reading_step _ _ _) fun _ => LookupM.reading_pure _

theorem reading_walk (fuel : Nat) (t : Traversal) : LookupM.Reading (walk w fuel t) := by
  induction fuel generalizing t with
  | zero => exact LookupM.reading_pure t
  | succ fuel ih =>
    rw [walk]
    split
    · exact LookupM.reading_pure t
    · exact LookupM.reading_bind (reading_round w t) fun t' => ih t'

def selectLocal (withLocalLinks : Bool) (agent : String) : StoreM LinkMap :=
  if withLocalLinks then LocalLinks.select w agent else pure ∅

theorem run_eq (callerDepth calleeDepth : Nat) (withLocalLinks : Bool) (agent : String) :
    run w callerDepth calleeDepth withLocalLinks agent =
      selectLocal w withLocalLinks agent >>= fun internal =>
        (walk w (fuel callerDepth calleeDepth)
          (start callerDepth calleeDepth agent internal)).run' ∅ := by
  cases withLocalLinks <;> rfl

theorem reading_selectLocal (withLocalLinks : Bool) (agent : String) :
    Reading (selectLocal w withLocalLinks agent) := by
  cases withLocalLinks with
  | false => exact reading_pure _
  | true => exact LocalLinks.reading_select w agent

theorem reading_run (callerDepth calleeDepth : Nat) (withLocalLinks : Bool) (agent : String) :
    Reading (run w callerDepth calleeDepth withLocalLinks agent) := by
  rw [run_eq]
  exact StoreM.reading_bind (reading_selectLocal w _ _) fun internal =>
    LookupM.reading_run' (reading_walk w _ _) ∅

/-- A round as a function of the contents. -/
def roundIn (t : Traversal) : Traversal where
  caller := t.caller.stepIn c w t.rounds
  callee := t.callee.stepIn c w t.rounds
  rounds := t.rounds + 1
  internal := t.internal

def tryRoundIn (t : Traversal) : Except Error Traversal :=
  t.caller.tryStepIn c w t.rounds >>= fun caller =>
    t.callee.tryStepIn c w t.rounds >>= fun callee =>
      .ok { t with caller, callee, rounds := t.rounds + 1 }

def tryWalkIn : Nat → Traversal → Except Error Traversal
  | 0, t => .ok t
  | fuel + 1, t => if t.finished then .ok t else t.tryRoundIn c w >>= tryWalkIn fuel

theorem answers_round (t : Traversal) :
    LookupM.Answers c w.range (t.round w) (t.tryRoundIn c w) :=
  (Side.answers_step c w _ _).bind (Side.reading_step w _ _)
    (fun _ => (Side.answers_step c w _ _).bind (Side.reading_step w _ _)
      (fun _ => LookupM.answers_pure _) fun _ => LookupM.reading_pure _)
    fun _ => LookupM.reading_bind (Side.reading_step w _ _) fun _ => LookupM.reading_pure _

theorem answers_walk (fuel : Nat) (t : Traversal) :
    LookupM.Answers c w.range (walk w fuel t) (tryWalkIn c w fuel t) := by
  induction fuel generalizing t with
  | zero => exact LookupM.answers_pure t
  | succ fuel ih =>
    rw [walk, tryWalkIn]
    split
    · exact LookupM.answers_pure t
    · exact (answers_round c w t).bind (reading_round w t) ih (reading_walk w fuel)

theorem answer_run (callerDepth calleeDepth : Nat) (withLocalLinks : Bool) (agent : String) :
    (run w callerDepth calleeDepth withLocalLinks agent).answer c =
      (selectLocal w withLocalLinks agent).answer c >>= fun internal =>
        tryWalkIn c w (fuel callerDepth calleeDepth)
          (start callerDepth calleeDepth agent internal) := by
  rw [run_eq, StoreM.answer_bind (reading_selectLocal w _ _) fun internal =>
    LookupM.reading_run' (reading_walk w _ _) ∅]
  congr 1
  funext internal
  exact (answers_walk c w _ _).run' (reading_walk w _ _)

/-- Both sides have come as far as the rounds say. -/
def Walked (caller callee : Side) (t : Traversal) : Prop :=
  t.caller = caller.after c w t.rounds ∧ t.callee = callee.after c w t.rounds

theorem tryRoundIn_eq_ok {t t' : Traversal} (h : t.tryRoundIn c w = .ok t') :
    t' = t.roundIn c w := by
  obtain ⟨caller, hcaller, h⟩ := except_bind_eq_ok h
  obtain ⟨callee, hcallee, h⟩ := except_bind_eq_ok h
  rw [Side.tryStepIn_eq_ok c w hcaller, Side.tryStepIn_eq_ok c w hcallee] at h
  cases h
  rfl

theorem walked_round {caller callee : Side} {t : Traversal} (h : t.Walked c w caller callee) :
    (t.roundIn c w).Walked c w caller callee := by
  obtain ⟨hcaller, hcallee⟩ := h
  constructor
  · change t.caller.stepIn c w t.rounds = (caller.after c w t.rounds).stepIn c w t.rounds
    rw [hcaller]
  · change t.callee.stepIn c w t.rounds = (callee.after c w t.rounds).stepIn c w t.rounds
    rw [hcallee]

/-- A walk goes round by round and ends with empty frontiers or when its fuel is used up. -/
theorem tryWalkIn_eq_ok {caller callee : Side} {fuel : Nat} {t t' : Traversal}
    (ht : t.Walked c w caller callee) (h : tryWalkIn c w fuel t = .ok t') :
    t'.Walked c w caller callee ∧ t'.internal = t.internal ∧
      (t'.finished ∨ t'.rounds = t.rounds + fuel) := by
  induction fuel generalizing t with
  | zero =>
    cases h
    exact ⟨ht, rfl, Or.inr rfl⟩
  | succ fuel ih =>
    rw [tryWalkIn] at h
    split at h
    · next hfinished =>
      cases h
      exact ⟨ht, rfl, Or.inl hfinished⟩
    · obtain ⟨t₁, hround, h⟩ := except_bind_eq_ok h
      cases tryRoundIn_eq_ok c w hround
      obtain ⟨hwalked, hinternal, hend⟩ := ih (walked_round c w ht) h
      refine ⟨hwalked, hinternal, hend.imp_right fun hr => ?_⟩
      have hone : (t.roundIn c w).rounds = t.rounds + 1 := rfl
      omega

theorem direction_of_mem_selectLocal {withLocalLinks : Bool} {agent : String} {m : LinkMap}
    (h : (selectLocal w withLocalLinks agent).answer c = .ok m) {k : LinkKey} (hk : k ∈ m) :
    k.direction = .internal := by
  cases withLocalLinks with
  | false =>
    cases h
    exact absurd hk ExtTreeMap.not_mem_empty
  | true => exact LocalLinks.direction_of_mem_select c w h hk

/-- A run that came through walked both sides from what the local links were. -/
theorem walked_of_run {callerDepth calleeDepth : Nat} {withLocalLinks : Bool} {agent : String}
    {s : Storage} {t : Traversal}
    (h : (run w callerDepth calleeDepth withLocalLinks agent s).1 = .ok t) :
    t.Walked s.contents w (Side.ofSeed .caller callerDepth agent)
        (Side.ofSeed .callee calleeDepth agent) ∧
      (selectLocal w withLocalLinks agent).answer s.contents = .ok t.internal ∧
      (t.finished ∨ t.rounds = fuel callerDepth calleeDepth) := by
  have hanswer := (reading_run w callerDepth calleeDepth withLocalLinks agent).answer_eq h
  rw [answer_run] at hanswer
  obtain ⟨internal, hinternal, hwalk⟩ := except_bind_eq_ok hanswer
  have hstart : (start callerDepth calleeDepth agent internal).Walked s.contents w
      (Side.ofSeed .caller callerDepth agent) (Side.ofSeed .callee calleeDepth agent) := ⟨rfl, rfl⟩
  obtain ⟨hwalked, hsame, hend⟩ := tryWalkIn_eq_ok s.contents w hstart hwalk
  refine ⟨hwalked, ?_, hend.imp_right fun hr => ?_⟩
  · rw [hsame]
    exact hinternal
  · rw [hr]
    exact Nat.zero_add _

/-- What a run that came through did. -/
theorem run_eq_ok {callerDepth calleeDepth : Nat} {withLocalLinks : Bool} {agent : String}
    {s : Storage} {t : Traversal}
    (h : (run w callerDepth calleeDepth withLocalLinks agent s).1 = .ok t) :
    t.Walked s.contents w (Side.ofSeed .caller callerDepth agent)
        (Side.ofSeed .callee calleeDepth agent) ∧
      (∀ k ∈ t.internal, k.direction = .internal) ∧
      (t.finished ∨ t.rounds = fuel callerDepth calleeDepth) := by
  obtain ⟨hwalked, hinternal, hend⟩ := walked_of_run w h
  exact ⟨hwalked, fun k hk => direction_of_mem_selectLocal s.contents w hinternal hk, hend⟩

end Traversal

end NetAtlas
