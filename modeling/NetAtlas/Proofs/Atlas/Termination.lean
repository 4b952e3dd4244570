import NetAtlas.Proofs.Atlas.Frontiers

set_option autoImplicit false

/-!
# The loop ends

Without anything that limits it, the loop over rounds ends on every storage and at every depth: every
round but the last claims nodes that no round before it claimed, and only a node that reported something
can be claimed, the seed apart.
-/
namespace NetAtlas

open Std StoreM

namespace Traversal

/-- The loop, however long it takes: the states in which it began a round, and how it ended. -/
inductive Loops (w : Window) : Traversal → Lookups → Storage → List Traversal →
    Except Error (Traversal × Lookups) × Storage → Prop
  | ended {t : Traversal} {known : Lookups} {s : Storage} (h : t.finished) :
      Loops w t known s [] (.ok (t, known), s)
  | failed {t : Traversal} {known : Lookups} {s s' : Storage} {e : Error} (h : ¬ t.finished)
      (round : t.round w known s = (.error e, s')) : Loops w t known s [t] (.error e, s')
  | again {t t' : Traversal} {known known' : Lookups} {s s' : Storage} {ts : List Traversal}
      {outcome : Except Error (Traversal × Lookups) × Storage} (h : ¬ t.finished)
      (round : t.round w known s = (.ok (t', known'), s'))
      (rest : Loops w t' known' s' ts outcome) : Loops w t known s (t :: ts) outcome

/-- What the round begun in a state expands in one direction. -/
def claimed (v : View) (t : Traversal) : List Expansion :=
  if t.rounds ≤ (t.side v).depth then (t.side v).claims else []

/-- Whether the round begun in a state expands a node. -/
def expands (t : Traversal) : Bool := !(t.claimed .caller ++ t.claimed .callee).isEmpty

theorem finished_iff {t : Traversal} : t.finished ↔ ∀ v, (t.side v).frontier = [] := by
  refine ⟨frontier_of_finished, fun h => ?_⟩
  rw [finished, Bool.and_eq_true, List.isEmpty_iff, List.isEmpty_iff]
  exact ⟨h .caller, h .callee⟩

theorem expands_iff {t : Traversal} : t.expands ↔ ∃ v, t.claimed v ≠ [] := by
  rw [expands, Bool.not_eq_true', List.isEmpty_eq_false_iff, Ne, List.append_eq_nil_iff,
    not_and_or]
  constructor
  · rintro (h | h)
    · exact ⟨.caller, h⟩
    · exact ⟨.callee, h⟩
  · rintro ⟨v, h⟩
    cases v with
    | caller => exact Or.inl h
    | callee => exact Or.inr h

theorem walk_of_finished {w : Window} {t : Traversal} (h : t.finished) (fuel : Nat) :
    walk w fuel t = pure t := by
  cases fuel with
  | zero => rfl
  | succ fuel => rw [walk, if_pos h]

theorem walk_of_not_finished {w : Window} {t : Traversal} (h : ¬ t.finished) (fuel : Nat)
    (known : Lookups) (s : Storage) :
    walk w (fuel + 1) t known s = match t.round w known s with
      | (.ok found, s') => walk w fuel found.1 found.2 s'
      | (.error e, s') => (.error e, s') := by
  rw [walk, if_neg h]
  change (t.round w known >>= fun found => walk w fuel found.1 found.2) s = _
  rw [exceptT_bind_run]
  rcases t.round w known s with ⟨e | found, s'⟩ <;> rfl

variable (c : Contents) (w : Window)

/-- A round fails or takes the step of the contents, which stay as they are. -/
theorem round_run {known : Lookups} {s : Storage} (hs : s.contents = c)
    (hknown : known.Agrees c w.range) (t : Traversal) :
    (∃ e s', t.round w known s = (.error e, s')) ∨
      ∃ known' s', t.round w known s = (.ok (t.roundIn c w, known'), s') ∧ s'.contents = c ∧
        known'.Agrees c w.range := by
  subst hs
  obtain ⟨made, _, ⟨_, hrun⟩ | ⟨call, before, _, _, _, hrun⟩⟩ := (reading_round w t known).runs s
  · cases hanswer : (t.round w known).answer s.contents with
    | error e => exact Or.inl ⟨e, _, hanswer ▸ hrun⟩
    | ok found =>
      obtain ⟨hround, hagrees⟩ := (answers_round s.contents w t).of_ok hknown hanswer
      refine Or.inr ⟨found.2, s.noting made, ?_, rfl, hagrees⟩
      rw [hrun, hanswer, ← tryRoundIn_eq_ok s.contents w hround]
  · exact Or.inl ⟨_, _, hrun⟩

/-- Where a traversal stands when it begins a round, as far as none before failed. -/
def atRound (t : Traversal) : Nat → Traversal
  | 0 => t
  | r + 1 => (atRound t r).roundIn c w

theorem atRound_roundIn (t : Traversal) (r : Nat) :
    (t.roundIn c w).atRound c w r = t.atRound c w (r + 1) := by
  induction r with
  | zero => rfl
  | succ r ih =>
    rw [atRound, ih]
    rfl

theorem side_roundIn (t : Traversal) (v : View) :
    (t.roundIn c w).side v = (t.side v).stepIn c w t.rounds := by
  cases v <;> rfl

/-- How the loop goes that begins `n` rounds. -/
structure Course (t : Traversal) (known : Lookups) (s : Storage) (n : Nat)
    (outcome : Except Error (Traversal × Lookups) × Storage) : Prop where
  loops : Loops w t known s ((List.range n).map (t.atRound c w)) outcome
  walks : ∀ fuel, n ≤ fuel → walk w fuel t known s = outcome
  waiting : ∀ j, j < n → ¬ (t.atRound c w j).finished
  reached : ∀ t' left, outcome.1 = .ok (t', left) → t' = t.atRound c w n ∧ t'.finished

section Courses

variable {c w} {t : Traversal} {known known' : Lookups} {s s' : Storage}
  {outcome : Except Error (Traversal × Lookups) × Storage}

theorem course_ended (h : t.finished) : t.Course c w known s 0 (.ok (t, known), s) where
  loops := Loops.ended h
  walks fuel _ := by
    rw [walk_of_finished h]
    rfl
  waiting j hj := absurd hj (Nat.not_lt_zero j)
  reached t' left h' := by
    cases h'
    exact ⟨rfl, h⟩

theorem course_failed {e : Error} (h : ¬ t.finished) (hround : t.round w known s = (.error e, s')) :
    t.Course c w known s 1 (.error e, s') where
  loops := Loops.failed h hround
  walks fuel hfuel := by
    obtain ⟨rest, rfl⟩ := Nat.exists_eq_add_of_le' hfuel
    rw [walk_of_not_finished h, hround]
  waiting j hj := by
    cases Nat.lt_one_iff.mp hj
    exact h
  reached t' left h' := by cases h'

theorem Course.again {n : Nat} (h : ¬ t.finished)
    (hround : t.round w known s = (.ok (t.roundIn c w, known'), s'))
    (rest : (t.roundIn c w).Course c w known' s' n outcome) :
    t.Course c w known s (n + 1) outcome where
  loops := by
    have hrest := rest.loops
    simp only [funext (atRound_roundIn c w t)] at hrest
    rw [List.range_succ_eq_map, List.map_cons, List.map_map]
    exact Loops.again h hround hrest
  walks fuel hfuel := by
    obtain ⟨fuel, rfl⟩ := Nat.exists_eq_add_of_le' (Nat.le_trans (Nat.le_add_left 1 n) hfuel)
    rw [walk_of_not_finished h, hround]
    exact rest.walks fuel (Nat.le_of_succ_le_succ hfuel)
  waiting j hj := by
    cases j with
    | zero => exact h
    | succ j =>
      rw [← atRound_roundIn]
      exact rest.waiting j (Nat.lt_of_succ_lt_succ hj)
  reached t' left h' := by
    rw [← atRound_roundIn]
    exact rest.reached t' left h'

/-- If some number of rounds finishes a traversal, so does the loop, on any storage. -/
theorem exists_course {limit : Nat} (hend : (t.atRound c w limit).finished) (hs : s.contents = c)
    (hknown : known.Agrees c w.range) :
    ∃ n outcome, n ≤ limit ∧ t.Course c w known s n outcome := by
  induction limit generalizing t known s with
  | zero => exact ⟨0, _, Nat.le_refl 0, course_ended hend⟩
  | succ limit ih =>
    by_cases h : t.finished = true
    · exact ⟨0, _, Nat.zero_le _, course_ended h⟩
    · obtain ⟨e, s', hround⟩ | ⟨left, s', hround, hs', hleft⟩ := round_run c w hs hknown t
      · exact ⟨1, _, Nat.le_add_left 1 limit, course_failed h hround⟩
      · rw [← atRound_roundIn] at hend
        obtain ⟨n, outcome, hn, rest⟩ := ih hend hs' hleft
        exact ⟨n + 1, outcome, Nat.succ_le_succ hn, rest.again h hround⟩

end Courses

section Rounds

variable {callerDepth calleeDepth : Nat} {agent : String} {internal : LinkMap}

theorem rounds_atRound (r : Nat) :
    ((start callerDepth calleeDepth agent internal).atRound c w r).rounds = r := by
  induction r with
  | zero => rfl
  | succ r ih => exact congrArg (· + 1) ih

theorem side_atRound (r : Nat) (v : View) :
    ((start callerDepth calleeDepth agent internal).atRound c w r).side v =
      (Side.ofSeed v (depthOf callerDepth calleeDepth v) agent).after c w r := by
  induction r with
  | zero => cases v <;> rfl
  | succ r ih => rw [atRound, side_roundIn, ih, rounds_atRound, Side.after]

theorem depthOf_le (v : View) : depthOf callerDepth calleeDepth v ≤ max callerDepth calleeDepth := by
  cases v <;> simp only [depthOf] <;> omega

theorem claimed_atRound (r : Nat) (v : View) :
    ((start callerDepth calleeDepth agent internal).atRound c w r).claimed v =
      if r ≤ depthOf callerDepth calleeDepth v then
        ((Side.ofSeed v (depthOf callerDepth calleeDepth v) agent).after c w r).claims else [] := by
  rw [claimed, side_atRound, rounds_atRound, Side.depth_after]
  rfl

theorem flatMap_claimed (n : Nat) (v : View) :
    ((List.range n).map ((start callerDepth calleeDepth agent internal).atRound c w)).flatMap
        (claimed v) =
      (Side.ofSeed v (depthOf callerDepth calleeDepth v) agent).expansions c w n := by
  induction n with
  | zero => rfl
  | succ n ih =>
    rw [List.range_succ, List.map_append, List.flatMap_append, ih, Side.expansions, List.map_singleton,
      List.flatMap_singleton, claimed_atRound]
    rfl

theorem finished_atRound :
    ((start callerDepth calleeDepth agent internal).atRound c w
      (fuel callerDepth calleeDepth)).finished := by
  rw [finished_iff]
  intro v
  rw [side_atRound]
  exact Side.frontier_succ_of_lt c w (Nat.lt_succ_of_le (depthOf_le v))

theorem le_of_expands {r : Nat}
    (h : ((start callerDepth calleeDepth agent internal).atRound c w r).expands) :
    r ≤ max callerDepth calleeDepth := by
  obtain ⟨v, hclaimed⟩ := expands_iff.mp h
  rw [claimed_atRound] at hclaimed
  by_cases hr : r ≤ depthOf callerDepth calleeDepth v
  · exact Nat.le_trans hr (depthOf_le v)
  · exact absurd (if_neg hr) hclaimed

/-- A round that expands nothing is the last. -/
theorem finished_of_idle {r : Nat}
    (h : ¬ ((start callerDepth calleeDepth agent internal).atRound c w r).expands) :
    ((start callerDepth calleeDepth agent internal).atRound c w (r + 1)).finished := by
  rw [finished_iff]
  intro v
  rw [side_atRound]
  by_cases hr : r ≤ depthOf callerDepth calleeDepth v
  · apply Side.frontier_succ_of_empty
    by_contra hwaiting
    apply h
    rw [expands_iff]
    refine ⟨v, ?_⟩
    rw [claimed_atRound, if_pos hr]
    exact Side.claims_ne_nil c w hwaiting
  · exact Side.frontier_succ_of_lt c w (Nat.lt_of_not_le hr)

/-- How many nodes a direction can come across: the seed and those that reported to the other view. -/
theorem le_reportingNodes_of_waiting {r : Nat}
    (h : ¬ ((start callerDepth calleeDepth agent internal).atRound c w r).finished) :
    r ≤ 1 + max (c.reportingNodes .caller w.range).length
      (c.reportingNodes .callee w.range).length := by
  rw [finished_iff, not_forall] at h
  obtain ⟨v, hwaiting⟩ := h
  rw [side_atRound] at hwaiting
  have hclaims := (Side.le_length_expansions c w hwaiting).2
  have hmax := Nat.le_trans hclaims (Side.length_expansions_le c w r)
  cases v <;> simp only [View.opposite] at hmax <;> omega

/-- Of a range, only the numbers on a list have the property. -/
theorem countP_range_le {pick : Nat → Bool} {n : Nat} {xs : List Nat}
    (h : ∀ j, j < n → pick j → j ∈ xs) : (List.range n).countP pick ≤ xs.length := by
  rw [List.countP_eq_length_filter]
  apply (List.Nodup.subperm (List.nodup_range.filter pick) _).length_le
  intro j hj
  obtain ⟨hrange, hpick⟩ := List.mem_filter.mp hj
  exact h j (List.mem_range.mp hrange) hpick

variable {known : Lookups} {s : Storage} {n : Nat}
  {outcome : Except Error (Traversal × Lookups) × Storage}

theorem Course.countP_expands
    (h : (start callerDepth calleeDepth agent internal).Course c w known s n outcome) :
    ((List.range n).map ((start callerDepth calleeDepth agent internal).atRound c w)).countP
      expands ≤ max callerDepth calleeDepth + 1 ∧
    ((List.range n).map ((start callerDepth calleeDepth agent internal).atRound c w)).countP
      (fun t => !t.expands) ≤ 1 := by
  rw [List.countP_map, List.countP_map]
  constructor
  · rw [← List.length_range (n := max callerDepth calleeDepth + 1)]
    apply countP_range_le
    intro j _ hj
    exact List.mem_range.mpr (Nat.lt_succ_of_le (le_of_expands c w hj))
  · change _ ≤ [n - 1].length
    apply countP_range_le
    intro j hj hidle
    -- the round after an idle one finds the traversal finished, so there is none
    have hfinished := finished_of_idle c w (Bool.eq_false_iff.mp ((Bool.not_eq_true' _).mp hidle))
    have hlast : ¬ j + 1 < n := fun hnext => h.waiting (j + 1) hnext hfinished
    exact List.mem_singleton.mpr (by omega)

theorem Course.le_reportingNodes
    (h : (start callerDepth calleeDepth agent internal).Course c w known s n outcome) :
    n ≤ 1 + max (c.reportingNodes .caller w.range).length
      (c.reportingNodes .callee w.range).length + 1 := by
  cases n with
  | zero => exact Nat.zero_le _
  | succ n =>
    exact Nat.succ_le_succ (le_reportingNodes_of_waiting c w (h.waiting n (Nat.lt_succ_self n)))

/-- Unless almost as many nodes reported as 32 bits can count, a count of 32 bits does not go around. -/
theorem Course.toNat_rounds
    (h : (start callerDepth calleeDepth agent internal).Course c w known s n outcome)
    (hfew : max (c.reportingNodes .caller w.range).length
      (c.reportingNodes .callee w.range).length < 4294967294) {r : Nat} (hr : r ≤ n) :
    (UInt32.ofNat r).toNat = r := by
  have hmost := h.le_reportingNodes
  exact UInt32.toNat_ofNat_of_lt' (by change r < 4294967296; omega)

theorem visited_atRound (r : Nat) (v : View) :
    (((start callerDepth calleeDepth agent internal).atRound c w r).side v).visits.expanded =
      (((List.range r).map ((start callerDepth calleeDepth agent internal).atRound c w)).flatMap
        (claimed v)).length := by
  rw [side_atRound, Side.expanded_after, flatMap_claimed]

end Rounds

/-- A run ends: its loop begins no more rounds than the depths and the reporting nodes allow, at most one
of them expands nothing, no node is expanded twice in a direction, and the visits of a direction are the
expansions made in it. Rounds are counted without an end here; by `Course.toNat_rounds` a count of 32 bits
is the same as long as fewer than 2^32 - 2 nodes reported to a view. -/
theorem run_ends (w : Window) (s : Storage) (callerDepth calleeDepth : Nat) (withLocalLinks : Bool)
    (agent : String) :
    (∃ e s', selectLocal w withLocalLinks agent s = (.error e, s') ∧
      run w callerDepth calleeDepth withLocalLinks agent s = (.error e, s')) ∨
    ∃ internal s' ts outcome, selectLocal w withLocalLinks agent s = (.ok internal, s') ∧
      Loops w (start callerDepth calleeDepth agent internal) ∅ s' ts outcome ∧
      run w callerDepth calleeDepth withLocalLinks agent s = (outcome.1.map Prod.fst, outcome.2) ∧
      ts.map rounds = List.range ts.length ∧
      ts.countP expands ≤ max callerDepth calleeDepth + 1 ∧
      (ts.countP fun t => !t.expands) ≤ 1 ∧
      ts.length ≤ 1 + max (s.contents.reportingNodes .caller w.range).length
        (s.contents.reportingNodes .callee w.range).length + 1 ∧
      ∀ v : View, ((ts.flatMap (claimed v)).map Prod.fst).Nodup ∧
        (∀ j t, ts[j]? = some t →
          (t.side v).visits.expanded = ((ts.take j).flatMap (claimed v)).length) ∧
        ∀ t known, outcome.1 = .ok (t, known) →
          (t.side v).visits.expanded = (ts.flatMap (claimed v)).length := by
  rw [run_eq, exceptT_bind_run]
  rcases hselect : selectLocal w withLocalLinks agent s with ⟨e | internal, s'⟩
  · exact Or.inl ⟨e, s', rfl, rfl⟩
  · right
    have hcontents : s'.contents = s.contents := by
      have hkept := (reading_selectLocal w withLocalLinks agent).contents_eq s
      rw [hselect] at hkept
      exact hkept
    obtain ⟨n, outcome, hn, hcourse⟩ := exists_course (finished_atRound s.contents w) hcontents
      (Lookups.agrees_empty s.contents w.range)
    refine ⟨internal, s', _, outcome, rfl, hcourse.loops, ?_, ?_, (hcourse.countP_expands).1,
      (hcourse.countP_expands).2, ?_, fun v => ⟨?_, fun j t hj => ?_, fun t known ht => ?_⟩⟩
    · change (walk w (fuel callerDepth calleeDepth)
        (start callerDepth calleeDepth agent internal)).run' ∅ s' = _
      rw [LookupM.run'_run, hcourse.walks _ hn]
    · rw [List.map_map, List.length_map, List.length_range]
      exact (List.map_congr_left fun r _ => rounds_atRound s.contents w r).trans (List.map_id _)
    · rw [List.length_map, List.length_range]
      exact hcourse.le_reportingNodes
    · rw [flatMap_claimed]
      exact Side.expansions_nodup s.contents w n
    · obtain ⟨hlt, rfl⟩ := List.getElem?_eq_some_iff.mp hj
      rw [List.length_map, List.length_range] at hlt
      rw [List.getElem_map, List.getElem_range, ← List.map_take, List.take_range,
        Nat.min_eq_left (Nat.le_of_lt hlt)]
      exact visited_atRound s.contents w j v
    · rw [(hcourse.reached t known ht).1]
      exact visited_atRound s.contents w n v

end Traversal

end NetAtlas
