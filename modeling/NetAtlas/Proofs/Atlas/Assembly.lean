import NetAtlas.Atlas.Basic
import NetAtlas.Proofs.Link.Collecting

set_option autoImplicit false

/-!
# Assembling an atlas

The links of a map are sorted by their sockets and then by direction, so the links over one socket stand
side by side, the least direction first. Keeping the first of neighbours keeps one link for each socket,
and as links over one socket join the same ends, no end is lost with those that are left out.
-/
namespace NetAtlas

open Std

namespace LinkKey

variable {a b c : LinkKey}

theorem sameSocket_iff_compare : a.sameSocket b ↔ compareSocket a b = .eq := by
  simp only [sameSocket, decide_eq_true_eq, compareSocket, compareLex_eq_eq, compareOn,
    LawfulEqCmp.compare_eq_iff_eq]

theorem sameSocket_symm (h : a.sameSocket b) : b.sameSocket a := by
  rw [sameSocket_iff_compare] at h ⊢
  exact OrientedCmp.eq_symm h

theorem sameSocket_trans (hab : a.sameSocket b) (hbc : b.sameSocket c) : a.sameSocket c := by
  rw [sameSocket_iff_compare] at hab hbc ⊢
  exact TransCmp.eq_trans hab hbc

/-- Over one socket the direction decides. -/
theorem compare_of_sameSocket (h : a.sameSocket b) : compare a b = compare a.direction b.direction := by
  change (compareSocket a b).then (compareOn direction a b) = _
  rw [sameSocket_iff_compare.mp h]
  rfl

theorem socket_isLE_of_lt (h : compare a b = .lt) : (compareSocket a b).isLE := by
  change (compareSocket a b).then (compareOn direction a b) = _ at h
  cases hs : compareSocket a b with
  | lt => rfl
  | eq => rfl
  | gt => rw [hs] at h; cases h

/-- What lies between two keys of one socket is of that socket. -/
theorem sameSocket_of_between (hab : compare a b = .lt) (hbc : compare b c = .lt)
    (hac : a.sameSocket c) : a.sameSocket b := by
  rw [sameSocket_iff_compare] at hac ⊢
  have hca : (compareSocket c a).isLE := by rw [OrientedCmp.eq_symm hac]; rfl
  have hba : (compareSocket b a).isLE := TransCmp.isLE_trans (socket_isLE_of_lt hbc) hca
  exact OrientedCmp.isLE_antisymm (socket_isLE_of_lt hab) hba

end LinkKey

namespace Atlas

open LinkKey

theorem sameSocket_iff {a b : LinkKey} :
    a.sameSocket b ↔ a.src = b.src ∧ a.dst = b.dst ∧ a.transport = b.transport := by
  simp [LinkKey.sameSocket]

theorem keepFirst_sublist (previous : Option LinkKey) (ls : List Link) :
    (keepFirst previous ls).Sublist ls := by
  induction ls generalizing previous with
  | nil => exact List.Sublist.refl _
  | cons l ls ih =>
    rw [keepFirst]
    split
    · exact (ih previous).cons l
    · exact (ih (some l.key)).cons_cons l

theorem mem_of_mem_keepFirst {previous : Option LinkKey} {ls : List Link} {l : Link}
    (h : l ∈ keepFirst previous ls) : l ∈ ls :=
  (keepFirst_sublist previous ls).mem h

/-- A link that is left out has the socket of one that is kept, or of the one before them all. -/
theorem exists_keepFirst (previous : Option LinkKey) {ls : List Link} {l : Link} (h : l ∈ ls) :
    previous.any l.key.sameSocket ∨ ∃ l' ∈ keepFirst previous ls, l.key.sameSocket l'.key := by
  induction ls generalizing previous with
  | nil => exact absurd h List.not_mem_nil
  | cons l' ls ih =>
    rw [keepFirst]
    by_cases hskip : previous.any l'.key.sameSocket = true
    · rw [if_pos hskip]
      rcases List.mem_cons.mp h with rfl | h
      · exact Or.inl hskip
      · exact ih previous h
    · rw [if_neg hskip]
      right
      rcases List.mem_cons.mp h with rfl | h
      · exact ⟨l, List.mem_cons_self, by simp [sameSocket_iff]⟩
      · rcases ih (some l'.key) h with hsame | ⟨kept, hkept, hsame⟩
        · exact ⟨l', List.mem_cons_self, by simpa using hsame⟩
        · exact ⟨kept, List.mem_cons_of_mem _ hkept, hsame⟩

theorem exists_link_of_mem {m : LinkMap} {k : LinkKey} (h : k ∈ m) :
    ∃ l ∈ (assemble m).links, k.sameSocket l.key := by
  obtain ⟨l, hl, rfl⟩ := LinkMap.exists_mem_links.mpr h
  rcases exists_keepFirst none hl with hnone | hkept
  · cases hnone
  · exact hkept

theorem mem_of_mem_links {m : LinkMap} {l : Link} (h : l ∈ (assemble m).links) : l.key ∈ m :=
  LinkMap.exists_mem_links.mp ⟨l, mem_of_mem_keepFirst h, rfl⟩

/-- Of ascending links those are kept that are the first over their socket, but none over that of the key
before them all. -/
theorem first_of_mem_keepFirst {previous : Option LinkKey} {ls : List Link} {l : Link}
    (hs : ls.Pairwise fun a b => compare a.key b.key = .lt)
    (hp : ∀ k ∈ previous, ∀ l ∈ ls, compare k l.key = .lt) (h : l ∈ keepFirst previous ls) :
    ¬ previous.any l.key.sameSocket ∧
      ∀ l' ∈ ls, l'.key.sameSocket l.key → compare l'.key l.key ≠ .lt := by
  induction ls generalizing previous with
  | nil => exact absurd h List.not_mem_nil
  | cons l₀ ls ih =>
    obtain ⟨hfirst, hs⟩ := List.pairwise_cons.mp hs
    rw [keepFirst] at h
    split at h
    · next hskip =>
      obtain ⟨hnew, hleast⟩ := ih hs (fun k hk l hl => hp k hk l (List.mem_cons_of_mem _ hl)) h
      refine ⟨hnew, List.forall_mem_cons.mpr ⟨fun hsame => ?_, hleast⟩⟩
      -- The link that is skipped has the socket of the previous key, this one has not.
      obtain ⟨k, hk, hsk⟩ := (Option.any_eq_true _ _).mp hskip
      have hany := sameSocket_trans (sameSocket_symm hsame) hsk
      exact absurd ((Option.any_eq_true _ _).mpr ⟨k, hk, hany⟩) hnew
    · next hkeep =>
      rcases List.mem_cons.mp h with rfl | h
      · exact ⟨hkeep, List.forall_mem_cons.mpr ⟨fun _ hlt => OrientedCmp.not_lt_of_lt hlt hlt,
          fun l' hl' _ => OrientedCmp.not_lt_of_lt (hfirst l' hl')⟩⟩
      · have hprevious : ∀ k ∈ some l₀.key, ∀ l ∈ ls, compare k l.key = .lt := by
          rintro k ⟨⟩
          exact hfirst
        obtain ⟨hnew, hleast⟩ := ih hs hprevious h
        refine ⟨fun hany => ?_, List.forall_mem_cons.mpr ⟨fun hsame => ?_, hleast⟩⟩
        · -- The first link lies between the previous key and this one.
          obtain ⟨k, hk, hsk⟩ := (Option.any_eq_true _ _).mp hany
          have hk₀ : k.sameSocket l₀.key := sameSocket_of_between (hp k hk l₀ List.mem_cons_self)
            (hfirst l (mem_of_mem_keepFirst h)) (sameSocket_symm hsk)
          exact hkeep ((Option.any_eq_true _ _).mpr ⟨k, hk, sameSocket_symm hk₀⟩)
        · exact absurd (sameSocket_symm hsame) hnew

/-- What an atlas shows of a map: one link for each socket, that of the least direction, and all ends. -/
structure Summarizes (a : Atlas) (m : LinkMap) : Prop where
  links_ascend : a.links.Pairwise fun l l' => compare l.key l'.key = .lt
  sockets_differ : a.links.Pairwise fun l l' => ¬ l.key.sameSocket l'.key
  value_kept : ∀ l ∈ a.links, m[l.key]? = some l.value
  direction_least : ∀ l ∈ a.links, ∀ k ∈ m, k.sameSocket l.key → l.key.direction.code ≤ k.direction.code
  one_each : ∀ k ∈ m, ∃! l, l ∈ a.links ∧ l.key.sameSocket k
  nodes_ascend : a.nodes.Pairwise fun e e' => compare e e' = .lt
  mem_nodes : ∀ e, e ∈ a.nodes ↔ ∃ k ∈ m, e = k.src ∨ e = k.dst
  isEmpty_iff : a.isEmpty ↔ m = ∅

variable {m : LinkMap}

theorem ascending_links (m : LinkMap) :
    (assemble m).links.Pairwise fun l l' => compare l.key l'.key = .lt :=
  (LinkMap.links_ascend m).sublist (keepFirst_sublist none m.links)

theorem ascending_nodes (m : LinkMap) : (assemble m).nodes.Pairwise fun e e' => compare e e' = .lt := by
  simp only [assemble]
  exact ExtTreeSet.ordered_toList

theorem not_lt_of_sameSocket {l : Link} (hl : l ∈ (assemble m).links) {k : LinkKey} (hk : k ∈ m)
    (hsame : k.sameSocket l.key) : compare k l.key ≠ .lt := by
  obtain ⟨l', hl', rfl⟩ := LinkMap.exists_mem_links.mpr hk
  exact (first_of_mem_keepFirst (LinkMap.links_ascend m) (by simp) hl).2 l' hl' hsame

theorem code_le_of_not_lt {d e : Direction} (h : compare d e ≠ .lt) : e.code ≤ d.code := by
  have hcodes : compare d.code e.code ≠ .lt := h
  rw [Ne, compare_eq_lt] at hcodes
  exact UInt8.not_lt.mp hcodes

theorem eq_of_sameSocket {l l' : Link} (hl : l ∈ (assemble m).links) (hl' : l' ∈ (assemble m).links)
    (hsame : l.key.sameSocket l'.key) : l = l' := by
  have hle := not_lt_of_sameSocket hl' (mem_of_mem_links hl) hsame
  have hge := not_lt_of_sameSocket hl (mem_of_mem_links hl') (sameSocket_symm hsame)
  cases hc : compare l.key l'.key with
  | lt => exact absurd hc hle
  | gt => exact absurd (OrientedCmp.lt_of_gt hc) hge
  | eq =>
    obtain ⟨k, value⟩ := l
    obtain ⟨k', value'⟩ := l'
    cases LawfulEqCmp.eq_of_compare hc
    have hvalue := LinkMap.mem_links.mp (mem_of_mem_keepFirst hl)
    have hvalue' := LinkMap.mem_links.mp (mem_of_mem_keepFirst hl')
    cases hvalue.symm.trans hvalue'
    rfl

theorem mem_nodes_iff {e : LinkEnd} :
    e ∈ (assemble m).nodes ↔ ∃ k ∈ m, e = k.src ∨ e = k.dst := by
  have hkept : e ∈ (assemble m).nodes ↔
      ∃ l ∈ (assemble m).links, e = l.key.src ∨ e = l.key.dst := by
    simp [assemble]
  rw [hkept]
  constructor
  · rintro ⟨l, hl, he⟩
    exact ⟨l.key, mem_of_mem_links hl, he⟩
  · rintro ⟨k, hk, he⟩
    obtain ⟨l, hl, hsame⟩ := exists_link_of_mem hk
    obtain ⟨hsrc, hdst, _⟩ := sameSocket_iff.mp hsame
    exact ⟨l, hl, hsrc ▸ hdst ▸ he⟩

theorem isEmpty_assemble : (assemble m).isEmpty ↔ m = ∅ := by
  rw [isEmpty, List.isEmpty_iff, List.eq_nil_iff_forall_not_mem, ExtTreeMap.eq_empty_iff_forall_not_mem]
  constructor
  · intro hnone k hk
    obtain ⟨l, hl, _⟩ := exists_link_of_mem hk
    exact hnone l hl
  · intro hnone l hl
    exact hnone l.key (mem_of_mem_links hl)

/-- Whatever links a map has, in whatever mix of directions: the atlas has one link for each socket. -/
theorem assemble_keeps_sockets (m : LinkMap) : (assemble m).Summarizes m where
  links_ascend := ascending_links m
  sockets_differ := by
    refine (ascending_links m).imp_of_mem fun hl hl' hlt hsame => ?_
    cases eq_of_sameSocket hl hl' hsame
    exact OrientedCmp.not_lt_of_lt hlt hlt
  value_kept := fun l hl => LinkMap.mem_links.mp (mem_of_mem_keepFirst hl)
  direction_least := fun l hl k hk hsame => by
    have hlt := not_lt_of_sameSocket hl hk hsame
    rw [compare_of_sameSocket hsame] at hlt
    exact code_le_of_not_lt hlt
  one_each := fun k hk => by
    obtain ⟨l, hl, hsame⟩ := exists_link_of_mem hk
    refine ⟨l, ⟨hl, sameSocket_symm hsame⟩, fun l' hl' => ?_⟩
    exact eq_of_sameSocket hl'.1 hl (sameSocket_trans hl'.2 hsame)
  nodes_ascend := ascending_nodes m
  mem_nodes := fun _ => mem_nodes_iff
  isEmpty_iff := isEmpty_assemble

end Atlas

end NetAtlas
