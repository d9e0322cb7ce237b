import FirstHit.Proofs.Compilation
import FirstHit.Proofs.Paths

/-!
# Lists of accepted patterns

A state that inherits takes over the list of the state that its failure link leads to, as that list
stands when the link is set. What it ends up with is here compared with a description that mentions
no links: a list of ids is determined by the patterns that are in it and by an order that it follows
(`Lists`).

Without inheritance a state lists the patterns that are equal to its path, and the order is that of
the ids. With inheritance it lists the patterns that are suffixes of its path, a longer pattern
before a shorter one (`Preferred`). Nothing is listed twice, although every state on a chain of
links hands on all that it has.
-/

namespace FirstHit

variable {c : Config} {patterns : List Bytes} {a : Automaton} {w : Bytes} {id other : Nat}

/-- The pattern of `id` is longer than that of `other`, or as long and comes first. -/
def Preferred (patterns : List Bytes) (id other : Nat) : Prop :=
  ∃ p q, patterns[id]? = some p ∧ patterns[other]? = some q ∧
    (q.length < p.length ∨ p.length = q.length ∧ id < other)

/-- The ids of the patterns that are wanted, each of them once, and in an order. -/
structure Lists (patterns : List Bytes) (wanted : Bytes → Prop) (before : Nat → Nat → Prop)
    (ids : List Nat) : Prop where
  /-- It holds what is wanted and nothing else. -/
  mem_iff : ∀ id, id ∈ ids ↔ ∃ p, patterns[id]? = some p ∧ wanted p
  /-- It holds nothing twice. -/
  nodup : ids.Nodup
  /-- It follows the order. -/
  sorted : ids.Pairwise before

theorem Preferred.ne (h : Preferred patterns id other) : id ≠ other := by
  rintro rfl
  obtain ⟨p, q, hp, hq, hbefore⟩ := h
  obtain rfl : p = q := Option.some_inj.mp (hp.symm.trans hq)
  omega

/-! ## The two lists -/

theorem lists_idxsOf (patterns : List Bytes) (w : Bytes) :
    Lists patterns (· = w) (· < ·) (patterns.idxsOf w) where
  mem_iff := by
    intro id
    rw [mem_idxsOf]
    simp
  nodup := List.nodup_idxsOf
  sorted := List.pairwise_idxsOf

theorem pairwise_acceptedIds_true (patterns : List Bytes) (w : Bytes) :
    (acceptedIds true patterns w).Pairwise (Preferred patterns) := by
  rw [acceptedIds, if_pos rfl, List.pairwise_flatMap]
  constructor
  · intro v _
    refine List.pairwise_idxsOf.imp_of_mem ?_
    intro id other hid hother hlt
    exact ⟨v, v, mem_idxsOf.mp hid, mem_idxsOf.mp hother, Or.inr ⟨rfl, hlt⟩⟩
  · apply (pairwise_length_tails w).imp
    intro u v hlt id hid other hother
    exact ⟨u, v, mem_idxsOf.mp hid, mem_idxsOf.mp hother, Or.inl hlt⟩

theorem lists_acceptedIds_true (patterns : List Bytes) (w : Bytes) :
    Lists patterns (· <:+ w) (Preferred patterns) (acceptedIds true patterns w) where
  mem_iff := fun _ ↦ mem_acceptedIds_true
  nodup := (pairwise_acceptedIds_true patterns w).imp Preferred.ne
  sorted := pairwise_acceptedIds_true patterns w

/-! ## The lists of a built automaton -/

namespace Automaton

theorem existsUnique_accepting (hn : Numbering (livePaths patterns))
    (hc : c.inheritSuffixMatches = false) (hid : id < patterns.length) :
    ∃! s, ∃ state, (ofLiveStrings c patterns).state s = .ok state ∧ id ∈ state.ids := by
  have hp := isLive_of_mem (List.getElem_mem hid)
  refine ⟨.ofPath (livePaths patterns) patterns[id], ?_, ?_⟩
  · refine ⟨_, state_ofLiveStrings hn c hp, ?_⟩
    rw [hc, liveState, acceptedIds_false, mem_idxsOf, List.getElem?_eq_getElem hid]
  · rintro s ⟨state, hstate, hmem⟩
    obtain ⟨w, -, rfl, rfl⟩ := exists_liveState hn hstate
    rw [hc, liveState, acceptedIds_false, mem_idxsOf, List.getElem?_eq_getElem hid,
      Option.some_inj] at hmem
    rw [hmem]

/-- **Acceptance lists are exact and ordered.** Without inheritance a state lists the patterns equal
to its path, by id, so every pattern is listed by one state. With inheritance a state lists the
patterns that are suffixes of its path, the longest first, and those of one length by id. -/
theorem ids_build (h : (build c patterns).result = .ok a) :
    ∃ t, Trie.ofPatterns c patterns = .ok t ∧
      (∀ s, s.index < a.stateCount → ∃ w state, t.Spells w s ∧ a.state s = .ok state ∧
        (c.inheritSuffixMatches = false → Lists patterns (· = w) (· < ·) state.ids) ∧
        (c.inheritSuffixMatches = true →
          Lists patterns (· <:+ w) (Preferred patterns) state.ids)) ∧
      (c.inheritSuffixMatches = false →
        ∀ id, id < patterns.length → ∃! s, ∃ state, a.state s = .ok state ∧ id ∈ state.ids) := by
  obtain ⟨ht, hn, rfl⟩ := build_eq_ok_iff.mp h
  refine ⟨_, ht, fun s hs ↦ ?_, fun hc id ↦ existsUnique_accepting hn hc⟩
  obtain ⟨w, hw, rfl⟩ := exists_ofPath_of_lt hn hs
  refine ⟨w, _, Trie.spells_ofPath hn hw, state_ofLiveStrings hn c hw, ?_, ?_⟩
  · intro hc
    rw [hc]
    exact lists_idxsOf patterns w
  · intro hc
    rw [hc]
    exact lists_acceptedIds_true patterns w

/-- The empty pattern, a pattern with two ids, and chains of suffixes. -/
def nested : List Bytes := [[99], [97, 98, 99], [], [98, 99], [99]]

theorem ids_build_nested :
    ∃ a state, (build (Config.default.withInheritSuffixMatches true) nested).result = .ok a ∧
      a.state ⟨4⟩ = .ok state ∧ Lists nested (· <:+ [97, 98, 99]) (Preferred nested) state.ids := by
  have hbuild : (build (Config.default.withInheritSuffixMatches true) nested).result
      = .ok (ofLiveStrings _ _) := build_of_ofPatterns rfl
  obtain ⟨t, ht, hstates, -⟩ := ids_build hbuild
  obtain ⟨w, state, hspells, hstate, -, hlists⟩ := hstates ⟨4⟩ (by decide)
  obtain rfl := Except.ok.inj ((build_eq_ok_iff.mp hbuild).1.symm.trans ht)
  obtain rfl : [97, 98, 99] = w := (hspells _).mp (by decide +kernel)
  exact ⟨_, state, hbuild, hstate, hlists rfl⟩

end Automaton

end FirstHit
