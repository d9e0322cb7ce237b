import FirstHit.Proofs.Jumps

/-!
# Automata made from parts

The parts of an automaton need not come from a build. It is enough that they fit together
(`Automaton.Coherent`): there is a root, the table is total, and the patterns that states accept are
there. Making the automaton then succeeds, with a prefilter or without, and a scan finds every state
and every pattern that it looks up. One fault is left, which coherence does not exclude: a state may
accept a pattern that is longer than all that was read, so that the occurrence would start before
the text does.

The prefilter shows neither in an answer nor in that fault (`Automaton.findWith_ofParts`). It is
chosen from the table, and what it skips is what a scan at the root reads without moving.
-/

namespace FirstHit

namespace Automaton

variable {search : Search} {a : Automaton} {s : StateId}

/-- The parts of an automaton fit together. -/
structure Coherent (a : Automaton) : Prop where
  /-- There is a state, and so there is a root. -/
  nonempty : a.states ≠ #[]
  /-- Transitions and failure links are there, and lead to states. -/
  total : a.isTotal = true
  /-- States accept patterns that are there. -/
  id_lt : ∀ state ∈ a.states, ∀ id ∈ state.ids, id < a.patternCount

/-- All that a scan can come to where nothing is looked up in vain: an answer, or an occurrence that
would start before the text. -/
def Answered (result : Checked (Option Hit)) : Prop :=
  (∃ found, result = .ok found) ∨
    ∃ length stop, stop < length ∧ result = .error (.startsBeforeText length stop)

/-! ## Looking up -/

namespace Coherent

theorem root_lt (ha : a.Coherent) : StateId.root.index < a.stateCount := by
  rw [StateId.index_root, stateCount, Array.size_pos_iff]
  exact ha.nonempty

theorem next_eq_ok (ha : a.Coherent) (hs : s.index < a.stateCount) (b : UInt8) :
    ∃ reached, a.next s b = .ok reached ∧ reached.index < a.stateCount := by
  obtain ⟨⟨hsize, htargets⟩, -⟩ : (a.table.size = a.stateCount * Byte.count ∧
      ∀ i, (hi : i < a.table.size) → a.table[i].index < a.stateCount) ∧ _ := by
    simpa only [isTotal, Bool.and_eq_true, beq_iff_eq, Array.all_eq_true, decide_eq_true_eq]
      using ha.total
  have hcell := cell_lt hs b
  rw [← hsize] at hcell
  exact ⟨a.table[cell s b], Checked.entry_of_lt hcell, htargets _ hcell⟩

theorem hit?_answered (ha : a.Coherent) (hs : s.index < a.stateCount) (stop : Nat) :
    Answered (a.hit? s stop) := by
  have hids := ha.id_lt _ (Array.getElem_mem hs)
  rw [hit?, state, Checked.entry_of_lt hs, ok_bind]
  cases hlist : a.states[s.index].ids with
  | nil => exact Or.inl ⟨none, rfl⟩
  | cons id ids =>
    have hid : id < a.patternCount := hids id (hlist ▸ List.mem_cons_self)
    dsimp only
    rw [pattern, Checked.entry_of_lt hid, ok_bind]
    by_cases hle : a.patterns[id].length ≤ stop
    · rw [if_pos hle]
      exact Or.inl ⟨_, rfl⟩
    · -- nothing ties the length of a pattern to the states that accept it
      rw [if_neg hle]
      exact Or.inr ⟨_, _, Nat.not_le.mp hle, rfl⟩

/-! ## Scanning -/

/-- A scan goes from state to state, and looks nothing up in vain. -/
theorem scan_answered (ha : a.Coherent) (hplain : a.prefilter = none) (hs : s.index < a.stateCount)
    (offset : Nat) (text : Bytes) : Answered (a.scan search s offset text) := by
  induction text generalizing s offset with
  | nil =>
    rw [scan_nil]
    exact Or.inl ⟨none, rfl⟩
  | cons b text ih =>
    obtain ⟨reached, hnext, hreached⟩ := ha.next_eq_ok hs b
    rw [scan_cons hplain, read, hnext, ok_bind]
    rcases ha.hit?_answered hreached (offset + 1) with ⟨found, hfound⟩ | ⟨length, stop, hlt, hfault⟩
    · rw [hfound, ok_bind]
      cases found with
      | none => exact ih hreached (offset + 1)
      | some hit => exact Or.inl ⟨some hit, rfl⟩
    · rw [hfault]
      exact Or.inr ⟨length, stop, hlt, rfl⟩

/-! ## Choosing a prefilter -/

theorem leaving?_eq_ok (ha : a.Coherent) (found bs : List UInt8) :
    ∃ bytes, a.leaving? found bs = .ok bytes := by
  induction bs generalizing found with
  | nil => exact ⟨some found, rfl⟩
  | cons b bs ih =>
    obtain ⟨target, hnext, -⟩ := ha.next_eq_ok ha.root_lt b
    rw [leaving?_cons hnext]
    split
    case isTrue => exact ih found
    case isFalse =>
      split
      case isTrue => exact ⟨none, rfl⟩
      case isFalse => exact ih (found ++ [b])

theorem rootPrefilter_eq_ok (ha : a.Coherent) : ∃ fitting, a.rootPrefilter = .ok fitting := by
  obtain ⟨bytes, hbytes⟩ := ha.leaving?_eq_ok [] Byte.all
  have hroot : StateId.root.index < a.states.size := ha.root_lt
  rw [rootPrefilter, state, Checked.entry_of_lt hroot, ok_bind]
  by_cases haccepting : a.states[StateId.root.index].isAccepting = true
  · rw [if_pos haccepting]
    exact ⟨none, rfl⟩
  · rw [if_neg haccepting, hbytes, ok_bind]
    exact ⟨_, rfl⟩

end Coherent

/-! ## Prefilters do not show -/

theorem ofParts_false (a : Automaton) (hplain : a.prefilter = none) :
    ofParts a.states a.table a.patterns false = .ok a := by
  obtain ⟨states, table, patterns, prefilter⟩ := a
  subst hplain
  rfl

/-- **A prefilter is transparent.** Coherent parts make an automaton with a prefilter and one
without, and both answer every text alike: with the same hit, with none, or with the same fault that
an occurrence would start before the text. -/
theorem findWith_ofParts {states : Array State} {table : Array StateId} {patterns : Array Bytes}
    (hsearch : search.Leftmost) (hparts : Coherent { states, table, patterns }) :
    ∃ jumping plain, ofParts states table patterns true = .ok jumping ∧
      ofParts states table patterns false = .ok plain ∧
      ∀ text, jumping.findWith search text = plain.findWith search text ∧
        Answered (plain.findWith search text) := by
  obtain ⟨fitting, hfitting⟩ := hparts.rootPrefilter_eq_ok
  refine ⟨{ states, table, patterns, prefilter := fitting }, { states, table, patterns },
    ?_, rfl, fun text ↦ ⟨?_, ?_⟩⟩
  · exact bind_eq_ok_iff.mpr ⟨fitting, hfitting, rfl⟩
  · exact findWith_of_rootPrefilter hsearch rfl hfitting text
  · exact hparts.scan_answered rfl hparts.root_lt 0 text

/-- Parts that no build makes: the state behind a first `a` accepts a pattern of three bytes. -/
def hasty : Automaton where
  states := #[{ fail := .root, depth := 0, ids := [] }, { fail := .root, depth := 1, ids := [0] }]
  table := (Array.replicate (2 * Byte.count) StateId.root).setIfInBounds 97 ⟨1⟩
  patterns := #[[98, 98, 97]]

theorem findWith_ofParts_hasty :
    ∃ jumping plain, ofParts hasty.states hasty.table hasty.patterns true = .ok jumping ∧
      ofParts hasty.states hasty.table hasty.patterns false = .ok plain ∧
      jumping.findWith Prefilter.next? [98, 97] = plain.findWith Prefilter.next? [98, 97] ∧
      plain.findWith Prefilter.next? [98, 97] = .error (.startsBeforeText 3 2) := by
  have htotal : isTotal ⟨hasty.states, hasty.table, hasty.patterns, none⟩ = true := by
    rw [isTotal, ← Array.all_toList, ← Array.all_toList]
    decide +kernel
  have hparts : Coherent ⟨hasty.states, hasty.table, hasty.patterns, none⟩ :=
    ⟨by decide, htotal, by decide⟩
  obtain ⟨jumping, plain, hjumping, hplain, hfind⟩ :=
    findWith_ofParts Prefilter.leftmost_next? hparts
  refine ⟨jumping, plain, hjumping, hplain, (hfind _).1, ?_⟩
  have hstay : hasty.next .root 98 = .ok .root :=
    Checked.entry_eq_ok_iff.mpr (by decide +kernel)
  have hleave : hasty.next .root 97 = .ok ⟨1⟩ :=
    Checked.entry_eq_ok_iff.mpr (by decide +kernel)
  have hquiet : hasty.hit? .root 1 = .ok none := rfl
  have hfault : hasty.hit? ⟨1⟩ 2 = .error (.startsBeforeText 3 2) := rfl
  rw [ofParts_false hasty rfl] at hplain
  obtain rfl := Except.ok.inj hplain
  rw [findWith, scan_cons rfl, read, hstay, ok_bind, hquiet, ok_bind]
  dsimp only
  rw [scan_cons rfl, read, hleave, ok_bind, hfault]
  rfl

end Automaton

end FirstHit
