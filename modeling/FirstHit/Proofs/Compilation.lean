import FirstHit.Build
import FirstHit.Proofs.Densification

/-!
# Automata in closed form

Linking and filling add nothing that the live strings do not determine, so the automaton of a list
of patterns can be written down (`Automaton.ofLiveStrings`). A build that gets past the insertion of
its patterns succeeds and makes this automaton (`build_of_ofPatterns`), and no build makes another
one (`build_eq_ok_iff`). Statements about built automata are proved of the closed form.
-/

namespace FirstHit

variable {c : Config} {patterns : List Bytes} {w : Bytes} {b : UInt8}

/-! ## The closed form -/

/-- The state of `w`. -/
def liveState (inherit : Bool) (patterns : List Bytes) (w : Bytes) : State where
  fail := .ofPath (livePaths patterns) (liveSuffix patterns w.tail)
  depth := UInt32.ofNat w.length
  ids := acceptedIds inherit patterns w

/-- The prefilter for the first bytes of the patterns. There is none if the empty pattern is among
them. -/
def firstBytes? (patterns : List Bytes) : Option Prefilter :=
  if patterns.contains [] then none
  else Prefilter.ofBytes? (Byte.all.filter fun b ↦ isLive patterns [b])

/-- The automaton that a build makes for `patterns`. -/
def Automaton.ofLiveStrings (c : Config) (patterns : List Bytes) : Automaton where
  states := ((livePaths patterns).map (liveState c.inheritSuffixMatches patterns)).toArray
  table := liveTable patterns
  patterns := patterns.toArray
  prefilter := if c.prefilter then firstBytes? patterns else none

theorem states_linkedTrie (inherit : Bool) (patterns : List Bytes) (order : List StateId) :
    LinkedTrie.states { trie := Trie.linkedTrie inherit patterns, order }
      = ((livePaths patterns).map (liveState inherit patterns)).toArray := by
  rw [LinkedTrie.states, Trie.linkedTrie, Trie.ofPaths, List.map_toArray, List.map_map]
  rfl

/-! ## Reading the closed form -/

namespace Automaton

theorem state_ofLiveStrings (hn : Numbering (livePaths patterns)) (c : Config)
    (hw : isLive patterns w = true) :
    (ofLiveStrings c patterns).state (.ofPath (livePaths patterns) w)
      = .ok (liveState c.inheritSuffixMatches patterns w) := by
  have hmem := mem_livePaths.mpr hw
  rw [state, Checked.entry_eq_ok_iff, ofLiveStrings, hn.index_ofPath hmem, List.getElem?_toArray,
    List.getElem?_map, List.getElem?_idxOf hmem, Option.map_some]

theorem next_ofLiveStrings (hn : Numbering (livePaths patterns)) (c : Config)
    (hw : isLive patterns w = true) (b : UInt8) :
    (ofLiveStrings c patterns).next (.ofPath (livePaths patterns) w) b
      = .ok (.ofPath (livePaths patterns) (liveSuffix patterns (w ++ [b]))) := by
  rw [next, Checked.entry_eq_ok_iff, ofLiveStrings, getElem?_liveTable hn hw]

theorem failure_ofLiveStrings (hn : Numbering (livePaths patterns)) (c : Config)
    (hw : isLive patterns w = true) :
    (ofLiveStrings c patterns).failure (.ofPath (livePaths patterns) w)
      = .ok (.ofPath (livePaths patterns) (liveSuffix patterns w.tail)) := by
  rw [failure, state_ofLiveStrings hn c hw, ok_bind, liveState]

theorem pattern_ofLiveStrings (c : Config) {id : Nat} {p : Bytes} (h : patterns[id]? = some p) :
    (ofLiveStrings c patterns).pattern id = .ok p := by
  rw [pattern, Checked.entry_eq_ok_iff, ofLiveStrings, List.getElem?_toArray, h]

theorem stateCount_ofLiveStrings (c : Config) (patterns : List Bytes) :
    (ofLiveStrings c patterns).stateCount = (livePaths patterns).length := by
  rw [stateCount, ofLiveStrings, List.size_toArray, List.length_map]

theorem exists_ofPath_of_lt (hn : Numbering (livePaths patterns)) {c : Config} {s : StateId}
    (hs : s.index < (ofLiveStrings c patterns).stateCount) :
    ∃ w, isLive patterns w = true ∧ StateId.ofPath (livePaths patterns) w = s := by
  rw [stateCount_ofLiveStrings] at hs
  obtain ⟨w, hmem, rfl⟩ := hn.exists_ofPath hs
  exact ⟨w, mem_livePaths.mp hmem, rfl⟩

theorem exists_liveState (hn : Numbering (livePaths patterns)) {c : Config} {s : StateId}
    {state : State} (h : (ofLiveStrings c patterns).state s = .ok state) :
    ∃ w, isLive patterns w = true ∧ s = .ofPath (livePaths patterns) w ∧
      state = liveState c.inheritSuffixMatches patterns w := by
  obtain ⟨hs, -⟩ := Array.getElem?_eq_some_iff.mp (Checked.entry_eq_ok_iff.mp h)
  obtain ⟨w, hw, rfl⟩ := exists_ofPath_of_lt hn hs
  rw [state_ofLiveStrings hn c hw] at h
  exact ⟨w, hw, rfl, (Except.ok.inj h).symm⟩

theorem next_root_ofLiveStrings (hn : Numbering (livePaths patterns)) (c : Config) (b : UInt8) :
    ∃ s, (ofLiveStrings c patterns).next .root b = .ok s ∧
      (s = .root ↔ ¬isLive patterns [b] = true) := by
  have hnext := next_ofLiveStrings hn c (isLive_nil patterns) b
  rw [hn.ofPath_nil, List.nil_append] at hnext
  refine ⟨_, hnext, ?_⟩
  by_cases hb : isLive patterns [b] = true
  · have hne := hn.ofPath_ne_root (mem_livePaths.mpr hb) (List.cons_ne_nil b [])
    rw [liveSuffix_eq_self hb]
    exact iff_of_false hne (not_not_intro hb)
  · rw [liveSuffix_cons_of_not_isLive hb, liveSuffix_nil, hn.ofPath_nil]
    exact iff_of_true rfl hb

theorem leaving?_ofLiveStrings (hn : Numbering (livePaths patterns)) (c : Config)
    {found : List UInt8} (hfew : found.length ≤ 3) (bs : List UInt8) :
    (ofLiveStrings c patterns).leaving? found bs = .ok
      (if (found ++ bs.filter fun b ↦ isLive patterns [b]).length ≤ 3 then
        some (found ++ bs.filter fun b ↦ isLive patterns [b])
      else none) := by
  induction bs generalizing found with
  | nil =>
    rw [List.filter_nil, List.append_nil, if_pos hfew]
    rfl
  | cons b bs ih =>
    obtain ⟨s, hnext, hs⟩ := next_root_ofLiveStrings hn c b
    rw [leaving?_cons hnext]
    by_cases hb : isLive patterns [b] = true
    · rw [if_neg (hs.not.mpr (not_not_intro hb)),
        List.filter_cons_of_pos (p := fun b ↦ isLive patterns [b]) hb,
        List.append_cons found b (bs.filter _)]
      by_cases hmany : 3 < (found ++ [b]).length
      · have hle := (List.prefix_append (found ++ [b]) (bs.filter (isLive patterns [·]))).length_le
        rw [if_pos hmany, if_neg (Nat.not_le.mpr (hmany.trans_le hle))]
      · rw [if_neg hmany]
        exact ih (Nat.not_lt.mp hmany)
    · rw [if_pos (hs.mpr hb), List.filter_cons_of_neg (p := fun b ↦ isLive patterns [b]) hb]
      exact ih hfew

theorem isAccepting_liveState_nil (inherit : Bool) (patterns : List Bytes) :
    (liveState inherit patterns []).isAccepting = patterns.contains [] := by
  rw [Bool.eq_iff_iff, State.isAccepting, Bool.not_eq_true', List.isEmpty_eq_false_iff, liveState,
    List.contains_iff_mem]
  dsimp only
  rw [acceptedIds_nil, Ne, idxsOf_eq_nil_iff, not_not]

theorem rootPrefilter_ofLiveStrings (hn : Numbering (livePaths patterns)) (c : Config) :
    (ofLiveStrings c patterns).rootPrefilter = .ok (firstBytes? patterns) := by
  have hroot := state_ofLiveStrings hn c (isLive_nil patterns)
  rw [hn.ofPath_nil] at hroot
  rw [rootPrefilter, hroot, ok_bind, firstBytes?, isAccepting_liveState_nil]
  by_cases hnil : patterns.contains [] = true
  · rw [if_pos hnil, if_pos hnil]
  · have hleaving := leaving?_ofLiveStrings hn c (by decide : [].length ≤ 3) Byte.all
    rw [if_neg hnil, if_neg hnil, hleaving, ok_bind, List.nil_append]
    split
    case isTrue => rfl
    case isFalse hmany => rw [Option.bind_none, Prefilter.ofBytes?, dif_neg (hmany ·.2)]

/-- With its parts an automaton gets the prefilter that the configuration asks for. -/
theorem ofParts_ofLiveStrings (hn : Numbering (livePaths patterns)) (c : Config) :
    ofParts ((livePaths patterns).map (liveState c.inheritSuffixMatches patterns)).toArray
        (liveTable patterns) patterns.toArray c.prefilter
      = .ok (ofLiveStrings c patterns) := by
  have hroot := rootPrefilter_ofLiveStrings hn (c.withPrefilter false)
  rw [ofParts, ofLiveStrings]
  cases c.prefilter with
  | false => rfl
  | true =>
    rw [if_pos rfl, if_pos rfl]
    exact bind_eq_ok_iff.mpr ⟨_, hroot, rfl⟩

end Automaton

/-! ## Builds -/

/-- A table for all states that identifiers can tell apart can be counted. -/
theorem Numbering.length_mul_count_lt {paths : List Bytes} (hn : Numbering paths) :
    paths.length * Byte.count < UInt64.size := by
  have hle := Nat.mul_le_mul_right Byte.count hn.length_le
  have hfits : StateId.capacity * Byte.count < UInt64.size := by decide
  exact Nat.lt_of_le_of_lt hle hfits

theorem admitTable_livePaths (hn : Numbering (livePaths patterns)) :
    admitTable ((livePaths patterns).length * Byte.count) = .ok () := by
  rw [admitTable, if_pos hn.length_mul_count_lt]

theorem Trie.compile_ofLiveStrings (hn : Numbering (livePaths patterns)) (c : Config) :
    (ofLiveStrings patterns).compile c patterns = .ok (Automaton.ofLiveStrings c patterns) := by
  obtain ⟨order, horder, hlink⟩ := linkArranged_ofLiveStrings hn c.inheritSuffixMatches
    (fun _ edges ↦ edges) fun _ edges ↦ List.Perm.refl edges
  have hsize : (ofLiveStrings patterns).size = (livePaths patterns).length := size_ofPaths _ _
  rw [compile, link, hlink, Building.ofChecked_ok, ok_bind, hsize, admitTable_livePaths hn, ok_bind,
    LinkedTrie.table_linkedTrie hn horder, Building.ofChecked_ok, ok_bind, states_linkedTrie,
    Automaton.ofParts_ofLiveStrings hn, Building.ofChecked_ok]

/-- A build that can insert its patterns succeeds. -/
theorem build_of_ofPatterns {t : Trie} (h : Trie.ofPatterns c patterns = .ok t) :
    (build c patterns).result = .ok (Automaton.ofLiveStrings c patterns) := by
  obtain ⟨hn, rfl⟩ := Trie.ofPatterns_eq_ofLiveStrings h
  rw [build, Config.compile, h, ok_bind, Trie.compile_ofLiveStrings hn]

/-- **Builds in closed form.** A build makes the automaton of the live strings or none. -/
theorem build_eq_ok_iff {a : Automaton} :
    (build c patterns).result = .ok a ↔
      Trie.ofPatterns c patterns = .ok (Trie.ofLiveStrings patterns) ∧
        Numbering (livePaths patterns) ∧ a = Automaton.ofLiveStrings c patterns := by
  constructor
  · intro h
    cases ht : Trie.ofPatterns c patterns with
    | error refusal =>
      rw [build, Config.compile, ht] at h
      cases h
    | ok t =>
      obtain ⟨hn, rfl⟩ := Trie.ofPatterns_eq_ofLiveStrings ht
      rw [build_of_ofPatterns ht] at h
      cases h
      exact ⟨rfl, hn, rfl⟩
  · rintro ⟨ht, -, rfl⟩
    exact build_of_ofPatterns ht

end FirstHit
