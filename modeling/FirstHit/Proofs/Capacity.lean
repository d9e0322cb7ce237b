import FirstHit.Proofs.Descents
import FirstHit.Proofs.Walks

/-!
# Counts and their words

Depths and identifiers are 32-bit words, and the entries of a table are counted by a 64-bit word.
There are never more states than identifiers, so a table never has too many entries, and since a
state has all prefixes of its path beside it, its depth is less than the number of states. The sum
that an insertion forms for the depth of a new node therefore fits, unless all identifiers are in
use and belong to the states on the way to the one that has been reached
(`Trie.Descending.childDepth_eq`).

A list of patterns that needs more states than there are identifiers is refused, and what for is
known in closed form (`Trie.ofPatterns_of_beyond`): for a limit of the configuration if one is met
before all identifiers are in use, and otherwise for what the next state would need. This is an
identifier, unless the path to that state is a single chain of all identifiers (`FullChain`), where
the sum of depths does not fit.
-/

namespace FirstHit

variable {c : Config} {patterns done : List Bytes} {v p rest : Bytes} {s : StateId}
  {limit : UInt64} {refusal : Refusal}

/-! ## Depths -/

namespace Trie

variable {t grown : Trie}

/-- Every state has one path, and its depth is the length of that path. -/
def DepthsExact (t : Trie) : Prop :=
  ∀ s n, t.node s = .ok n → ∃ w, t.Spells w s ∧ n.depth.toNat = w.length

theorem depthsExact_plain (hn : Numbering (livePaths patterns)) (ids : Bytes → List Nat) :
    (plain (livePaths patterns) ids).DepthsExact := by
  intro s n hnode
  obtain ⟨w, hw, rfl, rfl⟩ := exists_of_getElem?_ofPaths hn (Checked.entry_eq_ok_iff.mp hnode)
  exact ⟨w, spells_plain hn hw, toNat_depth_plainNode hn hw ids⟩

theorem Descending.depthsExact (h : Descending c patterns t s rest) : t.DepthsExact := by
  obtain ⟨done, v, more, -, hn, rfl, -⟩ := h.exists_descended
  exact depthsExact_plain hn _

/-- The depth of the next node fits, unless all identifiers are used up by the states on the path to
the one that has been reached. -/
theorem Descending.childDepth_eq (h : Descending c patterns t s rest) :
    ∃ n, t.node s = .ok n ∧
      ((∃ depth, n.childDepth = .ok depth ∧ depth.toNat = n.depth.toNat + 1) ∨
        n.depth.toNat + 1 = t.size ∧ t.size = StateId.capacity) := by
  obtain ⟨done, v, more, -, hn, rfl, rfl⟩ := h.exists_descended
  have hv := last_mem_livePaths done v
  refine ⟨_, node_descended hn, ?_⟩
  by_cases hfits : v.length + 1 < UInt32.size
  · have hdepth := (childDepth_plainNode hn hv fun w ↦ done.idxsOf w).trans (if_pos hfits)
    exact Or.inl ⟨_, hdepth, Node.childDepth_eq_ok_iff.mp hdepth⟩
  · -- the prefixes of the path are as many as there are identifiers
    have hlt := hn.length_lt hv
    have hle : (livePaths (done ++ [v])).length ≤ UInt32.size := hn.length_le
    rw [toNat_depth_plainNode hn hv, size_descended, StateId.capacity]
    exact Or.inr ⟨by omega, by omega⟩

theorem index_of_addNode {depth : UInt32} (h : t.addNode c depth = .ok (grown, s)) :
    t.size < StateId.capacity ∧ s.index = t.size ∧ grown.size = t.size + 1 := by
  obtain ⟨-, hlt, hid, rfl⟩ := addNode_eq_ok h
  exact ⟨hlt, StateId.index_of_ofIndex? hid, Array.size_push _⟩

theorem size_mul_count_lt (h : ofPatterns c patterns = .ok t) :
    t.size * Byte.count < UInt64.size := by
  obtain ⟨hn, rfl⟩ := ofPatterns_eq_ofLiveStrings h
  rw [ofLiveStrings, plain, size_ofPaths]
  exact hn.length_mul_count_lt

end Trie

theorem depth_build {a : Automaton} (h : (build c patterns).result = .ok a) :
    ∃ t, Trie.ofPatterns c patterns = .ok t ∧ t.DepthsExact ∧
      ∀ s state, a.state s = .ok state → ∃ w, t.Spells w s ∧ state.depth.toNat = w.length := by
  obtain ⟨ht, hn, rfl⟩ := build_eq_ok_iff.mp h
  refine ⟨_, ht, Trie.depthsExact_plain hn _, fun s state hstate ↦ ?_⟩
  obtain ⟨w, hw, rfl, rfl⟩ := Automaton.exists_liveState hn hstate
  exact ⟨w, Trie.spells_ofPath hn hw, Automaton.toNat_depth_liveState hn _ hw⟩

/-! ## Running out of identifiers -/

theorem Trie.fullRefusal_cases (c : Config) (v : Bytes) :
    (fullRefusal c v).Announced ∨
      fullRefusal c v = { error := .stateLimitExceeded 4294967295 } ∨
      v.length = StateId.capacity ∧ fullRefusal c v = { error := .fault .tooDeep } := by
  rw [fullRefusal]
  by_cases hchain : v.length = StateId.capacity
  · exact Or.inr (Or.inr ⟨hchain, if_pos hchain⟩)
  · rw [if_neg hchain]
    cases hadmit : c.admitState StateId.capacity with
    | error refusal => exact Or.inl (Config.announced_of_admitState hadmit)
    | ok admitted => exact Or.inr (Or.inl rfl)

namespace Trie

/-- If the patterns up to `p` need a state without an identifier, their insertion ends there at the
latest. -/
theorem ofPatterns_of_beyond (hfits : (livePaths done).length ≤ StateId.capacity)
    (hv : (livePaths (done ++ [p]))[StateId.capacity]? = some v) (more : List Bytes) :
    ofPatterns c (done ++ p :: more) = (do
      c.admitAll done
      c.admitPattern done.length p
      c.admitState (StateId.capacity - 1)
      .error (fullRefusal c v)) := by
  have hn := numbering_livePaths hfits
  rw [livePaths_append_singleton, ← continued_nil hn] at hv
  rw [ofPatterns_append, ofPatterns_eq hfits, bind_assoc]
  cases hadmit : c.admitAll done with
  | error refusal => rfl
  | ok admitted =>
    have hextend := extend_plain_eq p hn (fun _ ↦ idxsOf_eq_nil_of_notMem) hn.nil_mem
      (Config.admitState_of_admitAll hadmit)
    have hlt := (List.getElem?_eq_some_iff.mp hv).1
    rw [hv, Nat.min_eq_right hlt.le, hn.ofPath_nil, ← ofLiveStrings] at hextend
    rw [ok_bind, ok_bind, ok_bind, insertFrom, insert, hextend, bind_assoc, bind_assoc, bind_assoc]
    rfl

end Trie

theorem exists_filling (hfull : StateId.capacity < (livePaths patterns).length) :
    ∃ done p more v, patterns = done ++ p :: more ∧
      (livePaths done).length ≤ StateId.capacity ∧
      (livePaths (done ++ [p]))[StateId.capacity]? = some v := by
  induction patterns using List.reverseRecOn with
  | nil => exact absurd hfull (by decide)
  | append_singleton patterns q ih =>
    by_cases hbefore : StateId.capacity < (livePaths patterns).length
    · obtain ⟨done, p, more, v, rfl, hfits, hv⟩ := ih hbefore
      exact ⟨done, p, more ++ [q], v, by simp, hfits, hv⟩
    · exact ⟨patterns, q, [], _, rfl, Nat.not_lt.mp hbefore, List.getElem?_eq_getElem hfull⟩

/-- The patterns use up all identifiers on a single path and need one more state on it: the string
that would have the next identifier has all the others as its prefixes. -/
def FullChain (patterns : List Bytes) : Prop :=
  ∃ v, (livePaths patterns)[StateId.capacity]? = some v ∧ v.length = StateId.capacity

theorem getElem?_livePaths_append (hv : (livePaths (done ++ [p]))[StateId.capacity]? = some v)
    (more : List Bytes) : (livePaths (done ++ p :: more))[StateId.capacity]? = some v := by
  obtain ⟨others, hothers⟩ := livePaths_prefix_append (done ++ [p]) more
  rw [List.append_cons, ← hothers]
  obtain ⟨hlt, rfl⟩ := List.getElem?_eq_some_iff.mp hv
  rw [List.getElem?_append_left hlt, List.getElem?_eq_getElem hlt]

/-- **What a build can fail for.** A limit of the configuration is exceeded, there is no identifier
for a state, or the identifiers are used up on a single path. -/
theorem compile_eq_error (h : c.compile patterns = .error refusal) :
    refusal.Announced ∨ refusal = { error := .stateLimitExceeded 4294967295 } ∨
      FullChain patterns ∧ refusal = { error := .fault .tooDeep } := by
  by_cases hfits : (livePaths patterns).length ≤ StateId.capacity
  · rw [Config.compile_eq hfits] at h
    rcases bind_eq_error_iff.mp h with h | ⟨-, -, ⟨⟩⟩
    exact Or.inl (Config.announced_of_admitAll h)
  · obtain ⟨done, p, more, v, rfl, hdone, hv⟩ := exists_filling (Nat.not_le.mp hfits)
    rw [Config.compile, Trie.ofPatterns_of_beyond hdone hv, bind_assoc, bind_assoc, bind_assoc] at h
    rcases bind_eq_error_iff.mp h with h | ⟨-, -, h⟩
    · exact Or.inl (Config.announced_of_admitAll h)
    rcases bind_eq_error_iff.mp h with h | ⟨-, -, h⟩
    · exact Or.inl (Config.announced_of_admitPattern h)
    rcases bind_eq_error_iff.mp h with h | ⟨-, -, h⟩
    · exact Or.inl (Config.announced_of_admitState h)
    obtain rfl : Trie.fullRefusal c v = refusal := Except.error.inj h
    rcases Trie.fullRefusal_cases c v with hlimit | hlimit | ⟨hlength, hfault⟩
    · exact Or.inl hlimit
    · exact Or.inr (Or.inl hlimit)
    · exact Or.inr (Or.inr ⟨⟨v, getElem?_livePaths_append hv more, hlength⟩, hfault⟩)

/-! ## What becomes of builds -/

theorem exists_refusal {error : Error} (h : (build c patterns).result = .error error) :
    ∃ refusal, c.compile patterns = .error refusal ∧ refusal.error = error := by
  rw [build] at h
  cases hcompile : c.compile patterns with
  | ok a =>
    rw [hcompile] at h
    cases h
  | error refusal =>
    rw [hcompile] at h
    exact ⟨refusal, rfl, Except.error.inj h⟩

/-- No build ends for want of memory, because no table is too large to be counted. -/
theorem build_ne_allocationFailed (c : Config) (patterns : List Bytes) (reason : String) :
    (build c patterns).result ≠ .error (.allocationFailed reason) := by
  intro h
  obtain ⟨refusal, hrefusal, herror⟩ := exists_refusal h
  rcases compile_eq_error hrefusal with (_ | _) | rfl | ⟨-, rfl⟩ <;> cases herror

/-- No build meets a fault but where the identifiers are used up on a single path. -/
theorem fullChain_of_fault {cause : Fault} (h : (build c patterns).result = .error (.fault cause)) :
    cause = .tooDeep ∧ FullChain patterns := by
  obtain ⟨refusal, hrefusal, herror⟩ := exists_refusal h
  rcases compile_eq_error hrefusal with (_ | _) | rfl | ⟨hchain, rfl⟩
  · cases herror
  · cases herror
  · cases herror
  · exact ⟨(Error.fault.inj herror).symm, hchain⟩

/-- **Running out of identifiers.** If the patterns have more prefixes than there are identifiers, a
build is refused for this, unless the identifiers are used up on a single path, the limit on states
is met before, or a pattern is too long among those that fit and the one after them. -/
theorem build_of_no_identifiers (hfull : StateId.capacity < prefixCount patterns)
    (hchain : ¬FullChain patterns)
    (hstates : ∀ limit, c.maxStates = some limit → StateId.capacity < limit.toNat)
    (hshort : ∀ k p, patterns[k]? = some p → prefixCount (patterns.take k) ≤ StateId.capacity →
      ¬c.TooLong p) :
    build c patterns = { result := .error (.stateLimitExceeded 4294967295), log := [] } := by
  rw [← length_livePaths] at hfull
  obtain ⟨done, p, more, v, rfl, hfits, hv⟩ := exists_filling hfull
  have hcount : prefixCount done ≤ StateId.capacity := (length_livePaths done).symm.trans_le hfits
  have hroom : ∀ m ≤ StateId.capacity, c.admitState m = .ok () := fun m hm ↦
    Config.admitState_eq_ok fun limit hlimit ↦ hm.trans_lt (hstates limit hlimit)
  have hshort_done : ∀ q ∈ done, ¬c.TooLong q := by
    intro q hq
    obtain ⟨k, hk, rfl⟩ := List.getElem_of_mem hq
    refine hshort k done[k] (by rw [List.getElem?_append_left hk, List.getElem?_eq_getElem hk]) ?_
    rw [List.take_append_of_le_length hk.le]
    exact (Config.prefixCount_take_le done k).trans hcount
  have hshort_p : ¬c.TooLong p := by
    refine hshort done.length p (by simp) ?_
    rwa [List.take_left]
  have hroot : c.maxStates ≠ some 0 := fun hzero ↦ by
    exact absurd (hstates 0 hzero) (by decide)
  have hexceeds : ∀ k, ¬c.ExceedsAt done k := Config.not_exceedsAt_of_le
    (fun limit hlimit ↦ (hcount.trans_lt (hstates limit hlimit)).le) hshort_done
  have hlength : v.length ≠ StateId.capacity := fun hlength ↦
    hchain ⟨v, getElem?_livePaths_append hv more, hlength⟩
  rw [build, Config.compile, Trie.ofPatterns_of_beyond hfits hv,
    Config.admitAll_eq_ok hroot hexceeds, Config.admitPattern_eq_ok hshort_p,
    hroom _ (Nat.sub_le _ 1), Trie.fullRefusal, if_neg hlength, hroom _ (Nat.le_refl _)]
  rfl

/-! ## Patterns with too many prefixes -/

theorem prefixCount_singleton (p : Bytes) : prefixCount [p] = p.length + 1 := by
  apply Nat.le_antisymm
  · have hmem : [] ∈ p.inits := (List.mem_inits [] p).mpr List.nil_prefix
    rw [prefixCount, List.flatMap_singleton, List.dedup_cons_of_mem hmem, ← List.length_inits]
    exact (List.dedup_sublist p.inits).length_le
  · rw [← length_livePaths]
    exact length_lt_length_livePaths (isLive_of_mem (List.mem_singleton_self p))

theorem livePaths_beside (n : Nat) :
    livePaths [[1], List.replicate n 0]
      = [[], [1]] ++ (List.range n).map fun k ↦ List.replicate (k + 1) 0 := by
  induction n with
  | zero => rfl
  | succ n ih =>
    have hnew : List.replicate (n + 1) 0 ∉
        [[], [1]] ++ (List.range n).map fun k ↦ List.replicate (k + 1) (0 : UInt8) := by
      intro hmem
      rcases List.mem_append.mp hmem with hmem | hmem
      · rw [List.replicate_succ] at hmem
        simp at hmem
      · obtain ⟨k, hk, heq⟩ := List.mem_map.mp hmem
        have hlength := congrArg List.length heq
        rw [List.length_replicate, List.length_replicate] at hlength
        exact absurd (List.mem_range.mp hk) (by omega)
    have hstep := livePaths_append_concat [[1]] (List.replicate n 0) 0
    rw [← List.replicate_succ', List.singleton_append, List.singleton_append, ih,
      appendNew_of_notMem hnew] at hstep
    rw [hstep, List.range_succ, List.map_append, List.append_assoc]
    rfl

theorem getElem?_livePaths_beside {m n : Nat} (hm : 2 ≤ m) (hlt : m < n + 2) :
    (livePaths [[1], List.replicate n 0])[m]? = some (List.replicate (m - 1) 0) := by
  have hm' : m - 2 < n := by omega
  have hlength : m - 2 + 1 = m - 1 := by omega
  rw [livePaths_beside, List.getElem?_append_right hm, List.getElem?_map]
  change ((List.range n)[m - 2]?).map _ = _
  rw [List.getElem?_range hm', Option.map_some, hlength]

/-- As many zeros as there are identifiers. -/
def overlong : Bytes := List.replicate 4294967296 0

theorem length_overlong : overlong.length = 4294967296 := List.length_replicate

theorem capacity_lt_prefixCount_overlong : StateId.capacity < prefixCount [overlong] := by
  rw [prefixCount_singleton, length_overlong]
  exact Nat.lt_succ_self _

theorem not_fullChain_beside_overlong :
    StateId.capacity < prefixCount [[1], overlong] ∧ ¬FullChain [[1], overlong] := by
  have hnext : (livePaths [[1], overlong])[StateId.capacity]?
      = some (List.replicate (StateId.capacity - 1) 0) :=
    getElem?_livePaths_beside (by decide) (by decide)
  constructor
  · rw [← length_livePaths]
    exact (List.getElem?_eq_some_iff.mp hnext).1
  · rintro ⟨v, hv, hlength⟩
    obtain rfl := Option.some_inj.mp (hnext.symm.trans hv)
    rw [List.length_replicate] at hlength
    exact absurd hlength (by decide)

namespace Trie

theorem descending_singleton (hlt : v.length < StateId.capacity) (rest : Bytes) :
    Numbering (livePaths [v]) ∧
      Descending .default [v ++ rest] (descended [] v) (.ofPath (livePaths [v]) v) rest := by
  have hn : Numbering (livePaths [v]) := numbering_livePaths (by
    rw [length_livePaths, prefixCount_singleton]
    exact hlt)
  have hnone : ofPatterns .default [] = .ok (ofLiveStrings []) :=
    ofPatterns_eq numbering_livePaths_nil.length_le .default
  exact ⟨hn, descending_descended hnone rfl hn (fun _ _ ↦ rfl) []⟩

theorem append_singleton_notMem_livePaths (v : Bytes) (b : UInt8) : v ++ [b] ∉ livePaths [v] := by
  intro h
  have hlt := length_lt_length_livePaths (mem_livePaths.mp h)
  rw [length_livePaths, prefixCount_singleton, List.length_append, List.length_singleton] at hlt
  exact Nat.lt_irrefl _ hlt

theorem Descending.ofPatterns_of_tooDeep {t : Trie} {n : Node} {b : UInt8}
    (h : Descending c patterns t s (b :: rest)) (hnode : t.node s = .ok n)
    (hedge : n.edge? b = none) (hdepth : n.childDepth = .error .tooDeep) :
    ofPatterns c patterns = .error { error := .fault .tooDeep } := by
  obtain ⟨done, p, more, -, hrun⟩ := h.ofPatterns_eq
  rw [hrun, finish, extend, hnode, Building.ofChecked_ok, ok_bind, hedge]
  dsimp only
  rw [hdepth]
  rfl

end Trie

theorem build_singleton_of_tooLong (hroom : c.admitState 0 = .ok ())
    (hlimit : c.maxPatternLength = some limit) (hlt : limit.toNat < p.length) :
    (build c [p]).result = .error (.patternTooLong 0 p.length limit) := by
  rw [build, Config.compile, Trie.ofPatterns, Trie.addNode_empty, hroom, ok_bind, ok_bind]
  dsimp only
  rw [Trie.insertFrom, Trie.insert, Config.admitPattern_eq_error hlimit hlt]
  rfl

/-! ## All counts -/

/-- **Counts fit their words.** Wherever the insertion of the patterns comes to, the depths so far
are the lengths of paths, and the depth of the next node fits and is exact unless the path to the
state that has been reached uses up all identifiers. The finished trie and the automaton have the
lengths of paths for depths as well, a new state has its number as its identifier, and a table has
fewer entries than a machine word can count. So no build ends for want of memory, and none with a
fault unless the identifiers are used up on a single path. Apart from this, patterns that need more
states than there are identifiers are refused for this, if no limit of the configuration comes
first. -/
theorem build_counts_fit (c : Config) (patterns : List Bytes) :
    (∀ t s rest, Trie.Descending c patterns t s rest →
      (∃ done p more, patterns = done ++ p :: more ∧
        Trie.ofPatterns c patterns = t.finish c s rest done.length more) ∧
      t.DepthsExact ∧
      ∃ n, t.node s = .ok n ∧
        ((∃ depth, n.childDepth = .ok depth ∧ depth.toNat = n.depth.toNat + 1) ∨
          n.depth.toNat + 1 = t.size ∧ t.size = StateId.capacity)) ∧
      (∀ a, (build c patterns).result = .ok a →
        ∃ t, Trie.ofPatterns c patterns = .ok t ∧ t.DepthsExact ∧
          ∀ s state, a.state s = .ok state → ∃ w, t.Spells w s ∧ state.depth.toNat = w.length) ∧
      (∀ (t grown : Trie) depth s, t.addNode c depth = .ok (grown, s) →
        t.size < StateId.capacity ∧ s.index = t.size ∧ grown.size = t.size + 1) ∧
      (∀ t, Trie.ofPatterns c patterns = .ok t → t.size * Byte.count < UInt64.size) ∧
      (∀ reason, (build c patterns).result ≠ .error (.allocationFailed reason)) ∧
      (∀ cause, (build c patterns).result = .error (.fault cause) →
        cause = .tooDeep ∧ FullChain patterns) ∧
      (StateId.capacity < prefixCount patterns → ¬FullChain patterns →
        (∀ limit, c.maxStates = some limit → StateId.capacity < limit.toNat) →
        (∀ k p, patterns[k]? = some p → prefixCount (patterns.take k) ≤ StateId.capacity →
          ¬c.TooLong p) →
        build c patterns = { result := .error (.stateLimitExceeded 4294967295), log := [] }) :=
  ⟨fun _ _ _ h ↦ ⟨h.ofPatterns_eq, h.depthsExact, h.childDepth_eq⟩, fun _ ↦ depth_build,
    fun _ _ _ _ ↦ Trie.index_of_addNode, fun _ ↦ Trie.size_mul_count_lt,
    build_ne_allocationFailed c patterns, fun _ ↦ fullChain_of_fault, build_of_no_identifiers⟩

theorem build_counts_fit_beside_overlong :
    (∃ t s n depth, Trie.Descending .default [[97, 98]] t s [98] ∧ t.node s = .ok n ∧
      n.childDepth = .ok depth ∧ depth.toNat = n.depth.toNat + 1) ∧
      (∃ a t, (build .default [[97, 98]]).result = .ok a ∧
        Trie.ofPatterns .default [[97, 98]] = .ok t ∧ t.DepthsExact) ∧
      StateId.capacity < prefixCount [[1], overlong] ∧
      build .default [[1], overlong]
        = { result := .error (.stateLimitExceeded 4294967295), log := [] } := by
  obtain ⟨hdescent, hbuilt, -⟩ := build_counts_fit .default [[97, 98]]
  obtain ⟨-, -, -, -, -, -, hfull⟩ := build_counts_fit .default [[1], overlong]
  obtain ⟨hmany, hchain⟩ := not_fullChain_beside_overlong
  refine ⟨?_, ?_, hmany, ?_⟩
  · obtain ⟨-, hbetween⟩ := Trie.descending_singleton (v := [97]) (by decide) [98]
    obtain ⟨-, -, n, hnode, hsum⟩ := hdescent _ _ _ hbetween
    have hnot : ¬(n.depth.toNat + 1 = (Trie.descended [] [97]).size ∧
        (Trie.descended [] [97]).size = StateId.capacity) := fun hchain ↦
      absurd hchain.2 (by decide)
    obtain ⟨depth, hdepth, hexact⟩ := hsum.resolve_right hnot
    exact ⟨_, _, n, depth, hbetween, hnode, hdepth, hexact⟩
  · have hbuild : (build .default [[97, 98]]).result = .ok (.ofLiveStrings .default [[97, 98]]) :=
      build_of_ofPatterns rfl
    obtain ⟨t, ht, hexact, -⟩ := hbuilt _ hbuild
    exact ⟨_, t, hbuild, ht, hexact⟩
  · refine hfull hmany hchain nofun fun k p _ _ ↦ ?_
    rintro ⟨limit, ⟨⟩, -⟩

/-- With all identifiers in use on one path, the depth of the next node does not fit. A limit on the
length of patterns may come before the want of an identifier. -/
theorem counts_of_overlong :
    (∃ t s n, Trie.Descending .default [overlong] t s [0] ∧ t.node s = .ok n ∧
      n.edge? 0 = none ∧ n.depth.toNat + 1 = UInt32.size ∧ n.childDepth = .error .tooDeep) ∧
      (build .default [overlong]).result = .error (.fault .tooDeep) ∧
      StateId.capacity < prefixCount [overlong] ∧
      (build { maxPatternLength := some 0 } [overlong]).result
        = .error (.patternTooLong 0 4294967296 0) := by
  -- all but the last of the zeros make the path that uses up the identifiers
  obtain ⟨v, hlength, hv⟩ : ∃ v : Bytes, v.length = 4294967295 ∧ overlong = v ++ [0] :=
    ⟨_, List.length_replicate, List.replicate_succ'⟩
  obtain ⟨hn, hdescent⟩ := Trie.descending_singleton (v := v)
    (by rw [hlength, StateId.capacity]; decide) [0]
  have hdepth : (plainNode (livePaths [v]) (fun w ↦ List.idxsOf w []) v).depth.toNat
      = 4294967295 := by
    rw [toNat_depth_plainNode hn (Trie.last_mem_livePaths [] v), hlength]
  have hnode : (Trie.descended [] v).node (.ofPath (livePaths [v]) v)
      = .ok (plainNode (livePaths [v]) (fun w ↦ List.idxsOf w []) v) := Trie.node_descended hn
  have hedge : (plainNode (livePaths [v]) (fun w ↦ List.idxsOf w []) v).edge? 0 = none :=
    (Trie.edge?_descended [] v 0).trans (if_neg (Trie.append_singleton_notMem_livePaths v 0))
  have hdeep : (plainNode (livePaths [v]) (fun w ↦ List.idxsOf w []) v).childDepth
      = .error .tooDeep := by
    rw [Node.childDepth, hdepth]
    rfl
  rw [← hv] at hdescent
  refine ⟨⟨_, _, _, hdescent, hnode, hedge, congrArg (· + 1) hdepth, hdeep⟩, ?_,
    capacity_lt_prefixCount_overlong, ?_⟩
  · rw [build, Config.compile, hdescent.ofPatterns_of_tooDeep hnode hedge hdeep]
    rfl
  · have hlong := build_singleton_of_tooLong (c := { maxPatternLength := some 0 }) rfl rfl
      (p := overlong) (by rw [length_overlong]; decide)
    rwa [length_overlong] at hlong

end FirstHit
