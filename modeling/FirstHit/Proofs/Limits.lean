import FirstHit.Proofs.Compilation
import Mathlib.Data.Nat.Find

/-!
# Which builds are refused

Insertion asks before each new node whether it is let in. Asking once, for the last of them that can
have an identifier, comes to the same (`Trie.extend_plain_eq`), because the nodes before the one that
exceeds a limit are made in any case. What a pattern is refused for can therefore be told from its
length and from the number of distinct prefixes of the patterns up to it (`Config.admitAt`), and a
build is refused for what its first such pattern is refused for (`Config.compile_eq`). A refusal for
a limit is announced, and by nothing else than its own record (`Refusal.Announced`).

As long as there are identifiers for all states, nothing else can go wrong. The number of prefixes
is the number of states, and a build may use the last state that its limit allows.
-/

namespace FirstHit

variable {c : Config} {paths patterns done more : List Bytes} {ids : Bytes → List Nat} {w p : Bytes}
  {k m n : Nat} {limit : UInt64} {refusal : Refusal}

/-! ## Single questions -/

namespace Config

/-- The pattern is longer than the configuration allows. -/
def TooLong (c : Config) (p : Bytes) : Prop :=
  ∃ limit, c.maxPatternLength = some limit ∧ limit.toNat < p.length

/-- The patterns have more distinct prefixes than the configuration allows states. -/
def TooMany (c : Config) (patterns : List Bytes) : Prop :=
  ∃ limit, c.maxStates = some limit ∧ limit.toNat < prefixCount patterns

instance (c : Config) (p : Bytes) : Decidable (c.TooLong p) :=
  inferInstanceAs (Decidable (∃ limit, limit ∈ c.maxPatternLength ∧ limit.toNat < p.length))

instance (c : Config) (patterns : List Bytes) : Decidable (c.TooMany patterns) :=
  inferInstanceAs (Decidable (∃ limit, limit ∈ c.maxStates ∧ limit.toNat < prefixCount patterns))

theorem admitPattern_eq_error (hlimit : c.maxPatternLength = some limit)
    (hlt : limit.toNat < p.length) (k : Nat) :
    c.admitPattern k p = .error
      { error := .patternTooLong k p.length limit, log := [.rejectedLength k p.length limit] } := by
  rw [admitPattern, hlimit]
  exact if_pos hlt

theorem admitPattern_eq_ok (h : ¬c.TooLong p) (k : Nat) : c.admitPattern k p = .ok () := by
  rw [admitPattern]
  cases hlimit : c.maxPatternLength with
  | none => rfl
  | some limit => exact if_neg fun hlt ↦ h ⟨limit, hlimit, hlt⟩

theorem admitState_eq_error (hlimit : c.maxStates = some limit) (hle : limit.toNat ≤ n) :
    c.admitState n = .error
      { error := .stateLimitExceeded limit, log := [.rejectedStates limit] } := by
  rw [admitState, hlimit]
  exact if_pos hle

theorem admitState_eq_ok (h : ∀ limit, c.maxStates = some limit → n < limit.toNat) :
    c.admitState n = .ok () := by
  rw [admitState]
  cases hlimit : c.maxStates with
  | none => rfl
  | some limit => exact if_neg (Nat.not_le.mpr (h limit hlimit))

/-- Where one state is not let in, no later one is, and the refusal is the same. -/
theorem admitState_eq_error_of_le (h : c.admitState m = .error refusal) (hle : m ≤ n) :
    c.admitState n = .error refusal := by
  rw [admitState] at h
  cases hlimit : c.maxStates with
  | none =>
    rw [hlimit] at h
    cases h
  | some limit =>
    rw [hlimit] at h
    dsimp only at h
    by_cases hm : limit.toNat ≤ m
    · rw [if_pos hm] at h
      rw [admitState_eq_error hlimit (hm.trans hle)]
      exact h
    · rw [if_neg hm] at h
      cases h

end Config

/-! ## Asking once for each pattern -/

namespace Config

/-- Lets in the pattern at the position `k`: its length first, and then the last of the states that
it and the patterns before it need. -/
def admitAt (c : Config) (patterns : List Bytes) (k : Nat) : Building Unit := do
  c.admitPattern k (patterns.getD k [])
  c.admitState (prefixCount (patterns.take (k + 1)) - 1)

/-- Lets in the root, and then one pattern after another. -/
def admitAll (c : Config) (patterns : List Bytes) : Building Unit := do
  c.admitState 0
  forM (List.range patterns.length) (c.admitAt patterns)

theorem admitAt_append_cons (c : Config) (done : List Bytes) (p : Bytes) (more : List Bytes) :
    c.admitAt (done ++ p :: more) done.length = (do
      c.admitPattern done.length p
      c.admitState ((livePaths (done ++ [p])).length - 1)) := by
  have hget : (done ++ p :: more).getD done.length [] = p := by simp
  have htake : (done ++ p :: more).take (done.length + 1) = done ++ [p] := by
    rw [List.append_cons, List.take_left' (by rw [List.length_append, List.length_singleton])]
  rw [admitAt, hget, htake, length_livePaths]

theorem admitAt_append (hk : k < patterns.length) :
    c.admitAt (patterns ++ more) k = c.admitAt patterns k := by
  rw [admitAt, admitAt, List.getD_eq_getElem?_getD, List.getD_eq_getElem?_getD,
    List.getElem?_append_left hk, List.take_append_of_le_length hk]

theorem admitState_of_admitAll (h : c.admitAll patterns = .ok ()) :
    c.admitState ((livePaths patterns).length - 1) = .ok () := by
  obtain ⟨⟨⟩, hroot, hpatterns⟩ := bind_eq_ok_iff.mp h
  cases patterns using List.reverseRecOn with
  | nil => exact hroot
  | append_singleton patterns p =>
    rw [List.length_append, List.length_singleton, List.range_succ, List.forM_append] at hpatterns
    obtain ⟨⟨⟩, -, hlast⟩ := bind_eq_ok_iff.mp hpatterns
    rw [List.forM_cons] at hlast
    obtain ⟨⟨⟩, hlast, -⟩ := bind_eq_ok_iff.mp hlast
    rw [admitAt_append_cons] at hlast
    obtain ⟨⟨⟩, -, hroom⟩ := bind_eq_ok_iff.mp hlast
    exact hroom

end Config

/-! ## Announcements -/

/-- The refusal is announced by a single record, which carries the figures of the error. -/
inductive Refusal.Announced : Refusal → Prop
  /-- There would be too many states. -/
  | states (limit : UInt64) :
    Announced { error := .stateLimitExceeded limit, log := [.rejectedStates limit] }
  /-- A pattern is too long. -/
  | length (index length : Nat) (limit : UInt64) :
    Announced
      { error := .patternTooLong index length limit, log := [.rejectedLength index length limit] }

namespace Config

theorem announced_of_admitPattern (h : c.admitPattern k p = .error refusal) :
    refusal.Announced := by
  by_cases hlong : c.TooLong p
  · obtain ⟨limit, hlimit, hlt⟩ := hlong
    rw [admitPattern_eq_error hlimit hlt] at h
    cases h
    exact .length k p.length limit
  · rw [admitPattern_eq_ok hlong] at h
    cases h

theorem announced_of_admitState (h : c.admitState n = .error refusal) : refusal.Announced := by
  rw [admitState] at h
  cases hlimit : c.maxStates with
  | none =>
    rw [hlimit] at h
    cases h
  | some limit =>
    rw [hlimit] at h
    dsimp only at h
    split at h
    case isTrue =>
      cases h
      exact .states limit
    case isFalse => cases h

theorem announced_of_admitAt (h : c.admitAt patterns k = .error refusal) : refusal.Announced := by
  rcases bind_eq_error_iff.mp h with hpattern | ⟨-, -, hstate⟩
  · exact announced_of_admitPattern hpattern
  · exact announced_of_admitState hstate

theorem announced_of_forM {ks : List Nat} (h : forM ks (c.admitAt patterns) = .error refusal) :
    refusal.Announced := by
  induction ks with
  | nil => cases h
  | cons k ks ih =>
    rw [List.forM_cons] at h
    rcases bind_eq_error_iff.mp h with hfirst | ⟨-, -, hrest⟩
    · exact announced_of_admitAt hfirst
    · exact ih hrest

theorem announced_of_admitAll (h : c.admitAll patterns = .error refusal) : refusal.Announced := by
  rcases bind_eq_error_iff.mp h with hroot | ⟨-, -, hpatterns⟩
  · exact announced_of_admitState hroot
  · exact announced_of_forM hpatterns

end Config

/-! ## The trie -/

theorem numbering_livePaths (hfits : (livePaths patterns).length ≤ StateId.capacity) :
    Numbering (livePaths patterns) where
  nodup := nodup_livePaths patterns
  length_le := hfits
  head := by
    obtain ⟨rest, hrest⟩ := livePaths_prefix_append [] patterns
    rw [List.nil_append] at hrest
    rw [← hrest]
    rfl
  parent := fun h ↦ mem_livePaths.mpr (isLive_of_append (mem_livePaths.mp h))

namespace Trie

theorem prefix_continued (paths : List Bytes) (w bytes : Bytes) :
    paths <+: continued paths w bytes := by
  induction bytes generalizing paths w with
  | nil => exact List.prefix_refl paths
  | cons b bytes ih => exact (prefix_appendNew paths (w ++ [b])).trans (ih _ _)

/-- **Descents in closed form.** Making nodes one at a time is refused if making the last of those is
for which there are identifiers. If this is let in, the descent comes to its end, or to the first
string for which there is no identifier. -/
theorem extend_plain_eq (bytes : Bytes) (hn : Numbering paths)
    (hids : ∀ v, v ∉ paths → ids v = []) (hw : w ∈ paths)
    (hroom : c.admitState (paths.length - 1) = .ok ()) :
    (plain paths ids).extend c (.ofPath paths w) bytes = (do
      c.admitState (min (continued paths w bytes).length StateId.capacity - 1)
      match (continued paths w bytes)[StateId.capacity]? with
      | none =>
        .ok (plain (continued paths w bytes) ids, .ofPath (continued paths w bytes) (w ++ bytes))
      | some v => .error (fullRefusal c v)) := by
  induction bytes generalizing paths w with
  | nil =>
    rw [continued, Nat.min_eq_left hn.length_le, hroom, ok_bind,
      List.getElem?_eq_none hn.length_le, List.append_nil]
    rfl
  | cons b bytes ih =>
    rw [List.append_cons w b bytes, continued]
    by_cases hv : w ++ [b] ∈ paths
    · rw [appendNew_of_mem hv, extend_plain_of_mem hn hw hv]
      exact ih hn hids hv hroom
    · rw [appendNew_of_notMem hv]
      have hprefix := prefix_continued (paths ++ [w ++ [b]]) (w ++ [b]) bytes
      have hle := hprefix.length_le
      have hlength : (paths ++ [w ++ [b]]).length = paths.length + 1 := List.length_append
      by_cases hlt : paths.length < StateId.capacity
      · rw [extend_plain_of_notMem hn hlt hw hv (hids _ hv)]
        cases hadmit : c.admitState paths.length with
        | error refusal =>
          -- this node is refused, and so the last one would be
          rw [Config.admitState_eq_error_of_le hadmit (by omega)]
          rfl
        | ok admitted =>
          rw [ok_bind]
          refine ih (hn.append_singleton hlt hw hv) (fun v hv' ↦ hids v ?_) (by simp) ?_
          · exact fun hmem ↦ hv' (List.mem_append_left _ hmem)
          · rw [hlength, Nat.add_sub_cancel, hadmit]
      · -- the missing node is the first without an identifier
        have hfull : paths.length = StateId.capacity := hn.length_le.antisymm (Nat.not_lt.mp hlt)
        have hnext : (continued (paths ++ [w ++ [b]]) (w ++ [b]) bytes)[StateId.capacity]?
            = some (w ++ [b]) := by
          obtain ⟨more, hmore⟩ := hprefix
          rw [← hmore, ← hfull, List.append_assoc, List.getElem?_append_right (Nat.le_refl _),
            Nat.sub_self]
          rfl
        rw [extend_plain_of_full hn hfull hw hv, hnext, Nat.min_eq_right (by omega), ← hfull,
          hroom, ok_bind]

theorem insert_ofLiveStrings_eq
    (hfits : (livePaths (done ++ [p])).length ≤ StateId.capacity)
    (hroom : c.admitState ((livePaths done).length - 1) = .ok ()) (more : List Bytes) :
    (ofLiveStrings done).insert c done.length p = (do
      c.admitAt (done ++ p :: more) done.length
      .ok (ofLiveStrings (done ++ [p]))) := by
  have hn' := numbering_livePaths hfits
  have hn := numbering_livePaths ((livePaths_prefix_append done [p]).length_le.trans hfits)
  have hpaths : continued (livePaths done) [] p = livePaths (done ++ [p]) := by
    rw [continued_nil hn, livePaths_append_singleton]
  have hextend := extend_plain_eq p hn (fun _ ↦ idxsOf_eq_nil_of_notMem) hn.nil_mem hroom
  rw [hpaths, hn.ofPath_nil, List.nil_append, Nat.min_eq_left hfits,
    List.getElem?_eq_none hfits] at hextend
  have hp : p ∈ livePaths (done ++ [p]) :=
    mem_livePaths.mpr (isLive_of_mem (List.mem_append_right _ (List.mem_singleton_self p)))
  rw [insert, ofLiveStrings, hextend, Config.admitAt_append_cons]
  cases c.admitPattern done.length p with
  | error refusal => rfl
  | ok admitted =>
    rw [ok_bind, ok_bind]
    cases c.admitState ((livePaths (done ++ [p])).length - 1) with
    | error refusal => rfl
    | ok room =>
      rw [ok_bind, ok_bind, ok_bind]
      dsimp only
      rw [accept_idxsOf hn' hp]
      rfl

theorem insertFrom_ofLiveStrings_eq (done : List Bytes)
    (hfits : (livePaths (done ++ more)).length ≤ StateId.capacity)
    (hroom : c.admitState ((livePaths done).length - 1) = .ok ()) :
    (ofLiveStrings done).insertFrom c done.length more = (do
      forM (List.range' done.length more.length) (c.admitAt (done ++ more))
      .ok (ofLiveStrings (done ++ more))) := by
  induction more generalizing done with
  | nil =>
    rw [List.append_nil]
    rfl
  | cons p more ih =>
    have hsplit : done ++ p :: more = done ++ [p] ++ more := List.append_cons done p more
    have hfits' : (livePaths (done ++ [p])).length ≤ StateId.capacity := by
      rw [hsplit] at hfits
      exact (livePaths_prefix_append (done ++ [p]) more).length_le.trans hfits
    rw [insertFrom, insert_ofLiveStrings_eq hfits' hroom more, List.length_cons, List.range'_succ,
      List.forM_cons]
    cases hadmit : c.admitAt (done ++ p :: more) done.length with
    | error refusal => rfl
    | ok admitted =>
      rw [Config.admitAt_append_cons] at hadmit
      obtain ⟨⟨⟩, -, hroom'⟩ := bind_eq_ok_iff.mp hadmit
      have hrest := ih (done ++ [p]) (hsplit ▸ hfits) hroom'
      rw [List.length_append, List.length_singleton, ← hsplit] at hrest
      rw [ok_bind, ok_bind, ok_bind]
      exact hrest

theorem ofPatterns_eq (hfits : (livePaths patterns).length ≤ StateId.capacity) (c : Config) :
    ofPatterns c patterns = (do
      c.admitAll patterns
      .ok (ofLiveStrings patterns)) := by
  rw [ofPatterns, addNode_empty, Config.admitAll, List.range_eq_range']
  cases hroom : c.admitState 0 with
  | error refusal => rfl
  | ok admitted =>
    have hinsert := insertFrom_ofLiveStrings_eq [] hfits hroom
    rw [List.nil_append, List.length_nil] at hinsert
    rw [ok_bind, ok_bind, ok_bind]
    exact hinsert

end Trie

/-! ## The build -/

/-- **Refusals in closed form.** A build makes the automaton of the live strings if the root and
every pattern are let in, and is refused for the first of these that is not. -/
theorem Config.compile_eq (hfits : (livePaths patterns).length ≤ StateId.capacity) (c : Config) :
    c.compile patterns = (do
      c.admitAll patterns
      .ok (Automaton.ofLiveStrings c patterns)) := by
  rw [compile, Trie.ofPatterns_eq hfits]
  cases c.admitAll patterns with
  | error refusal => rfl
  | ok admitted =>
    rw [ok_bind, ok_bind, ok_bind, Trie.compile_ofLiveStrings (numbering_livePaths hfits)]

theorem build_eq_ok_of_admitAll (hfits : (livePaths patterns).length ≤ StateId.capacity)
    (h : c.admitAll patterns = .ok ()) :
    (build c patterns).result = .ok (Automaton.ofLiveStrings c patterns) := by
  rw [build, Config.compile_eq hfits, h, ok_bind]

theorem build_eq_error_of_admitAll (hfits : (livePaths patterns).length ≤ StateId.capacity)
    (h : c.admitAll patterns = .error refusal) :
    (build c patterns).result = .error refusal.error := by
  rw [build, Config.compile_eq hfits, h]
  rfl

theorem Config.admitAll_congr {c₁ c₂ : Config} (hstates : c₁.maxStates = c₂.maxStates)
    (hlengths : c₁.maxPatternLength = c₂.maxPatternLength) (patterns : List Bytes) :
    c₁.admitAll patterns = c₂.admitAll patterns := by
  have hstate : c₁.admitState = c₂.admitState := by
    funext n
    rw [admitState, admitState, hstates]
  have hpattern : c₁.admitPattern = c₂.admitPattern := by
    funext k p
    rw [admitPattern, admitPattern, hlengths]
  have hat : c₁.admitAt patterns = c₂.admitAt patterns := by
    funext k
    rw [admitAt, admitAt, hstate, hpattern]
  rw [admitAll, admitAll, hstate, hat]

/-- The limits alone decide whether there is an automaton. -/
theorem build_of_same_limits {c₁ c₂ : Config} {a : Automaton}
    (h : (build c₁ patterns).result = .ok a) (hstates : c₁.maxStates = c₂.maxStates)
    (hlengths : c₁.maxPatternLength = c₂.maxPatternLength) :
    (build c₂ patterns).result = .ok (Automaton.ofLiveStrings c₂ patterns) := by
  have hfits := (build_eq_ok_iff.mp h).2.1.length_le
  apply build_eq_ok_of_admitAll hfits
  rw [← Config.admitAll_congr hstates hlengths]
  cases hadmit : c₁.admitAll patterns with
  | ok admitted => rfl
  | error refusal =>
    rw [build_eq_error_of_admitAll hfits hadmit] at h
    cases h

/-! ## The first pattern that is refused -/

theorem forM_eq_ok {ε : Type} {check : Nat → Except ε Unit} {l : List Nat}
    (h : ∀ i ∈ l, check i = .ok ()) : forM l check = .ok () := by
  induction l with
  | nil => rfl
  | cons i l ih =>
    rw [List.forM_cons, h i List.mem_cons_self, ok_bind]
    exact ih fun j hj ↦ h j (List.mem_cons_of_mem i hj)

theorem forM_range_eq_error {ε : Type} {check : Nat → Except ε Unit} {error : ε} (hk : k < n)
    (hbefore : ∀ j < k, check j = .ok ()) (h : check k = .error error) :
    forM (List.range n) check = .error error := by
  obtain ⟨m, rfl⟩ := Nat.exists_eq_add_of_lt hk
  rw [List.range_eq_range', Nat.add_assoc, ← List.range'_append_1, Nat.zero_add, List.range'_succ,
    List.forM_append, ← List.range_eq_range',
    forM_eq_ok fun j hj ↦ hbefore j (List.mem_range.mp hj), ok_bind, List.forM_cons, h]
  rfl

namespace Config

/-- The pattern at the position `k` is too long, or needs too many states together with the patterns
before it. -/
def ExceedsAt (c : Config) (patterns : List Bytes) (k : Nat) : Prop :=
  ∃ p, patterns[k]? = some p ∧ (c.TooLong p ∨ c.TooMany (patterns.take (k + 1)))

instance (c : Config) (patterns : List Bytes) (k : Nat) : Decidable (c.ExceedsAt patterns k) :=
  inferInstanceAs (Decidable
    (∃ p, p ∈ patterns[k]? ∧ (c.TooLong p ∨ c.TooMany (patterns.take (k + 1)))))

/-- The first pattern that exceeds a limit is `p`, at the position `k`. -/
structure FirstExceeds (c : Config) (patterns : List Bytes) (k : Nat) (p : Bytes) : Prop where
  /-- The pattern stands at this position. -/
  getElem?_eq : patterns[k]? = some p
  /-- It exceeds a limit. -/
  exceeds : c.ExceedsAt patterns k
  /-- No pattern before it does. -/
  least : ∀ j < k, ¬c.ExceedsAt patterns j

theorem prefixCount_pos (patterns : List Bytes) : 0 < prefixCount patterns := by
  rw [prefixCount]
  exact List.length_pos_of_mem (List.mem_dedup.mpr List.mem_cons_self)

theorem prefixCount_take_le (patterns : List Bytes) (k : Nat) :
    prefixCount (patterns.take k) ≤ prefixCount patterns := by
  have hle := (livePaths_prefix_append (patterns.take k) (patterns.drop k)).length_le
  rwa [List.take_append_drop, length_livePaths, length_livePaths] at hle

theorem admitAt_eq_error_of_tooLong (hp : patterns[k]? = some p)
    (hlimit : c.maxPatternLength = some limit) (hlt : limit.toNat < p.length) :
    c.admitAt patterns k = .error
      { error := .patternTooLong k p.length limit, log := [.rejectedLength k p.length limit] } := by
  rw [admitAt, List.getD_eq_getElem?_getD, hp, Option.getD_some, admitPattern_eq_error hlimit hlt]
  rfl

theorem admitAt_eq_error_of_tooMany (hp : patterns[k]? = some p) (hshort : ¬c.TooLong p)
    (hlimit : c.maxStates = some limit) (hlt : limit.toNat < prefixCount (patterns.take (k + 1))) :
    c.admitAt patterns k = .error
      { error := .stateLimitExceeded limit, log := [.rejectedStates limit] } := by
  rw [admitAt, List.getD_eq_getElem?_getD, hp, Option.getD_some, admitPattern_eq_ok hshort, ok_bind]
  exact admitState_eq_error hlimit (by omega)

theorem admitAt_eq_ok (hp : patterns[k]? = some p) (h : ¬c.ExceedsAt patterns k) :
    c.admitAt patterns k = .ok () := by
  have hshort : ¬c.TooLong p := fun hlong ↦ h ⟨p, hp, Or.inl hlong⟩
  have hfew : ¬c.TooMany (patterns.take (k + 1)) := fun hmany ↦ h ⟨p, hp, Or.inr hmany⟩
  rw [admitAt, List.getD_eq_getElem?_getD, hp, Option.getD_some, admitPattern_eq_ok hshort, ok_bind]
  refine admitState_eq_ok fun limit hlimit ↦ ?_
  have hle := Nat.not_lt.mp fun hlt ↦ hfew ⟨limit, hlimit, hlt⟩
  have hpos := prefixCount_pos (patterns.take (k + 1))
  omega

theorem exists_admitAt_eq_error (h : c.ExceedsAt patterns k) :
    ∃ refusal, c.admitAt patterns k = .error refusal := by
  obtain ⟨p, hp, hexceeds⟩ := h
  by_cases hlong : c.TooLong p
  · obtain ⟨limit, hlimit, hlt⟩ := hlong
    exact ⟨_, admitAt_eq_error_of_tooLong hp hlimit hlt⟩
  · obtain ⟨limit, hlimit, hlt⟩ := hexceeds.resolve_left hlong
    exact ⟨_, admitAt_eq_error_of_tooMany hp hlong hlimit hlt⟩

theorem ExceedsAt.lt_length (h : c.ExceedsAt patterns k) : k < patterns.length := by
  obtain ⟨p, hp, -⟩ := h
  exact (List.getElem?_eq_some_iff.mp hp).1

theorem exists_firstExceeds (h : ∃ k, c.ExceedsAt patterns k) :
    ∃ k p, c.FirstExceeds patterns k p := by
  classical
  obtain ⟨p, hp, -⟩ := Nat.find_spec h
  exact ⟨Nat.find h, p, hp, Nat.find_spec h, fun j hj ↦ Nat.find_min h hj⟩

theorem FirstExceeds.admitAt_eq_ok (h : c.FirstExceeds patterns k p) {j : Nat} (hj : j < k) :
    c.admitAt patterns j = .ok () := by
  have hlt := hj.trans h.exceeds.lt_length
  exact Config.admitAt_eq_ok (List.getElem?_eq_getElem hlt) (h.least j hj)

theorem admitState_zero (h : c.maxStates ≠ some 0) : c.admitState 0 = .ok () := by
  refine admitState_eq_ok fun limit hlimit ↦ Nat.pos_of_ne_zero fun hzero ↦ h ?_
  obtain rfl : limit = 0 := UInt64.toNat_inj.mp hzero
  exact hlimit

theorem admitAll_eq_ok (h : c.maxStates ≠ some 0) (hnone : ∀ k, ¬c.ExceedsAt patterns k) :
    c.admitAll patterns = .ok () := by
  rw [admitAll, admitState_zero h, ok_bind]
  refine forM_eq_ok fun k hk ↦ ?_
  exact admitAt_eq_ok (List.getElem?_eq_getElem (List.mem_range.mp hk)) (hnone k)

/-- What the first pattern that exceeds a limit is refused for, the build is refused for, and so is
every build with further patterns. -/
theorem FirstExceeds.admitAll_append (h : c.FirstExceeds patterns k p)
    (hroot : c.maxStates ≠ some 0) (hrefused : c.admitAt patterns k = .error refusal)
    (more : List Bytes) :
    c.admitAll (patterns ++ more) = .error refusal := by
  have hk := h.exceeds.lt_length
  rw [admitAll, admitState_zero hroot, ok_bind]
  refine forM_range_eq_error (k := k) ?_ (fun j hj ↦ ?_) ?_
  · rw [List.length_append]
    omega
  · rw [admitAt_append (hj.trans hk)]
    exact h.admitAt_eq_ok hj
  · rw [admitAt_append hk, hrefused]

theorem FirstExceeds.admitAll_eq_error (h : c.FirstExceeds patterns k p)
    (hroot : c.maxStates ≠ some 0) (hrefused : c.admitAt patterns k = .error refusal) :
    c.admitAll patterns = .error refusal := by
  have happend := h.admitAll_append hroot hrefused []
  rwa [List.append_nil] at happend

theorem admitAll_of_no_states (h : c.maxStates = some 0) (patterns : List Bytes) :
    c.admitAll patterns
      = .error { error := .stateLimitExceeded 0, log := [.rejectedStates 0] } := by
  rw [admitAll, admitState_eq_error h (Nat.le_refl 0)]
  rfl

theorem admitAll_append_of_error (h : c.admitAll patterns = .error refusal) (more : List Bytes) :
    c.admitAll (patterns ++ more) = .error refusal := by
  by_cases hroot : c.maxStates = some 0
  · rw [← h, admitAll_of_no_states hroot, admitAll_of_no_states hroot]
  · have hexceeds : ∃ k, c.ExceedsAt patterns k := by
      by_contra hnone
      rw [admitAll_eq_ok hroot (not_exists.mp hnone)] at h
      cases h
    obtain ⟨k, p, hfirst⟩ := exists_firstExceeds hexceeds
    obtain ⟨refusal', hrefused⟩ := exists_admitAt_eq_error hfirst.exceeds
    rw [hfirst.admitAll_eq_error hroot hrefused] at h
    obtain rfl := Except.error.inj h
    exact hfirst.admitAll_append hroot hrefused more

theorem not_exceedsAt_of_le (hlimit : ∀ limit, c.maxStates = some limit →
      prefixCount patterns ≤ limit.toNat)
    (hshort : ∀ p ∈ patterns, ¬c.TooLong p) (k : Nat) : ¬c.ExceedsAt patterns k := by
  rintro ⟨p, hp, hlong | ⟨limit, hmax, hlt⟩⟩
  · exact hshort p (List.mem_of_getElem? hp) hlong
  · have hle := hlt.trans_le (prefixCount_take_le patterns (k + 1))
    exact absurd hle (Nat.not_lt.mpr (hlimit limit hmax))

end Config

/-! ## What a build is refused for -/

theorem exists_build_iff (hfits : (livePaths patterns).length ≤ StateId.capacity)
    (hroot : c.maxStates ≠ some 0) :
    (∃ a, (build c patterns).result = .ok a) ↔ ∀ k, ¬c.ExceedsAt patterns k := by
  constructor
  · rintro ⟨a, ha⟩ k hexceeds
    obtain ⟨k, p, hfirst⟩ := Config.exists_firstExceeds ⟨k, hexceeds⟩
    obtain ⟨refusal, hrefused⟩ := Config.exists_admitAt_eq_error hfirst.exceeds
    rw [build_eq_error_of_admitAll hfits (hfirst.admitAll_eq_error hroot hrefused)] at ha
    cases ha
  · intro hnone
    exact ⟨_, build_eq_ok_of_admitAll hfits (Config.admitAll_eq_ok hroot hnone)⟩

theorem build_of_tooLong (hfits : (livePaths patterns).length ≤ StateId.capacity)
    (hroot : c.maxStates ≠ some 0) (hfirst : c.FirstExceeds patterns k p)
    (hlimit : c.maxPatternLength = some limit) (hlt : limit.toNat < p.length) :
    (build c patterns).result = .error (.patternTooLong k p.length limit) := by
  have hrefused := Config.admitAt_eq_error_of_tooLong hfirst.getElem?_eq hlimit hlt
  exact build_eq_error_of_admitAll hfits (hfirst.admitAll_eq_error hroot hrefused)

theorem build_of_tooMany (hfits : (livePaths patterns).length ≤ StateId.capacity)
    (hroot : c.maxStates ≠ some 0) (hfirst : c.FirstExceeds patterns k p)
    (hshort : ¬c.TooLong p) :
    ∃ limit, c.maxStates = some limit ∧
      (build c patterns).result = .error (.stateLimitExceeded limit) := by
  obtain ⟨q, hq, hexceeds⟩ := hfirst.exceeds
  obtain rfl : p = q := Option.some_inj.mp (hfirst.getElem?_eq.symm.trans hq)
  obtain ⟨limit, hlimit, hlt⟩ := hexceeds.resolve_left hshort
  have hrefused := Config.admitAt_eq_error_of_tooMany hq hshort hlimit hlt
  exact ⟨limit, hlimit, build_eq_error_of_admitAll hfits (hfirst.admitAll_eq_error hroot hrefused)⟩

theorem build_append_of_error {error : Error}
    (hfits : (livePaths (patterns ++ more)).length ≤ StateId.capacity)
    (h : (build c patterns).result = .error error) :
    (build c (patterns ++ more)).result = .error error := by
  have hfits' := (livePaths_prefix_append patterns more).length_le.trans hfits
  cases hadmit : c.admitAll patterns with
  | ok admitted =>
    rw [build_eq_ok_of_admitAll hfits' hadmit] at h
    cases h
  | error refusal =>
    rw [← h, build_eq_error_of_admitAll hfits' hadmit,
      build_eq_error_of_admitAll hfits (Config.admitAll_append_of_error hadmit more)]

theorem exists_build_of_prefixCount_eq (hfits : (livePaths patterns).length ≤ StateId.capacity)
    (hlimit : c.maxStates = some limit) (hone : 1 ≤ limit.toNat)
    (hcount : prefixCount patterns = limit.toNat) (hshort : ∀ p ∈ patterns, ¬c.TooLong p) :
    ∃ a, (build c patterns).result = .ok a := by
  have hroot : c.maxStates ≠ some 0 := fun hzero ↦ by
    obtain rfl : limit = 0 := Option.some_inj.mp (hlimit.symm.trans hzero)
    exact absurd hone (by decide)
  refine (exists_build_iff hfits hroot).mpr fun k ↦ ?_
  refine Config.not_exceedsAt_of_le (fun other hother ↦ ?_) hshort k
  obtain rfl : limit = other := Option.some_inj.mp (hlimit.symm.trans hother)
  exact hcount.le

/-- **A build fails exactly if a limit is exceeded, and for the first that is.** Without room for a
root nothing can be built. Otherwise the first pattern decides that is too long, or that needs too
many states together with the patterns before it; its length counts first. Further patterns do not
change a refusal, and the limit on states may be used up. -/
theorem build_result_of_limits (c : Config) (patterns : List Bytes)
    (hfits : prefixCount patterns ≤ StateId.capacity) :
    (c.maxStates = some 0 → (build c patterns).result = .error (.stateLimitExceeded 0)) ∧
      (c.maxStates ≠ some 0 →
        ((∃ a, (build c patterns).result = .ok a) ↔ ∀ k, ¬c.ExceedsAt patterns k) ∧
        ∀ k p, c.FirstExceeds patterns k p →
          (∀ limit, c.maxPatternLength = some limit → limit.toNat < p.length →
            (build c patterns).result = .error (.patternTooLong k p.length limit)) ∧
          (¬c.TooLong p → ∃ limit, c.maxStates = some limit ∧
            (build c patterns).result = .error (.stateLimitExceeded limit))) ∧
      (∀ more error, prefixCount (patterns ++ more) ≤ StateId.capacity →
        (build c patterns).result = .error error →
        (build c (patterns ++ more)).result = .error error) ∧
      ∀ limit, c.maxStates = some limit → 1 ≤ limit.toNat → prefixCount patterns = limit.toNat →
        (∀ p ∈ patterns, ¬c.TooLong p) → ∃ a, (build c patterns).result = .ok a := by
  have hlive : ∀ ps, prefixCount ps ≤ StateId.capacity → (livePaths ps).length ≤ StateId.capacity :=
    fun ps hps ↦ (length_livePaths ps).trans_le hps
  have hpatterns := hlive patterns hfits
  refine ⟨fun hzero ↦ ?_, fun hroot ↦ ⟨exists_build_iff hpatterns hroot, fun k p hfirst ↦ ⟨?_, ?_⟩⟩,
    fun more error hmore ↦ build_append_of_error (hlive _ hmore),
    fun limit ↦ exists_build_of_prefixCount_eq hpatterns⟩
  · exact build_eq_error_of_admitAll hpatterns (Config.admitAll_of_no_states hzero patterns)
  · exact fun limit ↦ build_of_tooLong hpatterns hroot hfirst
  · exact build_of_tooMany hpatterns hroot hfirst

/-- Four states at most, and three bytes in a pattern. -/
def narrow : Config := { maxStates := some 4, maxPatternLength := some 3 }

theorem build_result_narrow :
    (∃ a, (build narrow [[97, 98], [97, 98, 99]]).result = .ok a) ∧
      (build narrow [[97, 98], [97, 98, 99], [97, 100]]).result = .error (.stateLimitExceeded 4) ∧
      (build narrow [[97, 98], [97, 98, 99, 100]]).result = .error (.patternTooLong 1 4 3) ∧
      (build narrow [[97, 98], [97, 98, 99, 100], [97]]).result
        = .error (.patternTooLong 1 4 3) := by
  obtain ⟨-, -, -, hmet⟩ := build_result_of_limits narrow [[97, 98], [97, 98, 99]] (by decide)
  obtain ⟨-, hmany, -⟩ := build_result_of_limits narrow [[97, 98], [97, 98, 99], [97, 100]]
    (by decide)
  obtain ⟨-, hlong, happend, -⟩ := build_result_of_limits narrow [[97, 98], [97, 98, 99, 100]]
    (by decide)
  have hfirst := ((hlong (by decide)).2 1 [97, 98, 99, 100] ⟨rfl, by decide, by decide⟩).1 3 rfl
    (by decide)
  obtain ⟨limit, hlimit, hrefused⟩ :=
    ((hmany (by decide)).2 2 [97, 100] ⟨rfl, by decide, by decide⟩).2 (by decide)
  obtain rfl : (4 : UInt64) = limit := Option.some_inj.mp hlimit
  exact ⟨hmet 4 rfl (by decide) (by decide) (by decide), hrefused, hfirst,
    happend [[97]] _ (by decide) hfirst⟩

end FirstHit
