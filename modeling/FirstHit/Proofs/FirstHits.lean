import FirstHit.Proofs.Compilation
import FirstHit.Proofs.Jumps
import FirstHit.Proofs.Occurrences

/-!
# First hits

A scan of a built automaton finds what the reference scans find. In between stands a scan over the
offsets of the text that asks at each of them what the state accepts whose path is the longest live
suffix of the bytes read (`Automaton.find_ofLiveStrings`). It leaves open whether states inherit.

Without inheritance such a state accepts the patterns equal to its path, and the scan is path first
as it stands. With inheritance it accepts the suffixes of its path. Patterns are live, so no pattern
that ends at the offset is lost when the bytes before the longest live suffix are forgotten, and the
scan is earliest end first.
-/

namespace FirstHit

variable {search : Search} {c : Config} {patterns : List Bytes} {a : Automaton} {w x : Bytes}
  {stop id : Nat}

/-! ## Hits of a state -/

/-- The hit that a state with the path `w` reports at the offset `stop`. -/
def acceptedHit? (inherit : Bool) (patterns : List Bytes) (stop : Nat) (w : Bytes) : Option Hit :=
  (acceptedIds inherit patterns w).head?.map fun id ↦
    { pattern := id, start := stop - (patterns.getD id []).length, stop }

theorem acceptedHit?_false (patterns : List Bytes) (stop : Nat) (w : Bytes) :
    acceptedHit? false patterns stop w = hitOfSuffix? patterns stop w := by
  rw [acceptedHit?, hitOfSuffix?, acceptedIds_false, head?_idxsOf]
  refine Option.map_congr fun id hid ↦ ?_
  rw [List.getD_eq_getElem?_getD, (leastId?_eq_some hid).1, Option.getD_some]

theorem acceptedHit?_true (patterns : List Bytes) (stop : Nat) (w : Bytes) :
    acceptedHit? true patterns stop w = w.tails.findSome? (hitOfSuffix? patterns stop) := by
  rw [acceptedHit?, acceptedIds, if_pos rfl, List.head?_flatMap, List.map_findSome?]
  exact congrFun (congrArg _ (funext (acceptedHit?_false patterns stop))) _

theorem acceptedHit?_liveSuffix (patterns : List Bytes) (stop : Nat) (x : Bytes) :
    acceptedHit? true patterns stop (liveSuffix patterns x)
      = x.tails.findSome? (hitOfSuffix? patterns stop) := by
  rw [← acceptedHit?_true, acceptedHit?, acceptedHit?, acceptedIds_liveSuffix]

theorem getElem?_of_acceptedHit? {inherit : Bool} {hit : Hit}
    (h : acceptedHit? inherit patterns stop w = some hit) :
    ∃ p, patterns[hit.pattern]? = some p := by
  obtain ⟨id, hid, rfl⟩ := Option.map_eq_some_iff.mp h
  obtain ⟨p, hp, -⟩ := suffix_of_mem_acceptedIds (List.mem_of_mem_head? hid)
  exact ⟨p, hp⟩

namespace Automaton

theorem hit?_ofLiveStrings (hn : Numbering (livePaths patterns)) (c : Config)
    (hw : isLive patterns w = true) (hstop : w.length ≤ stop) :
    (ofLiveStrings c patterns).hit? (.ofPath (livePaths patterns) w) stop
      = .ok (acceptedHit? c.inheritSuffixMatches patterns stop w) := by
  rw [hit?, state_ofLiveStrings hn c hw, ok_bind, acceptedHit?, liveState]
  dsimp only
  cases hids : acceptedIds c.inheritSuffixMatches patterns w with
  | nil => rfl
  | cons id ids =>
    obtain ⟨p, hp, hsuffix⟩ := suffix_of_mem_acceptedIds (hids ▸ List.mem_cons_self)
    dsimp only
    rw [pattern_ofLiveStrings c hp, ok_bind, if_pos (hsuffix.length_le.trans hstop),
      List.head?_cons, Option.map_some, List.getD_eq_getElem?_getD, hp, Option.getD_some]

/-! ## Scans -/

/-- The prefilter of a built automaton changes no answer. -/
theorem find_withPrefilter (hn : Numbering (livePaths patterns)) (c : Config) (text : Bytes) :
    (ofLiveStrings c patterns).find text
      = (ofLiveStrings (c.withPrefilter false) patterns).find text := by
  have hroot := rootPrefilter_ofLiveStrings hn (c.withPrefilter false)
  cases hc : c.prefilter with
  | false =>
    rw [ofLiveStrings, hc]
    rfl
  | true =>
    rw [find, find, ← findWith_of_rootPrefilter Prefilter.leftmost_next? rfl hroot text,
      ofLiveStrings, hc]
    rfl

/-- A scan without jumps that has read `x` reports the first hit of a state behind that. -/
theorem scan_ofLiveStrings (hn : Numbering (livePaths patterns)) (hc : c.prefilter = false)
    (x text : Bytes) :
    (ofLiveStrings c patterns).scan Prefilter.next?
        (.ofPath (livePaths patterns) (liveSuffix patterns x)) x.length text
      = .ok ((List.range' (x.length + 1) text.length).findSome? fun stop ↦
          acceptedHit? c.inheritSuffixMatches patterns stop
            (liveSuffix patterns ((x ++ text).take stop))) := by
  have hplain : (ofLiveStrings c patterns).prefilter = none := by
    rw [ofLiveStrings, hc]
    rfl
  induction text generalizing x with
  | nil => rw [scan_nil]; rfl
  | cons b text ih =>
    have hlive := isLive_liveSuffix patterns (x ++ [b])
    have hle := length_liveSuffix_le patterns (x ++ [b])
    rw [List.length_append, List.length_singleton] at hle
    have htake : (x ++ b :: text).take (x.length + 1) = x ++ [b] := by
      rw [List.append_cons, List.take_left' (by rw [List.length_append, List.length_singleton])]
    -- the state reached depends on the longest live suffix of `x` only, and is right for all of it
    have hnext := next_ofLiveStrings hn c (isLive_liveSuffix patterns x) b
    rw [← liveSuffix_append] at hnext
    rw [scan_cons hplain, read, hnext, ok_bind, hit?_ofLiveStrings hn c hlive hle, ok_bind,
      List.length_cons, List.range'_succ, List.findSome?_cons, htake]
    cases acceptedHit? c.inheritSuffixMatches patterns (x.length + 1)
        (liveSuffix patterns (x ++ [b])) with
    | some hit => rfl
    | none =>
      have hrest := ih (x ++ [b])
      rw [List.length_append, List.length_singleton, ← List.append_cons] at hrest
      exact hrest

/-- The first hit is that of the first state on the way that accepts anything. -/
theorem find_ofLiveStrings (hn : Numbering (livePaths patterns)) (c : Config) (text : Bytes) :
    (ofLiveStrings c patterns).find text
      = .ok ((List.range' 1 text.length).findSome? fun stop ↦
          acceptedHit? c.inheritSuffixMatches patterns stop
            (liveSuffix patterns (text.take stop))) := by
  have hscan := scan_ofLiveStrings (c := c.withPrefilter false) hn rfl [] text
  rw [liveSuffix_nil, hn.ofPath_nil] at hscan
  rw [find_withPrefilter hn]
  exact hscan

/-! ## What is found -/

theorem find_build (h : (build c patterns).result = .ok a) (text : Bytes) :
    a.find text = .ok none ∨
      ∃ hit p, a.find text = .ok (some hit) ∧ a.pattern hit.pattern = .ok p := by
  obtain ⟨-, hn, rfl⟩ := build_eq_ok_iff.mp h
  have hfind := find_ofLiveStrings hn c text
  cases hfound : (List.range' 1 text.length).findSome? fun stop ↦
      acceptedHit? c.inheritSuffixMatches patterns stop
        (liveSuffix patterns (text.take stop)) with
  | none => exact Or.inl (hfound ▸ hfind)
  | some hit =>
    obtain ⟨stop, -, hstop⟩ := List.exists_of_findSome?_eq_some hfound
    obtain ⟨p, hp⟩ := getElem?_of_acceptedHit? hstop
    exact Or.inr ⟨hit, p, hfound ▸ hfind, pattern_ofLiveStrings c hp⟩

theorem exists_find_build (h : (build c patterns).result = .ok a) (text : Bytes) :
    ∃ found, a.find text = .ok found := by
  rcases find_build h text with hnone | ⟨hit, p, hhit, -⟩
  · exact ⟨none, hnone⟩
  · exact ⟨some hit, hhit⟩

theorem isMatch_of_find {found : Option Hit} (h : a.find text = .ok found) :
    a.isMatch text = .ok found.isSome := by
  rw [isMatch, isMatchWith, ← find, h, ok_bind]

theorem findPattern_of_find_none (h : a.find text = .ok none) : a.findPattern text = .ok none := by
  rw [findPattern, h, ok_bind]

theorem findPattern_of_find_some {hit : Hit} {p : Bytes} (h : a.find text = .ok (some hit))
    (hp : a.pattern hit.pattern = .ok p) : a.findPattern text = .ok (some p) := by
  rw [findPattern, h, ok_bind]
  dsimp only
  rw [hp]
  rfl

theorem exists_findPattern_build (h : (build c patterns).result = .ok a) (text : Bytes) :
    ∃ found, a.findPattern text = .ok found := by
  rcases find_build h text with hnone | ⟨hit, p, hhit, hp⟩
  · exact ⟨none, findPattern_of_find_none hnone⟩
  · exact ⟨some p, findPattern_of_find_some hhit hp⟩

theorem find_ofLiveStrings_of_not_inherit (hn : Numbering (livePaths patterns))
    (hc : c.inheritSuffixMatches = false) (text : Bytes) :
    (ofLiveStrings c patterns).find text = .ok (pathFirst patterns text) := by
  rw [find_ofLiveStrings hn, hc, pathFirst]
  simp only [acceptedHit?_false]

/-- **Without inheritance a scan is path first.** The first hit is that of the longest live suffix
at the first offset where this suffix is a pattern, for the least id. -/
theorem findWith_build_of_not_inherit (hsearch : search.Leftmost)
    (hc : c.inheritSuffixMatches = false) (h : (build c patterns).result = .ok a) (text : Bytes) :
    a.findWith search text = .ok (pathFirst patterns text) := by
  obtain rfl := hsearch.eq_next?
  obtain ⟨-, hn, rfl⟩ := build_eq_ok_iff.mp h
  exact find_ofLiveStrings_of_not_inherit hn hc text

theorem findWith_build_passes_over :
    ∃ a, (build .default [[97, 98, 99], [98], [99], [99]]).result = .ok a ∧
      a.find [97, 98, 97, 99] = .ok (some ⟨2, 3, 4⟩) :=
  ⟨_, build_of_ofPatterns rfl,
    findWith_build_of_not_inherit Prefilter.leftmost_next? rfl (build_of_ofPatterns rfl)
      [97, 98, 97, 99]⟩

theorem find_ofLiveStrings_of_inherit (hn : Numbering (livePaths patterns))
    (hc : c.inheritSuffixMatches = true) (text : Bytes) :
    (ofLiveStrings c patterns).find text = .ok (earliestEndFirst patterns text) := by
  rw [find_ofLiveStrings hn, hc, earliestEndFirst]
  simp only [acceptedHit?_liveSuffix]

/-- **With inheritance a scan is earliest end first.** Of all occurrences of patterns it finds the
one that stops first, then the one that starts first, then the one with the least id; and there is a
match exactly if there is a byte to read and some pattern is spelled somewhere in the text. -/
theorem findWith_build_of_inherit (hsearch : search.Leftmost)
    (hc : c.inheritSuffixMatches = true) (h : (build c patterns).result = .ok a) (text : Bytes) :
    a.findWith search text = .ok (earliestEndFirst patterns text) ∧
      (∀ hit, earliestEndFirst patterns text = some hit ↔
        Occurs patterns text hit ∧ ∀ other, Occurs patterns text other → hit.Before other) ∧
      (earliestEndFirst patterns text = none ↔ ∀ hit, ¬Occurs patterns text hit) ∧
      ∃ found, a.isMatchWith search text = .ok found ∧
        (found = true ↔ text ≠ [] ∧ ∃ p ∈ patterns, p <:+: text) := by
  obtain rfl := hsearch.eq_next?
  obtain ⟨-, hn, rfl⟩ := build_eq_ok_iff.mp h
  have hfind := find_ofLiveStrings_of_inherit hn hc text
  exact ⟨hfind, fun hit ↦ earliestEndFirst_eq_some_iff, earliestEndFirst_eq_none_iff,
    _, isMatch_of_find hfind, isSome_earliestEndFirst_iff⟩

theorem findWith_build_inherited :
    ∃ a, (build (Config.default.withInheritSuffixMatches true)
        [[97, 98, 99], [98], [99], [98]]).result = .ok a ∧
      a.find [97, 98, 97, 99] = .ok (some ⟨1, 1, 2⟩) :=
  ⟨_, build_of_ofPatterns rfl,
    (findWith_build_of_inherit Prefilter.leftmost_next? rfl (build_of_ofPatterns rfl)
      [97, 98, 97, 99]).1⟩

end Automaton

end FirstHit
