import FirstHit.Proofs.FirstHits

/-!
# Masked patterns

Path first and earliest end first differ where a scan reads along a pattern and passes over a
shorter one that ends on the way. For this the string read must be a live one that no pattern
equals, with a pattern among its proper suffixes; and nothing may have been reported while it was
read, so none of its prefixes is a pattern either. A string of this kind *masks* a pattern
(`Masks`).

One such string is enough to tell the two readings apart, because a scan of it without inheritance
finds nothing. And there is one wherever they differ: at the offset where the earliest occurrence
stops, a path-first scan has either found the same, or what it remembers of the text is a string
that masks. So the comparison of two scans on all texts comes down to a condition on the live
strings, which are finitely many (`mem_maskingPaths`).
-/

namespace FirstHit

variable {c : Config} {patterns : List Bytes} {text v w x : Bytes} {stop : Nat} {hit : Hit}

/-- A scan without inheritance reads all of `w` and reports nothing, although a pattern ends where
`w` does. The empty prefix of `w` does not count, since a scan reports only after it has read a
byte. -/
structure Masks (patterns : List Bytes) (w : Bytes) : Prop where
  /-- There is something to read. -/
  ne_nil : w ≠ []
  /-- A scan that reads it follows a pattern. -/
  follows : ∃ p ∈ patterns, w <+: p
  /-- It reaches no pattern on the way, and none at the end. -/
  silent : ∀ v, v <+: w → v ≠ [] → v ∉ patterns
  /-- A shorter pattern ends there. -/
  hides : ∃ p ∈ patterns, p <:+ w ∧ p ≠ w

/-! ## A finite search -/

/-- Whether no prefix of `w` is a pattern, the empty one apart. -/
def isSilent (patterns : List Bytes) (w : Bytes) : Bool :=
  w.inits.all fun v ↦ v.isEmpty || !patterns.contains v

/-- Whether a pattern that is shorter than `w` is a suffix of it. -/
def hidesPattern (patterns : List Bytes) (w : Bytes) : Bool :=
  patterns.any fun p ↦ p.isSuffixOf w && p != w

/-- The strings that mask a pattern. -/
def maskingPaths (patterns : List Bytes) : List Bytes :=
  (livePaths patterns).filter fun w ↦ !w.isEmpty && isSilent patterns w && hidesPattern patterns w

theorem isSilent_iff :
    isSilent patterns w = true ↔ ∀ v, v <+: w → v ≠ [] → v ∉ patterns := by
  simp [isSilent, or_iff_not_imp_left]

theorem hidesPattern_iff :
    hidesPattern patterns w = true ↔ ∃ p ∈ patterns, p <:+ w ∧ p ≠ w := by
  simp [hidesPattern]

theorem mem_maskingPaths : w ∈ maskingPaths patterns ↔ Masks patterns w := by
  simp only [maskingPaths, List.mem_filter, Bool.and_eq_true, mem_livePaths, isLive_iff,
    isSilent_iff, hidesPattern_iff, Bool.not_eq_true', List.isEmpty_eq_false_iff]
  constructor
  · rintro ⟨hlive, ⟨hne, hsilent⟩, hhides⟩
    exact ⟨hne, hlive.resolve_left hne, hsilent, hhides⟩
  · intro h
    exact ⟨Or.inr h.follows, ⟨h.ne_nil, h.silent⟩, h.hides⟩

/-! ## One offset -/

theorem mem_of_hitOfSuffix? (h : hitOfSuffix? patterns stop w = some hit) : w ∈ patterns :=
  List.mem_of_getElem? (leastId?_eq_some (hitOfSuffix?_eq_some h).1).1

theorem exists_hitOfSuffix? (hw : w ∈ patterns) (stop : Nat) :
    ∃ hit, hitOfSuffix? patterns stop w = some hit := by
  obtain ⟨id, hid⟩ := List.mem_iff_getElem?.mp hw
  apply Option.ne_none_iff_exists'.mp
  rw [hitOfSuffix?, Ne, Option.map_eq_none_iff]
  exact leastId?_ne_none hid

theorem findSome?_tails_of_mem (h : liveSuffix patterns x ∈ patterns) (stop : Nat) :
    x.tails.findSome? (hitOfSuffix? patterns stop)
      = hitOfSuffix? patterns stop (liveSuffix patterns x) := by
  obtain ⟨hit, hhit⟩ := exists_hitOfSuffix? h stop
  rw [← acceptedHit?_liveSuffix, acceptedHit?_true]
  cases hx : liveSuffix patterns x with
  | nil => simp [List.tails]
  | cons b y =>
    rw [List.tails_cons, List.findSome?_cons, ← hx, hhit]

theorem exists_suffix_of_notMem (h : liveSuffix patterns x ∉ patterns)
    (hhit : x.tails.findSome? (hitOfSuffix? patterns stop) = some hit) :
    ∃ p ∈ patterns, p <:+ liveSuffix patterns x ∧ p ≠ liveSuffix patterns x := by
  rw [← acceptedHit?_liveSuffix, acceptedHit?_true] at hhit
  obtain ⟨p, hp, hreport⟩ := List.exists_of_findSome?_eq_some hhit
  have hmem := mem_of_hitOfSuffix? hreport
  exact ⟨p, hmem, (List.mem_tails p _).mp hp, ne_of_mem_of_not_mem hmem h⟩

/-! ## Where the readings differ -/

theorem pathFirst_eq_none_iff :
    pathFirst patterns text = none ↔
      ∀ stop, 1 ≤ stop → stop ≤ text.length → liveSuffix patterns (text.take stop) ∉ patterns := by
  rw [pathFirst, List.findSome?_eq_none_iff]
  constructor
  · intro hnone stop hone hle hmem
    obtain ⟨hit, hhit⟩ := exists_hitOfSuffix? hmem stop
    rw [hnone stop (mem_stops.mpr ⟨hone, hle⟩)] at hhit
    cases hhit
  · intro hnone stop hstop
    obtain ⟨hone, hle⟩ := mem_stops.mp hstop
    apply Option.eq_none_iff_forall_ne_some.mpr
    intro hit hhit
    exact hnone stop hone hle (mem_of_hitOfSuffix? hhit)

theorem Masks.pathFirst_eq_none (h : Masks patterns w) : pathFirst patterns w = none := by
  rw [pathFirst_eq_none_iff]
  intro stop hone hle
  have hprefix := List.take_prefix stop w
  have hlive := isLive_of_isPrefix hprefix (isLive_iff.mpr (Or.inr h.follows))
  rw [liveSuffix_eq_self hlive]
  apply h.silent _ hprefix
  rw [Ne, List.take_eq_nil_iff, not_or]
  exact ⟨by omega, h.ne_nil⟩

/-- However the text is split around a pattern, the earliest occurrence stops there at the
latest. -/
theorem stop_le_length_append {before after : Bytes}
    (hfirst : earliestEndFirst patterns (before ++ v ++ after) = some hit) (hv : v ≠ [])
    (hmem : v ∈ patterns) : hit.stop ≤ (before ++ v).length := by
  obtain ⟨id, hid⟩ := List.mem_iff_getElem?.mp hmem
  have hone : 1 ≤ (before ++ v).length :=
    List.length_pos_iff.mpr (List.append_ne_nil_of_right_ne_nil before hv)
  have hoccurs : Occurs patterns (before ++ v ++ after)
      ⟨id, (before ++ v).length - v.length, (before ++ v).length⟩ := by
    rw [occurs_iff, List.take_left]
    have hle := (List.prefix_append (before ++ v) after).length_le
    exact ⟨hone, hle, v, List.suffix_append before v, hid, rfl⟩
  rcases (occurs_of_earliestEndFirst hfirst).2 _ hoccurs with hlt | ⟨heq, -⟩
  · exact hlt.le
  · exact heq.le

/-- Where the earliest occurrence stops, the longest live suffix is a pattern or masks one. -/
theorem mem_or_masks (hfirst : earliestEndFirst patterns text = some hit)
    (hhit : (text.take stop).tails.findSome? (hitOfSuffix? patterns stop) = some hit) :
    liveSuffix patterns (text.take stop) ∈ patterns ∨
      Masks patterns (liveSuffix patterns (text.take stop)) := by
  by_cases hmem : liveSuffix patterns (text.take stop) ∈ patterns
  · exact Or.inl hmem
  · obtain ⟨p, hp, hsuffix, hne⟩ := exists_suffix_of_notMem hmem hhit
    have hnil : liveSuffix patterns (text.take stop) ≠ [] := by
      intro hnil
      rw [hnil, List.suffix_nil] at hsuffix
      exact hne (hsuffix.trans hnil.symm)
    have hlive := isLive_iff.mp (isLive_liveSuffix patterns (text.take stop))
    refine Or.inr ⟨hnil, hlive.resolve_left hnil, fun v hv hvne hvmem ↦ ?_, p, hp, hsuffix, hne⟩
    -- a pattern that ends inside the live suffix would be an occurrence that stops earlier
    obtain ⟨before, hbefore⟩ := liveSuffix_suffix patterns (text.take stop)
    obtain ⟨between, hbetween⟩ := hv
    have hpos : 0 < between.length := by
      rw [List.length_pos_iff]
      rintro rfl
      rw [List.append_nil] at hbetween
      exact hmem (hbetween ▸ hvmem)
    rw [← hbetween, ← List.append_assoc] at hbefore
    have hlength := congrArg List.length hbefore
    rw [List.length_append, List.length_take] at hlength
    rw [← List.take_append_drop stop text, ← hbefore, List.append_assoc] at hfirst
    have hle := stop_le_length_append hfirst hvne hvmem
    obtain ⟨q, -, hq⟩ := List.exists_of_findSome?_eq_some hhit
    obtain ⟨-, -, rfl⟩ := hitOfSuffix?_eq_some hq
    omega

/-- Where nothing is masked the readings agree. -/
theorem pathFirst_eq_earliestEndFirst (h : ∀ w, ¬Masks patterns w) (text : Bytes) :
    pathFirst patterns text = earliestEndFirst patterns text := by
  cases hfirst : earliestEndFirst patterns text with
  | none =>
    rw [pathFirst_eq_none_iff]
    intro stop hone hle hmem
    obtain ⟨id, hid⟩ := List.mem_iff_getElem?.mp hmem
    exact earliestEndFirst_eq_none_iff.mp hfirst
      ⟨id, stop - (liveSuffix patterns (text.take stop)).length, stop⟩
      (occurs_iff.mpr ⟨hone, hle, _, liveSuffix_suffix patterns _, hid, rfl⟩)
  | some hit =>
    obtain ⟨earlier, stop, later, hsplit, hhit, hnone⟩ := List.findSome?_eq_some_iff.mp hfirst
    have hmem := (mem_or_masks hfirst hhit).resolve_right (h _)
    refine List.findSome?_eq_some_iff.mpr
      ⟨earlier, stop, later, hsplit, ?_, fun offset hoffset ↦ ?_⟩
    · rw [← findSome?_tails_of_mem hmem, hhit]
    · have hsuffix := liveSuffix_suffix patterns (text.take offset)
      have hsilent := List.findSome?_eq_none_iff.mp (hnone offset hoffset)
      exact hsilent _ ((List.mem_tails _ _).mpr hsuffix)

/-- A masking string is a text with a pattern in it in which nothing is found. -/
theorem Masks.exists_missed (h : Masks patterns w) :
    w ≠ [] ∧ (∃ p ∈ patterns, p <:+: w) ∧ ¬(pathFirst patterns w).isSome = true := by
  obtain ⟨p, hp, hsuffix, -⟩ := h.hides
  refine ⟨h.ne_nil, ⟨p, hp, hsuffix.isInfix⟩, ?_⟩
  simp [h.pathFirst_eq_none]

theorem forall_isSome_pathFirst_iff :
    (∀ text, text ≠ [] → (∃ p ∈ patterns, p <:+: text) →
        (pathFirst patterns text).isSome = true) ↔
      ¬∃ w, Masks patterns w := by
  constructor
  · rintro h ⟨w, hw⟩
    obtain ⟨hne, hspelled, hmissed⟩ := hw.exists_missed
    exact hmissed (h w hne hspelled)
  · intro h text hne hspelled
    rw [pathFirst_eq_earliestEndFirst (not_exists.mp h)]
    exact isSome_earliestEndFirst_iff.mpr ⟨hne, hspelled⟩

theorem forall_pathFirst_eq_iff :
    (∀ text, pathFirst patterns text = earliestEndFirst patterns text) ↔
      ¬∃ w, Masks patterns w := by
  constructor
  · rintro h ⟨w, hw⟩
    obtain ⟨hne, hspelled, hmissed⟩ := hw.exists_missed
    apply hmissed
    rw [h]
    exact isSome_earliestEndFirst_iff.mpr ⟨hne, hspelled⟩
  · intro h
    exact pathFirst_eq_earliestEndFirst (not_exists.mp h)

/-! ## Two automata -/

namespace Automaton

variable {search : Search} {off on : Automaton}

/-- **Inheritance matters exactly where a pattern is masked.** That a scan finds the same with and
without it in every text, that without it no text with a pattern in it is passed over, and that no
live string masks a pattern, are one and the same condition. -/
theorem findWith_agree_iff (hsearch : search.Leftmost)
    (hoff : (build (c.withInheritSuffixMatches false) patterns).result = .ok off)
    (hon : (build (c.withInheritSuffixMatches true) patterns).result = .ok on) :
    ((∀ text, off.findWith search text = on.findWith search text) ↔
        ∀ text, text ≠ [] → (∃ p ∈ patterns, p <:+: text) →
          off.isMatchWith search text = .ok true) ∧
      ((∀ text, off.findWith search text = on.findWith search text) ↔ ¬∃ w, Masks patterns w) := by
  obtain rfl := hsearch.eq_next?
  obtain ⟨-, hn, rfl⟩ := build_eq_ok_iff.mp hoff
  obtain ⟨-, -, rfl⟩ := build_eq_ok_iff.mp hon
  have hfindOff : ∀ text,
      (ofLiveStrings (c.withInheritSuffixMatches false) patterns).findWith Prefilter.next? text
        = .ok (pathFirst patterns text) := find_ofLiveStrings_of_not_inherit hn rfl
  have hfindOn : ∀ text,
      (ofLiveStrings (c.withInheritSuffixMatches true) patterns).findWith Prefilter.next? text
        = .ok (earliestEndFirst patterns text) := find_ofLiveStrings_of_inherit hn rfl
  simp only [isMatchWith, hfindOff, hfindOn, ok_bind, Except.ok.injEq]
  rw [forall_isSome_pathFirst_iff, forall_pathFirst_eq_iff]
  exact ⟨Iff.rfl, Iff.rfl⟩

/-- The string `ab` masks nothing, since no pattern ends there. -/
def apart : List Bytes := [[97, 98, 99], [98, 100]]

/-- The string `ab` masks the pattern `b`. -/
def covered : List Bytes := [[97, 98, 99], [98]]

theorem findWith_agree_iff_apart_covered :
    (∃ off on, (build (Config.default.withInheritSuffixMatches false) apart).result = .ok off ∧
        (build (Config.default.withInheritSuffixMatches true) apart).result = .ok on ∧
        ∀ text, off.find text = on.find text) ∧
      ∃ off on, (build (Config.default.withInheritSuffixMatches false) covered).result = .ok off ∧
        (build (Config.default.withInheritSuffixMatches true) covered).result = .ok on ∧
        ¬∀ text, off.find text = on.find text := by
  have hapart : ∀ yes, (build (Config.default.withInheritSuffixMatches yes) apart).result
      = .ok (ofLiveStrings (Config.default.withInheritSuffixMatches yes) apart) :=
    fun _ ↦ build_of_ofPatterns rfl
  have hcovered : ∀ yes, (build (Config.default.withInheritSuffixMatches yes) covered).result
      = .ok (ofLiveStrings (Config.default.withInheritSuffixMatches yes) covered) :=
    fun _ ↦ build_of_ofPatterns rfl
  have hnone : maskingPaths apart = [] := by decide
  have hmasks : Masks covered [97, 98] := mem_maskingPaths.mp (by decide)
  have hsearch := Prefilter.leftmost_next?
  constructor
  · refine ⟨_, _, hapart false, hapart true, ?_⟩
    refine (findWith_agree_iff hsearch (hapart _) (hapart _)).2.mpr ?_
    rintro ⟨w, hw⟩
    exact List.not_mem_nil (hnone ▸ mem_maskingPaths.mpr hw)
  · refine ⟨_, _, hcovered false, hcovered true, fun h ↦ ?_⟩
    exact (findWith_agree_iff hsearch (hcovered _) (hcovered _)).2.mp h ⟨_, hmasks⟩

end Automaton

end FirstHit
