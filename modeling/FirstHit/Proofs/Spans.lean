import FirstHit.Proofs.FirstHits

/-!
# What a hit spans

A state only accepts patterns that are suffixes of its path, and its path is a suffix of what was
read. So a pattern that is reported has been read to its last byte: it is no longer than the text up
to the offset, and the bytes between the offsets of the hit are its own (`occurs_of_acceptedHit?`).
This is what makes it safe to subtract the length of the pattern from the offset. A scan of a built
automaton looks nothing up in vain either, jumps included, so it always comes to an answer
(`Automaton.findWith_build`).
-/

namespace FirstHit

variable {search : Search} {c : Config} {patterns : List Bytes} {text x : Bytes} {hit : Hit}
  {inherit : Bool} {stop : Nat}

/-! ## Hits are occurrences -/

theorem occurs_of_acceptedHit? (hone : 1 ≤ stop) (hle : stop ≤ text.length)
    (h : acceptedHit? inherit patterns stop (liveSuffix patterns (text.take stop)) = some hit) :
    Occurs patterns text hit := by
  obtain ⟨id, hid, rfl⟩ := Option.map_eq_some_iff.mp h
  obtain ⟨p, hp, hsuffix⟩ := suffix_of_mem_acceptedIds (List.mem_of_mem_head? hid)
  apply occurs_iff.mpr
  refine ⟨hone, hle, p, ?_, hp, ?_⟩
  · exact hsuffix.trans (liveSuffix_suffix patterns (text.take stop))
  · simp [List.getD_eq_getElem?_getD, hp]

theorem Occurs.lt_length (h : Occurs patterns text hit) : hit.pattern < patterns.length :=
  (List.getElem?_eq_some_iff.mp h.spelled).1

theorem Occurs.isEmpty_iff (h : Occurs patterns text hit) :
    hit.isEmpty = true ↔ patterns[hit.pattern]? = some [] := by
  obtain ⟨hstart, -, hstop, hspelled⟩ := h
  have hempty : (text.take hit.stop).drop hit.start = [] ↔ hit.stop ≤ hit.start := by
    rw [List.drop_eq_nil_iff, List.length_take, Nat.min_eq_left hstop]
  rw [hspelled, Option.some_inj, hempty, Hit.isEmpty, beq_iff_eq]
  omega

namespace Automaton

variable {a : Automaton}

/-- What a scan reports occurs. -/
theorem occurs_of_find (hn : Numbering (livePaths patterns))
    (h : (ofLiveStrings c patterns).find text = .ok (some hit)) : Occurs patterns text hit := by
  rw [find_ofLiveStrings hn] at h
  obtain ⟨stop, hmem, hhit⟩ := List.exists_of_findSome?_eq_some (Except.ok.inj h)
  obtain ⟨hone, hle⟩ := mem_stops.mp hmem
  exact occurs_of_acceptedHit? hone hle hhit

/-- **A scan meets no fault, and its span spells the pattern.** Whatever leftmost search a scan of a
built automaton jumps with, every state, table entry, pattern and byte that it looks up is there, no
occurrence starts before the text, and so there is an answer. If the answer is a hit, then it lies
in the text behind at least one byte, its pattern is one of those that the automaton was built for,
and the bytes that it spans are the bytes of this pattern. -/
theorem findWith_build (hsearch : search.Leftmost) (h : (build c patterns).result = .ok a)
    (text : Bytes) :
    ∃ found, a.findWith search text = .ok found ∧
      ∀ hit, found = some hit →
        hit.start ≤ hit.stop ∧ 1 ≤ hit.stop ∧ hit.stop ≤ text.length ∧
        hit.pattern < a.patternCount ∧
        a.pattern hit.pattern = .ok ((text.take hit.stop).drop hit.start) ∧
        (hit.isEmpty = true ↔ a.pattern hit.pattern = .ok []) := by
  obtain rfl := hsearch.eq_next?
  obtain ⟨found, hfound⟩ := exists_find_build h text
  obtain ⟨-, hn, rfl⟩ := build_eq_ok_iff.mp h
  refine ⟨found, hfound, fun hit hhit ↦ ?_⟩
  subst hhit
  have hoccurs := occurs_of_find hn hfound
  have hpattern := pattern_ofLiveStrings c hoccurs.spelled
  refine ⟨hoccurs.start_le_stop, hoccurs.one_le_stop, hoccurs.stop_le_length, hoccurs.lt_length,
    hpattern, ?_⟩
  rw [hoccurs.isEmpty_iff, hpattern, hoccurs.spelled, Option.some_inj, Except.ok.injEq]

theorem findWith_build_jumping :
    ∃ a, (build (Config.default.withInheritSuffixMatches true)
        [[97, 98, 99, 100], [98, 99], [99]]).result = .ok a ∧
      a.hasPrefilter = true ∧
      a.findWith Prefilter.next? [120, 120, 97, 98, 99] = .ok (some ⟨1, 3, 5⟩) ∧
      a.pattern 1 = .ok ((([120, 120, 97, 98, 99] : Bytes).take 5).drop 3) := by
  have hbuild : (build (Config.default.withInheritSuffixMatches true)
      [[97, 98, 99, 100], [98, 99], [99]]).result = .ok (ofLiveStrings _ _) :=
    build_of_ofPatterns rfl
  obtain ⟨found, hfound, hspells⟩ :=
    findWith_build Prefilter.leftmost_next? hbuild [120, 120, 97, 98, 99]
  have hfind : (ofLiveStrings (Config.default.withInheritSuffixMatches true)
      [[97, 98, 99, 100], [98, 99], [99]]).find [120, 120, 97, 98, 99] = .ok (some ⟨1, 3, 5⟩) :=
    find_ofLiveStrings_of_inherit (build_eq_ok_iff.mp hbuild).2.1 rfl _
  obtain rfl : some ⟨1, 3, 5⟩ = found := Except.ok.inj (hfind.symm.trans hfound)
  obtain ⟨-, -, -, -, hpattern, -⟩ := hspells _ rfl
  exact ⟨_, hbuild, rfl, hfound, hpattern⟩

end Automaton

end FirstHit
