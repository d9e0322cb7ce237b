import FirstHit.Proofs.Separators

/-!
# Patterns that are reported at all

Not every pattern can be hit. A pattern that has another one in its middle is never read to its end,
and of two equal patterns the second is never preferred. With inheritance such a pattern can be told
by one scan, that of its own bytes (`Automaton.exists_findWith_build_iff`).

The reason is that occurrences are local: what occurs in a string occurs in every text that holds
the string, moved to the place where the text holds it (`Occurs.shift`). So a hit in a text that is
preferred to all other occurrences there is preferred to those inside its own span, and these are
all that a scan of the pattern can meet.

Without inheritance the bytes in front of a pattern count as well. They may keep a scan on a longer
path, which passes over the pattern that would have been reported first.
-/

namespace FirstHit

variable {search : Search} {c : Config} {patterns : List Bytes} {text v p before after : Bytes}
  {hit : Hit} {id : Nat}

/-! ## Occurrences inside an occurrence -/

theorem Occurs.shift (h : Occurs patterns v hit) (before after : Bytes) :
    Occurs patterns (before ++ v ++ after) (hit.shift before.length) := by
  obtain ⟨hone, hle, w, hw, hspelled, hstart⟩ := occurs_iff.mp h
  have hlength := hw.length_le
  rw [List.length_take] at hlength
  apply occurs_iff.mpr
  dsimp only [Hit.shift]
  refine ⟨by omega, ?_, w, ?_, hspelled, by omega⟩
  · rw [List.length_append, List.length_append]
    omega
  · rw [List.append_assoc, List.take_length_add_append, List.take_append_of_le_length hle]
    exact hw.trans (List.suffix_append before _)

theorem Occurs.exists_append (h : Occurs patterns text hit) (hp : patterns[hit.pattern]? = some p) :
    ∃ before after, text = before ++ p ++ after ∧ hit.start = before.length ∧
      hit.stop = before.length + p.length := by
  obtain ⟨-, hle, w, ⟨before, hbefore⟩, hspelled, hstart⟩ := occurs_iff.mp h
  obtain rfl : p = w := Option.some_inj.mp (hp.symm.trans hspelled)
  have hlength := congrArg List.length hbefore
  rw [List.length_append, List.length_take, Nat.min_eq_left hle] at hlength
  refine ⟨before, text.drop hit.stop, ?_, by omega, hlength.symm⟩
  rw [hbefore, List.take_append_drop]

theorem occurs_self (hp : patterns[id]? = some p) (hne : p ≠ []) :
    Occurs patterns p ⟨id, 0, p.length⟩ where
  start_le_stop := Nat.zero_le _
  one_le_stop := List.length_pos_iff.mpr hne
  stop_le_length := Nat.le_refl _
  spelled := by rw [hp, List.take_length, List.drop_zero]

/-- The first occurrence in a text is the first occurrence in its own span. -/
theorem earliestEndFirst_self (h : earliestEndFirst patterns text = some hit)
    (hp : patterns[hit.pattern]? = some p) (hne : p ≠ []) :
    earliestEndFirst patterns p = some ⟨hit.pattern, 0, p.length⟩ := by
  obtain ⟨hoccurs, hpreferred⟩ := earliestEndFirst_eq_some_iff.mp h
  obtain ⟨before, after, rfl, hstart, hstop⟩ := hoccurs.exists_append hp
  refine earliestEndFirst_eq_some_iff.mpr ⟨occurs_self hp hne, fun other hother ↦ ?_⟩
  have hbefore := hpreferred _ (hother.shift before after)
  have hle := hother.stop_le_length
  -- `other` stops inside the span, so it can be neither earlier nor longer
  rw [Hit.Before] at hbefore ⊢
  dsimp only [Hit.shift] at hbefore ⊢
  omega

-- Path first reports `bab` behind a `c`, which leads it past `ba`, but not in `bab` itself.
example : pathFirst [[99, 98, 97, 120], [98, 97], [98, 97, 98]] [99, 98, 97, 98] = some ⟨2, 1, 4⟩ ∧
    pathFirst [[99, 98, 97, 120], [98, 97], [98, 97, 98]] [98, 97, 98] = some ⟨1, 0, 2⟩ := by
  decide

namespace Automaton

variable {a : Automaton}

/-- **With inheritance a pattern that is not reported on itself is never reported.** There is a text
in which a scan reports a pattern, the empty one apart, if and only if the scan of the bytes of the
pattern reports it, from the first byte to the last. -/
theorem exists_findWith_build_iff (hsearch : search.Leftmost) (hc : c.inheritSuffixMatches = true)
    (h : (build c patterns).result = .ok a) (hp : patterns[id]? = some p) (hne : p ≠ []) :
    (∃ text hit, a.findWith search text = .ok (some hit) ∧ hit.pattern = id) ↔
      a.findWith search p = .ok (some ⟨id, 0, p.length⟩) := by
  obtain rfl := hsearch.eq_next?
  obtain ⟨-, hn, rfl⟩ := build_eq_ok_iff.mp h
  have hfind : ∀ text, (ofLiveStrings c patterns).findWith Prefilter.next? text
      = .ok (earliestEndFirst patterns text) := find_ofLiveStrings_of_inherit hn hc
  constructor
  · rintro ⟨text, hit, hhit, rfl⟩
    rw [hfind] at hhit ⊢
    rw [earliestEndFirst_self (Except.ok.inj hhit) hp hne]
  · intro hself
    exact ⟨p, _, hself, rfl⟩

/-- The second pattern is a suffix of the first and in the middle of the third, and it is repeated
as the fourth. -/
def interleaved : List Bytes := [[97, 98], [98], [97, 98, 99], [98]]

theorem exists_findWith_build_iff_interleaved :
    ∃ a, (build (Config.default.withInheritSuffixMatches true) interleaved).result = .ok a ∧
      (∃ text hit, a.findWith Prefilter.next? text = .ok (some hit) ∧ hit.pattern = 1) ∧
      (¬∃ text hit, a.findWith Prefilter.next? text = .ok (some hit) ∧ hit.pattern = 2) ∧
      ¬∃ text hit, a.findWith Prefilter.next? text = .ok (some hit) ∧ hit.pattern = 3 := by
  have hbuild : (build (Config.default.withInheritSuffixMatches true) interleaved).result
      = .ok (ofLiveStrings _ _) := build_of_ofPatterns rfl
  have hfind : ∀ text, (ofLiveStrings (Config.default.withInheritSuffixMatches true)
      interleaved).findWith Prefilter.next? text = .ok (earliestEndFirst interleaved text) :=
    find_ofLiveStrings_of_inherit (build_eq_ok_iff.mp hbuild).2.1 rfl
  have hself {id : Nat} {p : Bytes} (hp : interleaved[id]? = some p) (hne : p ≠ []) :=
    exists_findWith_build_iff Prefilter.leftmost_next? rfl hbuild hp hne
  simp only [hfind, Except.ok.injEq] at hself
  refine ⟨_, hbuild, ?_, ?_, ?_⟩ <;> simp only [hfind, Except.ok.injEq]
  · exact (hself rfl (by decide)).mpr (by decide)
  · exact (hself rfl (by decide)).not.mpr (by decide)
  · exact (hself rfl (by decide)).not.mpr (by decide)

end Automaton

end FirstHit
