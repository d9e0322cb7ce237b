import FirstHit.Proofs.Limits
import FirstHit.Proofs.Masking

/-!
# What inheritance does to a hit

A scan that inherits accepts in more states, so it may stop at an earlier offset than a scan that
does not. It may not do anything else: at the offset where the scan without inheritance stops, the
path of the state is itself a pattern, and a state prefers the patterns that its own path spells.
So where both scans stop at one offset they report the same hit, and a hit without inheritance is
never lost or moved to the right (`Automaton.findWith_inheriting_build`).
-/

namespace FirstHit

variable {search : Search} {c : Config} {patterns : List Bytes} {text : Bytes} {hit : Hit}

theorem findSome?_tails_of_pathFirst (h : pathFirst patterns text = some hit) :
    1 ≤ hit.stop ∧ hit.stop ≤ text.length ∧
      (text.take hit.stop).tails.findSome? (hitOfSuffix? patterns hit.stop) = some hit := by
  obtain ⟨stop, hmem, hhit⟩ := List.exists_of_findSome?_eq_some h
  obtain ⟨hone, hle⟩ := mem_stops.mp hmem
  obtain ⟨-, -, rfl⟩ := hitOfSuffix?_eq_some hhit
  refine ⟨hone, hle, ?_⟩
  rw [findSome?_tails_of_mem (mem_of_hitOfSuffix? hhit), hhit]

/-- Earliest end first stops no later than path first, and a tie is not decided again. -/
theorem exists_earliestEndFirst (h : pathFirst patterns text = some hit) :
    ∃ first, earliestEndFirst patterns text = some first ∧
      (first.stop < hit.stop ∨ first = hit) := by
  obtain ⟨hone, hle, htails⟩ := findSome?_tails_of_pathFirst h
  obtain ⟨hoccurs, hbefore⟩ := Occurs.of_tails hone hle htails
  obtain ⟨first, hfirst, hfirstOccurs, hpreferred⟩ := hoccurs.exists_earliestEndFirst
  refine ⟨first, hfirst, ?_⟩
  have hfirstBefore := hpreferred hit hoccurs
  by_cases hlt : first.stop < hit.stop
  · exact Or.inl hlt
  · -- they stop at one offset, so each is preferred to the other
    have hstop : first.stop = hit.stop := by
      rcases hfirstBefore with hlt' | ⟨heq, -⟩
      · exact absurd hlt' hlt
      · exact heq
    exact Or.inr (hfirstBefore.antisymm (hbefore first hfirstOccurs hstop))

namespace Automaton

/-- **Inheritance never reports later, and never decides a tie again.** Patterns that the limits let
in make an automaton with inheritance and one without. Where the one without finds a hit, the one
with inheritance finds a hit that stops earlier, or the very same hit. -/
theorem findWith_inheriting_build {a : Automaton} (hsearch : search.Leftmost)
    (h : (build c patterns).result = .ok a) (jumpOff jumpOn : Bool) :
    ∃ off on,
      (build ((c.withInheritSuffixMatches false).withPrefilter jumpOff) patterns).result = .ok off ∧
      (build ((c.withInheritSuffixMatches true).withPrefilter jumpOn) patterns).result = .ok on ∧
      ∀ text hit, off.findWith search text = .ok (some hit) →
        ∃ first, on.findWith search text = .ok (some first) ∧
          (first.stop < hit.stop ∨ first = hit) := by
  obtain rfl := hsearch.eq_next?
  have hn := (build_eq_ok_iff.mp h).2.1
  refine ⟨_, _, build_of_same_limits h rfl rfl, build_of_same_limits h rfl rfl,
    fun text hit hoff ↦ ?_⟩
  rw [← find, find_ofLiveStrings_of_not_inherit hn rfl] at hoff
  rw [← find, find_ofLiveStrings_of_inherit hn rfl]
  obtain ⟨first, hfirst, hstop⟩ := exists_earliestEndFirst (Except.ok.inj hoff)
  exact ⟨first, congrArg Except.ok hfirst, hstop⟩

theorem findWith_inheriting_build_overlapping :
    ∃ off on,
      (build Config.default [[97, 98, 99], [98], [98, 100], [98]]).result = .ok off ∧
      (build (Config.default.withInheritSuffixMatches true)
        [[97, 98, 99], [98], [98, 100], [98]]).result = .ok on ∧
      off.find [97, 98, 99] = .ok (some ⟨0, 0, 3⟩) ∧
      on.find [97, 98, 99] = .ok (some ⟨1, 1, 2⟩) := by
  have hbuild : (build .default [[97, 98, 99], [98], [98, 100], [98]]).result
      = .ok (ofLiveStrings .default _) := build_of_ofPatterns rfl
  obtain ⟨off, on, hoff, hon, hfind⟩ :=
    findWith_inheriting_build Prefilter.leftmost_next? hbuild true true
  have hn := (build_eq_ok_iff.mp hbuild).2.1
  have hhit : off.find [97, 98, 99] = .ok (some ⟨0, 0, 3⟩) := by
    rw [(build_eq_ok_iff.mp hoff).2.2, find_ofLiveStrings_of_not_inherit hn rfl]
    rfl
  obtain ⟨first, hfirst, -⟩ := hfind _ _ hhit
  -- the hit of `b` is the earlier one
  have hearlier : first = ⟨1, 1, 2⟩ := by
    have hon' := hfirst
    rw [(build_eq_ok_iff.mp hon).2.2, ← find, find_ofLiveStrings_of_inherit hn rfl] at hon'
    exact (Option.some_inj.mp (Except.ok.inj hon')).symm
  exact ⟨off, on, hoff, hon, hhit, hearlier ▸ hfirst⟩

end Automaton

end FirstHit
