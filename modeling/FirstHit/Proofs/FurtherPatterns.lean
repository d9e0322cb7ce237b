import FirstHit.Proofs.FirstHits

/-!
# Further patterns

Patterns that are appended to a list leave the ids of the others as they are, so everything that
occurs in a text for the list occurs for the longer list as well (`Occurs.append`). With inheritance
a scan finds the first of all occurrences, and with more of them the first one can only move to the
front. Where it stays it keeps its id, because the further patterns have greater ones
(`exists_earliestEndFirst_append`).

Without inheritance there is no such law. A scan that follows a further pattern passes over the
patterns that end on the way, and a hit can be lost.
-/

namespace FirstHit

variable {search : Search} {c₁ c₂ : Config} {patterns further : List Bytes} {text : Bytes}
  {hit : Hit}

/-! ## Occurrences for more patterns -/

theorem Occurs.append (h : Occurs patterns text hit) (further : List Bytes) :
    Occurs (patterns ++ further) text hit := by
  refine ⟨h.start_le_stop, h.one_le_stop, h.stop_le_length, ?_⟩
  obtain ⟨hlt, -⟩ := List.getElem?_eq_some_iff.mp h.spelled
  rw [List.getElem?_append_left hlt]
  exact h.spelled

theorem Occurs.of_append (h : Occurs (patterns ++ further) text hit)
    (hlt : hit.pattern < patterns.length) : Occurs patterns text hit := by
  refine ⟨h.start_le_stop, h.one_le_stop, h.stop_le_length, ?_⟩
  rw [← h.spelled, List.getElem?_append_left hlt]

/-- The first occurrence for more patterns comes before the first one for fewer, and has its id if
it has its bytes. -/
theorem exists_earliestEndFirst_append (h : earliestEndFirst patterns text = some hit)
    (further : List Bytes) :
    ∃ first, earliestEndFirst (patterns ++ further) text = some first ∧
      (first.stop < hit.stop ∨ first.stop = hit.stop ∧ first.start < hit.start ∨ first = hit) := by
  obtain ⟨hoccurs, hbefore⟩ := occurs_of_earliestEndFirst h
  have hstill := hoccurs.append further
  obtain ⟨first, hfirst, hfirstOccurs, hpreferred⟩ := hstill.exists_earliestEndFirst
  refine ⟨first, hfirst, ?_⟩
  rcases hpreferred hit hstill with hstop | ⟨hstop, hstart | ⟨hstart, hid⟩⟩
  · exact Or.inl hstop
  · exact Or.inr (Or.inl ⟨hstop, hstart⟩)
  · -- the same bytes with no greater id: the pattern is an old one
    have hlt : first.pattern < patterns.length :=
      hid.trans_lt (List.getElem?_eq_some_iff.mp hoccurs.spelled).1
    have hback := hbefore first (hfirstOccurs.of_append hlt)
    exact Or.inr (Or.inr ((hpreferred hit hstill).antisymm hback))

-- Path first loses the hit of `bc` in `abc` when `abcd` is added.
example : pathFirst [[98, 99]] [97, 98, 99] = some ⟨0, 1, 3⟩ ∧
    pathFirst ([[98, 99]] ++ [[97, 98, 99, 100]]) [97, 98, 99] = none := by decide

namespace Automaton

variable {a₁ a₂ : Automaton}

/-- **With inheritance, further patterns never hide a hit.** Where an automaton for some patterns
finds a hit, an automaton for these and further patterns finds one that stops earlier, or one that
stops there and starts earlier, or the very same hit. -/
theorem findWith_build_append (hsearch : search.Leftmost)
    (hc₁ : c₁.inheritSuffixMatches = true) (hc₂ : c₂.inheritSuffixMatches = true)
    (h₁ : (build c₁ patterns).result = .ok a₁)
    (h₂ : (build c₂ (patterns ++ further)).result = .ok a₂)
    (hfind : a₁.findWith search text = .ok (some hit)) :
    ∃ first, a₂.findWith search text = .ok (some first) ∧
      (first.stop < hit.stop ∨ first.stop = hit.stop ∧ first.start < hit.start ∨ first = hit) := by
  obtain rfl := hsearch.eq_next?
  obtain ⟨-, hn₁, rfl⟩ := build_eq_ok_iff.mp h₁
  obtain ⟨-, hn₂, rfl⟩ := build_eq_ok_iff.mp h₂
  rw [← find, find_ofLiveStrings_of_inherit hn₁ hc₁] at hfind
  obtain ⟨first, hfirst, hbefore⟩ := exists_earliestEndFirst_append (Except.ok.inj hfind) further
  refine ⟨first, ?_, hbefore⟩
  rw [← find, find_ofLiveStrings_of_inherit hn₂ hc₂, hfirst]

theorem findWith_build_append_moves :
    ∃ a₁ a₂,
      (build (Config.default.withInheritSuffixMatches true) [[98, 99], [99]]).result = .ok a₁ ∧
      (build (Config.default.withInheritSuffixMatches true)
        ([[98, 99], [99]] ++ [[97, 98, 99], [98, 99]])).result = .ok a₂ ∧
      a₁.find [97, 98, 99] = .ok (some ⟨0, 1, 3⟩) ∧
      a₂.find [97, 98, 99] = .ok (some ⟨2, 0, 3⟩) := by
  have h₁ : (build (Config.default.withInheritSuffixMatches true) [[98, 99], [99]]).result
      = .ok (ofLiveStrings _ _) := build_of_ofPatterns rfl
  have h₂ : (build (Config.default.withInheritSuffixMatches true)
      ([[98, 99], [99]] ++ [[97, 98, 99], [98, 99]])).result = .ok (ofLiveStrings _ _) :=
    build_of_ofPatterns rfl
  have hfind : (ofLiveStrings (Config.default.withInheritSuffixMatches true)
      [[98, 99], [99]]).find [97, 98, 99] = .ok (some ⟨0, 1, 3⟩) :=
    find_ofLiveStrings_of_inherit (build_eq_ok_iff.mp h₁).2.1 rfl _
  obtain ⟨first, hfirst, -⟩ :=
    findWith_build_append Prefilter.leftmost_next? rfl rfl h₁ h₂ hfind
  -- the hit of `abc` stops at the same offset and starts earlier
  have hearlier : first = ⟨2, 0, 3⟩ := by
    have hfirst' := hfirst
    rw [← find, find_ofLiveStrings_of_inherit (build_eq_ok_iff.mp h₂).2.1 rfl] at hfirst'
    exact (Option.some_inj.mp (Except.ok.inj hfirst')).symm
  exact ⟨_, _, h₁, h₂, hfind, hearlier ▸ hfirst⟩

end Automaton

end FirstHit
