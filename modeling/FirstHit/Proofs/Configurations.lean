import FirstHit.Proofs.Compilation

/-!
# What a configuration decides

A configuration is consulted in all passes of a build: at every new state, at every link, and when
the automaton is put together. What comes of it is little. The limits decide whether there is an
automaton and nothing about the one that there is (`Automaton.ofLiveStrings_congr`). The switch for
inheritance decides what states accept beyond the patterns that their own paths spell, and the
switch for the prefilter whether a scan may jump.

So two builds for the same patterns can be compared without being run side by side: whatever their
configurations, both make the closed form.
-/

namespace FirstHit

namespace Automaton

variable {c₁ c₂ : Config} {patterns : List Bytes} {a₁ a₂ : Automaton}

theorem ofLiveStrings_congr (hinherit : c₁.inheritSuffixMatches = c₂.inheritSuffixMatches)
    (hprefilter : c₁.prefilter = c₂.prefilter) (patterns : List Bytes) :
    ofLiveStrings c₁ patterns = ofLiveStrings c₂ patterns := by
  rw [ofLiveStrings, ofLiveStrings, hinherit, hprefilter]

/-- **Configurations have no hidden influence.** If two configurations let the same patterns in,
then the automata have the same states with the same links and depths, the same transitions and the
same patterns. What states accept depends on the switch for inheritance: it only ever adds patterns
behind the others, and none at the root. The prefilter depends on its own switch. Where both
switches agree, the automata are equal, whatever the limits. -/
theorem build_agree (h₁ : (build c₁ patterns).result = .ok a₁)
    (h₂ : (build c₂ patterns).result = .ok a₂) :
    a₁.stateCount = a₂.stateCount ∧
      (∀ s, s.index < a₁.stateCount →
        (∃ r, a₁.failure s = .ok r ∧ a₂.failure s = .ok r) ∧
        (∀ b, ∃ r, a₁.next s b = .ok r ∧ a₂.next s b = .ok r) ∧
        ∃ s₁ s₂, a₁.state s = .ok s₁ ∧ a₂.state s = .ok s₂ ∧ s₁.depth = s₂.depth ∧
          (c₁.inheritSuffixMatches = c₂.inheritSuffixMatches → s₁.ids = s₂.ids) ∧
          (c₁.inheritSuffixMatches = false → c₂.inheritSuffixMatches = true →
            s₁.ids <+: s₂.ids) ∧
          (s = .root → s₁.ids = s₂.ids)) ∧
      a₁.patterns = a₂.patterns ∧
      (c₁.prefilter = c₂.prefilter →
        a₁.prefilter = a₂.prefilter ∧ a₁.hasPrefilter = a₂.hasPrefilter) ∧
      (c₁.inheritSuffixMatches = c₂.inheritSuffixMatches → c₁.prefilter = c₂.prefilter →
        a₁ = a₂) := by
  obtain ⟨-, hn, rfl⟩ := build_eq_ok_iff.mp h₁
  obtain ⟨-, -, rfl⟩ := build_eq_ok_iff.mp h₂
  refine ⟨?_, fun s hs ↦ ?_, rfl, fun hprefilter ↦ ?_, fun hinherit hprefilter ↦ ?_⟩
  · rw [stateCount_ofLiveStrings, stateCount_ofLiveStrings]
  · obtain ⟨w, hw, rfl⟩ := exists_ofPath_of_lt hn hs
    refine ⟨⟨_, failure_ofLiveStrings hn c₁ hw, failure_ofLiveStrings hn c₂ hw⟩,
      fun b ↦ ⟨_, next_ofLiveStrings hn c₁ hw b, next_ofLiveStrings hn c₂ hw b⟩,
      _, _, state_ofLiveStrings hn c₁ hw, state_ofLiveStrings hn c₂ hw, rfl, ?_, ?_, ?_⟩
    · intro hinherit
      rw [hinherit]
    · intro hoff hon
      rw [hoff, hon]
      exact idxsOf_prefix_acceptedIds patterns w
    · -- the root has nothing to inherit
      intro hroot
      rw [← hn.ofPath_nil] at hroot
      obtain rfl := (hn.ofPath_inj (mem_livePaths.mpr hw) hn.nil_mem).mp hroot
      rw [liveState, liveState, acceptedIds_nil, acceptedIds_nil]
  · have hsame : (ofLiveStrings c₁ patterns).prefilter = (ofLiveStrings c₂ patterns).prefilter := by
      rw [ofLiveStrings, ofLiveStrings, hprefilter]
    exact ⟨hsame, by rw [hasPrefilter, hasPrefilter, hsame]⟩
  · exact ofLiveStrings_congr hinherit hprefilter patterns

/-- Five states at most, and no jumps. -/
def fiveStates : Config := { maxStates := some 5, prefilter := false }

theorem build_agree_fiveStates :
    ∃ a₁ a₂, (build fiveStates [[97, 98, 99], [98]]).result = .ok a₁ ∧
      (build (Config.default.withInheritSuffixMatches true) [[97, 98, 99], [98]]).result = .ok a₂ ∧
      a₁.stateCount = a₂.stateCount ∧
      (∃ r, a₁.failure ⟨2⟩ = .ok r ∧ a₂.failure ⟨2⟩ = .ok r) ∧
      ∃ s₁ s₂, a₁.state ⟨2⟩ = .ok s₁ ∧ a₂.state ⟨2⟩ = .ok s₂ ∧ s₁.ids <+: s₂.ids := by
  have h₁ : (build fiveStates [[97, 98, 99], [98]]).result = .ok (ofLiveStrings fiveStates _) :=
    build_of_ofPatterns rfl
  have h₂ : (build (Config.default.withInheritSuffixMatches true) [[97, 98, 99], [98]]).result
      = .ok (ofLiveStrings (Config.default.withInheritSuffixMatches true) _) :=
    build_of_ofPatterns rfl
  obtain ⟨hcount, hstate, -⟩ := build_agree h₁ h₂
  obtain ⟨hlink, -, s₁, s₂, hs₁, hs₂, -, -, hids, -⟩ := hstate ⟨2⟩ (by decide)
  exact ⟨_, _, h₁, h₂, hcount, hlink, s₁, s₂, hs₁, hs₂, hids rfl rfl⟩

end Automaton

end FirstHit
