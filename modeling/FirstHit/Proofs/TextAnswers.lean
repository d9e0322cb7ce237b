import FirstHit.Proofs.Histories
import FirstHit.Proofs.Utf8

/-!
# Answers as text

A matcher can be asked for a hit, for the bytes hit, for these bytes as text, and whether there is a
hit at all. The four questions are put to the same automaton, so the answers agree
(`Matcher.Agrees`): each of them is determined by the hit and by the pattern that was hit. The
question for text is the only one that can be refused, and it is refused exactly if that pattern is
the encoding of no text.

After any history with a successful build this holds of all texts, with the patterns of the last
such build (`Session.agrees_reached`).
-/

namespace FirstHit

variable {c : Config} {history : List Command} {patterns : List Bytes} {a : Automaton}
  {m : Matcher} {p : Publication} {id : Nat} {bytes : Bytes} {search : Search}

theorem Automaton.pattern_build_eq_ok_iff (h : (build c patterns).result = .ok a) :
    a.pattern id = .ok bytes ↔ patterns[id]? = some bytes := by
  obtain ⟨-, -, rfl⟩ := build_eq_ok_iff.mp h
  rw [pattern, Checked.entry_eq_ok_iff, ofLiveStrings, List.getElem?_toArray]

namespace Matcher

/-- What a matcher answers about a text when its automaton is for `patterns`. The answers are those
about one hit, or there is none. -/
structure Agrees (m : Matcher) (patterns : List Bytes) (text : Bytes) : Prop where
  /-- The bytes found are those of the pattern hit. -/
  find_eq_some_iff : ∀ bytes, m.find text = .ok (some bytes) ↔
    ∃ hit, m.locate text = .ok (some hit) ∧ patterns[hit.pattern]? = some bytes
  /-- Bytes are found if there is a match. -/
  exists_find_iff : (∃ bytes, m.find text = .ok (some bytes)) ↔ m.isMatch text = .ok true
  /-- Nothing is found if there is none. -/
  find_eq_none_iff : m.find text = .ok none ↔ m.isMatch text = .ok false
  /-- One or the other is the case. -/
  exists_isMatch : ∃ found, m.isMatch text = .ok found
  /-- The text found has the bytes found as its encoding. -/
  findText_eq_some_iff : ∀ spelled, m.findText text = .ok (some spelled) ↔
    ∃ bytes, m.find text = .ok (some bytes) ∧ Utf8.encode spelled.toList = bytes
  /-- No text is found if no bytes are. -/
  findText_eq_none_iff : m.findText text = .ok none ↔ m.find text = .ok none
  /-- A pattern is refused as text if it is hit and is the encoding of no text. -/
  findText_eq_error_iff : ∀ id, m.findText text = .error (.invalidUtf8 id) ↔
    ∃ hit bytes, m.locate text = .ok (some hit) ∧ hit.pattern = id ∧
      patterns[id]? = some bytes ∧ ∀ chars, Utf8.encode chars ≠ bytes
  /-- Some pattern is refused if the bytes found are not well-formed. -/
  exists_error_iff : (∃ id, m.findText text = .error (.invalidUtf8 id)) ↔
    ∃ bytes, m.find text = .ok (some bytes) ∧ ¬Utf8.WellFormed bytes
  /-- There is no other error. -/
  findText_cases : (∃ found, m.findText text = .ok found) ∨
    ∃ id, m.findText text = .error (.invalidUtf8 id)

/-- All four answers, as the current automaton determines them. -/
theorem answers_of_current (hp : m.current = some p)
    (hbuilt : (FirstHit.build c patterns).result = .ok p.automaton) (text : Bytes) :
    (m.locate text = .ok none ∧ m.find text = .ok none ∧ m.isMatch text = .ok false ∧
        m.findText text = .ok none) ∨
      ∃ hit bytes, patterns[hit.pattern]? = some bytes ∧ m.locate text = .ok (some hit) ∧
        m.find text = .ok (some bytes) ∧ m.isMatch text = .ok true ∧
        (∀ spelled, bytes.text? = some spelled → m.findText text = .ok (some spelled)) ∧
        (bytes.text? = none → m.findText text = .error (.invalidUtf8 hit.pattern)) := by
  rcases Automaton.find_build hbuilt text with hnone | ⟨hit, bytes, hhit, hbytes⟩
  · have hlocate : m.locate text = .ok none := Session.ask_of_current hp hnone
    have hfind := Automaton.findPattern_of_find_none hnone
    have hmatch := Automaton.isMatch_of_find hnone
    refine Or.inl ⟨hlocate, Session.ask_of_current hp hfind, Session.ask_of_current hp hmatch, ?_⟩
    rw [findText, hlocate, ok_bind]
  · have hlocate : m.locate text = .ok (some hit) := Session.ask_of_current hp hhit
    have hfind := Automaton.findPattern_of_find_some hhit hbytes
    have hmatch := Automaton.isMatch_of_find hhit
    have hpattern : m.ask (·.pattern hit.pattern) = .ok bytes := Session.ask_of_current hp hbytes
    refine Or.inr ⟨hit, bytes, (Automaton.pattern_build_eq_ok_iff hbuilt).mp hbytes, hlocate,
      Session.ask_of_current hp hfind, Session.ask_of_current hp hmatch, fun spelled hspelled ↦ ?_,
      fun hspelled ↦ ?_⟩
    · simp only [findText, hlocate, hpattern, ok_bind, hspelled]
    · simp only [findText, hlocate, hpattern, ok_bind, hspelled]

theorem agrees_of_current (hp : m.current = some p)
    (hbuilt : (FirstHit.build c patterns).result = .ok p.automaton) (text : Bytes) :
    m.Agrees patterns text := by
  rcases answers_of_current hp hbuilt text with
    ⟨hlocate, hfind, hmatch, htext⟩ |
      ⟨hit, bytes, hpattern, hlocate, hfind, hmatch, hspells, hrefuses⟩
  · constructor <;> simp [hlocate, hfind, hmatch, htext]
  · rcases hspelled : bytes.text? with _ | spelled
    · have hill := Bytes.text?_eq_none_iff.mp hspelled
      have hnot : ¬Utf8.WellFormed bytes := by
        rw [Utf8.wellFormed_iff, not_exists]
        exact hill
      have htext := hrefuses hspelled
      constructor
      case findText_eq_some_iff =>
        intro other
        simp only [hfind, htext, Except.ok.injEq, Option.some_inj, exists_eq_left', reduceCtorEq,
          false_iff]
        exact hill other.toList
      case findText_eq_error_iff =>
        simp [hlocate, htext, hpattern, hill]
      all_goals simp [hlocate, hfind, hmatch, htext, hpattern, hnot]
    · have hwell : Utf8.WellFormed bytes :=
        Utf8.wellFormed_iff.mpr ⟨_, Bytes.text?_eq_some_iff.mp hspelled⟩
      have hill : ¬∀ chars, Utf8.encode chars ≠ bytes := by
        rw [← Bytes.text?_eq_none_iff, hspelled]
        exact Option.some_ne_none spelled
      have htext := hspells spelled hspelled
      constructor
      case findText_eq_some_iff =>
        intro other
        simp only [hfind, htext, Except.ok.injEq, Option.some_inj, exists_eq_left']
        rw [← Bytes.text?_eq_some_iff, hspelled, Option.some_inj]
      case findText_eq_error_iff =>
        intro id
        simp only [htext, reduceCtorEq, false_iff]
        rintro ⟨other, found, hother, rfl, hfound, hnone⟩
        obtain rfl : hit = other := by simpa [hlocate] using hother
        obtain rfl : bytes = found := Option.some_inj.mp (hpattern.symm.trans hfound)
        exact hill hnone
      all_goals simp [hlocate, hfind, hmatch, htext, hpattern, hwell]

end Matcher

namespace Session

/-- **Bytes and texts agree.** After any history with a successful build, the four questions about a
text are answered alike, with the patterns of the last such build. The hit is that of a scan with
its automaton, whichever leftmost search the scan jumps with. -/
theorem agrees_reached (hsearch : search.Leftmost)
    (h : (reached c history).matcher.isBuilt = true) (text : Bytes) :
    ∃ patterns before after a found, history = before ++ .build patterns :: after ∧
      (build c patterns).result = .ok a ∧ Barren c after ∧
      a.findWith search text = .ok found ∧ (reached c history).matcher.locate text = .ok found ∧
      (reached c history).matcher.Agrees patterns text := by
  obtain rfl := hsearch.eq_next?
  have hbuilt := isBuilt_reached_iff.mp h
  rcases barren_or_lastBuilt c history with hbarren | ⟨a, hlast⟩
  · exact absurd (builtBy_eq_nil_iff.mpr hbarren) hbuilt
  · have hcurrent := current_reached_of_lastBuilt hlast
    obtain ⟨before, patterns, after, hsplit, hok, hafter⟩ := hlast
    obtain ⟨found, hfound⟩ := Automaton.exists_find_build hok text
    exact ⟨patterns, before, after, a, found, hsplit, hok, hafter, hfound,
      ask_of_current hcurrent hfound, Matcher.agrees_of_current hcurrent hok text⟩

/-- The letter é, and two bytes that hold a number for which one byte is enough. -/
def letterAndOverlong : List Bytes := [[0xC3, 0xA9], [0xC0, 0x80]]

/-- Their build, with a question before it. -/
def buildLetter : List Command := [.isBuilt, .build letterAndOverlong]

theorem agrees_reached_buildLetter :
    (reached .default buildLetter).matcher.isBuilt = true ∧
      (reached .default buildLetter).matcher.isMatch [97, 0xC3, 0xA9, 0xC0, 0x80] = .ok true ∧
      (reached .default buildLetter).matcher.findText [97, 0xC3, 0xA9, 0xC0, 0x80]
        = .ok (some "é") ∧
      (reached .default buildLetter).matcher.findText [97, 0xC0, 0x80, 0xC3, 0xA9]
        = .error (.invalidUtf8 1) := by
  have hok : (build .default letterAndOverlong).result = .ok (.ofLiveStrings .default _) :=
    build_of_ofPatterns rfl
  have hlast : LastBuilt .default buildLetter (.ofLiveStrings .default letterAndOverlong) :=
    ⟨[.isBuilt], _, [], rfl, hok, by simp [Barren]⟩
  have hbuilt : (reached .default buildLetter).matcher.isBuilt = true :=
    isBuilt_reached_iff.mpr (builtBy_ne_nil_iff.mpr ⟨_, _, by simp [buildLetter], hok⟩)
  have hagrees (text : Bytes) :
      (reached .default buildLetter).matcher.Agrees letterAndOverlong text := by
    obtain ⟨patterns, before, after, -, -, hsplit, -, -, -, -, hagrees⟩ :=
      agrees_reached Prefilter.leftmost_next? hbuilt text
    have hmem : .build patterns ∈ buildLetter := by simp [hsplit]
    obtain rfl : patterns = letterAndOverlong := by simpa [buildLetter] using hmem
    exact hagrees
  have hlocate (text : Bytes) : (reached .default buildLetter).matcher.locate text
      = .ok (pathFirst letterAndOverlong text) :=
    ask_of_current (current_reached_of_lastBuilt hlast)
      (Automaton.find_ofLiveStrings_of_not_inherit (build_eq_ok_iff.mp hok).2.1 rfl text)
  have hfind := ((hagrees [97, 0xC3, 0xA9, 0xC0, 0x80]).find_eq_some_iff [0xC3, 0xA9]).mpr
    ⟨⟨0, 1, 3⟩, by rw [hlocate]; decide, rfl⟩
  refine ⟨hbuilt, (hagrees _).exists_find_iff.mp ⟨_, hfind⟩,
    ((hagrees _).findText_eq_some_iff _).mpr ⟨_, hfind, by decide⟩,
    ((hagrees _).findText_eq_error_iff 1).mpr ⟨⟨1, 1, 3⟩, [0xC0, 0x80], ?_, rfl, rfl, ?_⟩⟩
  · rw [hlocate]
    decide
  · exact Bytes.text?_eq_none_iff.mp (by decide +kernel)

end Session

end FirstHit
