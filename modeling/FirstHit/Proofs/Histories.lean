import FirstHit.Proofs.FirstHits
import FirstHit.Session

/-!
# Histories

A session goes through builds that succeed, builds that fail, and questions. Of all this only the
automata count that the successful builds made, in their order (`builtBy`): each of them is
published in its turn, and nothing else touches the matcher (`Session.matcher_step`). The matcher
that a history leads to can therefore be written down (`Matcher.ofBuilt`), and what the session
answers is read off there.

Every history either builds nothing (`Barren`) or has a last build that succeeds (`LastBuilt`). In
the first case the session has nothing to answer with, and in the second it answers with what that
build made.
-/

namespace FirstHit

variable {c : Config} {history before after : List Command} {command : Command}
  {patterns : List Bytes} {a : Automaton} {automata : List Automaton} {s : Session}

/-! ## What a history builds -/

/-- What a command builds, if it is a build that succeeds. -/
def Command.built? (c : Config) : Command → Option Automaton
  | .build patterns => (FirstHit.build c patterns).result.toOption
  | _ => none

/-- The automata that the commands build, in order. -/
def builtBy (c : Config) (history : List Command) : List Automaton :=
  history.filterMap (·.built? c)

/-- All builds fail. -/
def Barren (c : Config) (history : List Command) : Prop :=
  ∀ patterns, .build patterns ∈ history → ∃ error, (build c patterns).result = .error error

/-- The last of the builds that succeed makes `a`. -/
def LastBuilt (c : Config) (history : List Command) (a : Automaton) : Prop :=
  ∃ before patterns after, history = before ++ .build patterns :: after ∧
    (build c patterns).result = .ok a ∧ Barren c after

theorem Command.built?_build_of_ok (h : (FirstHit.build c patterns).result = .ok a) :
    (Command.build patterns).built? c = some a := by
  rw [built?, h]
  rfl

theorem Command.built?_eq_some_iff :
    command.built? c = some a ↔
      ∃ patterns, command = .build patterns ∧ (FirstHit.build c patterns).result = .ok a := by
  constructor
  · intro h
    cases command with
    | build patterns =>
      refine ⟨patterns, rfl, ?_⟩
      rw [built?] at h
      cases hresult : (FirstHit.build c patterns).result with
      | ok built =>
        rw [hresult] at h
        exact congrArg Except.ok (Option.some_inj.mp h)
      | error error =>
        rw [hresult] at h
        cases h
    | _ => cases h
  · rintro ⟨patterns, rfl, h⟩
    exact built?_build_of_ok h

theorem builtBy_cons (c : Config) (command : Command) (history : List Command) :
    builtBy c (command :: history) = (command.built? c).toList ++ builtBy c history := by
  cases hbuilt : command.built? c with
  | none =>
    rw [builtBy, List.filterMap_cons_none hbuilt]
    rfl
  | some a =>
    rw [builtBy, List.filterMap_cons_some hbuilt]
    rfl

theorem builtBy_append (c : Config) (before after : List Command) :
    builtBy c (before ++ after) = builtBy c before ++ builtBy c after :=
  List.filterMap_append

theorem mem_builtBy :
    a ∈ builtBy c history ↔
      ∃ patterns, .build patterns ∈ history ∧ (build c patterns).result = .ok a := by
  rw [builtBy, List.mem_filterMap]
  constructor
  · rintro ⟨command, hmem, hbuilt⟩
    obtain ⟨patterns, rfl, hok⟩ := Command.built?_eq_some_iff.mp hbuilt
    exact ⟨patterns, hmem, hok⟩
  · rintro ⟨patterns, hmem, hok⟩
    exact ⟨_, hmem, Command.built?_build_of_ok hok⟩

theorem builtBy_ne_nil_iff :
    builtBy c history ≠ [] ↔
      ∃ patterns a, .build patterns ∈ history ∧ (build c patterns).result = .ok a := by
  constructor
  · intro h
    obtain ⟨a, ha⟩ := List.exists_mem_of_ne_nil _ h
    obtain ⟨patterns, hmem, hok⟩ := mem_builtBy.mp ha
    exact ⟨patterns, a, hmem, hok⟩
  · rintro ⟨patterns, a, hmem, hok⟩
    exact List.ne_nil_of_mem (mem_builtBy.mpr ⟨patterns, hmem, hok⟩)

theorem builtBy_eq_nil_iff : builtBy c history = [] ↔ Barren c history := by
  rw [List.eq_nil_iff_forall_not_mem]
  constructor
  · intro h patterns hmem
    cases hresult : (build c patterns).result with
    | ok a => exact absurd (mem_builtBy.mpr ⟨patterns, hmem, hresult⟩) (h a)
    | error error => exact ⟨error, rfl⟩
  · intro h a ha
    obtain ⟨patterns, hmem, hok⟩ := mem_builtBy.mp ha
    obtain ⟨error, herror⟩ := h patterns hmem
    rw [hok] at herror
    cases herror

theorem getLast?_builtBy_eq_some_iff :
    (builtBy c history).getLast? = some a ↔ LastBuilt c history a := by
  constructor
  · intro h
    -- the last automaton comes from a command, and the commands behind that one build nothing
    obtain ⟨older, hbuilt⟩ := List.getLast?_eq_some_iff.mp h
    obtain ⟨before, rest, rfl, -, hrest⟩ := List.filterMap_eq_append_iff.mp hbuilt
    obtain ⟨between, command, after, rfl, -, hcommand, hafter⟩ :=
      List.filterMap_eq_cons_iff.mp hrest
    obtain ⟨patterns, rfl, hok⟩ := Command.built?_eq_some_iff.mp hcommand
    refine ⟨before ++ between, patterns, after, ?_, hok, builtBy_eq_nil_iff.mp hafter⟩
    rw [List.append_assoc]
  · rintro ⟨before, patterns, after, rfl, hok, hafter⟩
    rw [builtBy_append, builtBy_cons, Command.built?_build_of_ok hok,
      builtBy_eq_nil_iff.mpr hafter, Option.toList_some, List.append_nil, List.getLast?_concat]

theorem barren_or_lastBuilt (c : Config) (history : List Command) :
    Barren c history ∨ ∃ a, LastBuilt c history a := by
  cases hlast : (builtBy c history).getLast? with
  | none => exact Or.inl (builtBy_eq_nil_iff.mp (List.getLast?_eq_none_iff.mp hlast))
  | some a => exact Or.inr ⟨a, getLast?_builtBy_eq_some_iff.mp hlast⟩

/-! ## The matcher in closed form -/

namespace Matcher

/-- The matcher that has published `automata`, one after another. -/
def ofBuilt (c : Config) (automata : List Automaton) : Matcher where
  config := c
  current := automata.getLast?.map fun a ↦ { serial := automata.length - 1, automaton := a }
  published := automata.length

theorem publish_ofBuilt (c : Config) (automata : List Automaton) (a : Automaton) :
    (ofBuilt c automata).publish a = ofBuilt c (automata ++ [a]) := by
  rw [publish, ofBuilt, ofBuilt, List.getLast?_concat, List.length_append]
  rfl

theorem foldl_publish_ofBuilt (c : Config) (automata more : List Automaton) :
    more.foldl publish (ofBuilt c automata) = ofBuilt c (automata ++ more) := by
  induction more generalizing automata with
  | nil => rw [List.foldl_nil, List.append_nil]
  | cons a more ih => rw [List.foldl_cons, publish_ofBuilt, ih, ← List.append_cons]

end Matcher

/-! ## Steps and runs -/

namespace Session

/-- What a session answers to a command. -/
def answer (s : Session) (command : Command) : Except Error Answer := (s.step command).2.result

/-- Keeps `p` under a name. -/
def keep (s : Session) (name : String) (p : Publication) : Session :=
  { s with snapshots := (name, p) :: s.snapshots }

/-- The session that a history leads to. -/
def reached (c : Config) (history : List Command) : Session := ((ofConfig c).run history).1

theorem step_build_of_ok (h : (build s.matcher.config patterns).result = .ok a) :
    (s.step (.build patterns)).1 = { s with matcher := s.matcher.publish a } ∧
      s.answer (.build patterns) = .ok .done := by
  simp only [answer, step, Matcher.build, h]
  trivial

theorem step_build_of_error {error : Error}
    (h : (build s.matcher.config patterns).result = .error error) :
    (s.step (.build patterns)).1 = s ∧ s.answer (.build patterns) = .error error := by
  simp only [answer, step, Matcher.build, h]
  trivial

theorem step_snapshot_of_some {p : Publication} (h : s.matcher.current = some p) (name : String) :
    s.step (.snapshot name) = (s.keep name p, { result := .ok .done }) := by
  rw [step, Matcher.snapshot, h, keep]

theorem step_snapshot_of_none (h : s.matcher.current = none) (name : String) :
    s.step (.snapshot name) = (s, { result := .error .notBuilt }) := by
  rw [step, Matcher.snapshot, h]

/-- What one command can do: it publishes what it builds, or it keeps what is current, or it leaves
the session as it was. -/
theorem step_cases (s : Session) (command : Command) :
    (∃ patterns a, command = .build patterns ∧
        (build s.matcher.config patterns).result = .ok a ∧
        (s.step command).1 = { s with matcher := s.matcher.publish a }) ∨
      (∃ name p, command = .snapshot name ∧ s.matcher.current = some p ∧
        (s.step command).1 = s.keep name p) ∨
      (command.built? s.matcher.config = none ∧ (s.step command).1 = s) := by
  cases command with
  | build patterns =>
    cases hresult : (build s.matcher.config patterns).result with
    | ok a => exact Or.inl ⟨patterns, a, rfl, hresult, (step_build_of_ok hresult).1⟩
    | error error =>
      have hnone : (Command.build patterns).built? s.matcher.config = none := by
        rw [Command.built?, hresult]
        rfl
      exact Or.inr (Or.inr ⟨hnone, (step_build_of_error hresult).1⟩)
  | snapshot name =>
    cases hcurrent : s.matcher.current with
    | none => exact Or.inr (Or.inr ⟨rfl, congrArg Prod.fst (step_snapshot_of_none hcurrent name)⟩)
    | some p =>
      exact Or.inr (Or.inl
        ⟨name, p, rfl, rfl, congrArg Prod.fst (step_snapshot_of_some hcurrent name)⟩)
  -- these two look for a snapshot first, and change nothing whether or not there is one
  | locateIn name text => exact Or.inr (Or.inr ⟨rfl, by rw [step]; split <;> rfl⟩)
  | isCurrent name => exact Or.inr (Or.inr ⟨rfl, by rw [step]; split <;> rfl⟩)
  | _ => exact Or.inr (Or.inr ⟨rfl, rfl⟩)

/-- One command publishes what it builds, and does nothing else to the matcher. -/
theorem matcher_step (s : Session) (command : Command) :
    (s.step command).1.matcher
      = (command.built? s.matcher.config).toList.foldl Matcher.publish s.matcher := by
  rcases step_cases s command with
    ⟨patterns, a, rfl, hok, hstep⟩ | ⟨name, p, rfl, -, hstep⟩ | ⟨hnone, hstep⟩
  · rw [hstep, Command.built?_build_of_ok hok]
    rfl
  · rw [hstep]
    rfl
  · rw [hstep, hnone]
    rfl

theorem config_foldl_publish (m : Matcher) (automata : List Automaton) :
    (automata.foldl Matcher.publish m).config = m.config := by
  induction automata generalizing m with
  | nil => rfl
  | cons a automata ih => exact ih (m.publish a)

theorem run_cons (s : Session) (command : Command) (commands : List Command) :
    s.run (command :: commands)
      = (((s.step command).1.run commands).1,
          (s.step command).2 :: ((s.step command).1.run commands).2) := rfl

theorem run_append (s : Session) (before after : List Command) :
    s.run (before ++ after)
      = (((s.run before).1.run after).1, (s.run before).2 ++ ((s.run before).1.run after).2) := by
  induction before generalizing s with
  | nil => rfl
  | cons command before ih => rw [List.cons_append, run_cons, ih, run_cons]; rfl

theorem matcher_run (s : Session) (commands : List Command) :
    (s.run commands).1.matcher
      = (builtBy s.matcher.config commands).foldl Matcher.publish s.matcher := by
  induction commands generalizing s with
  | nil => rfl
  | cons command commands ih =>
    have hconfig : (s.step command).1.matcher.config = s.matcher.config := by
      rw [matcher_step, config_foldl_publish]
    rw [run_cons, ih, hconfig, matcher_step, builtBy_cons, List.foldl_append]

/-- The matcher of a session is determined by what its history has built. -/
theorem matcher_reached (c : Config) (history : List Command) :
    (reached c history).matcher = .ofBuilt c (builtBy c history) := by
  rw [reached, matcher_run]
  exact Matcher.foldl_publish_ofBuilt c [] (builtBy c history)

theorem reached_append (c : Config) (before after : List Command) :
    reached c (before ++ after) = ((reached c before).run after).1 := by
  rw [reached, run_append, reached]

/-! ## Answers -/

/-- The answer about a hit whose pattern is wanted as text. -/
def spelling (hit : Hit) (bytes : Bytes) : Except Error Answer :=
  match bytes.text? with
  | some spelled => .ok (.text (some spelled))
  | none => .error (.invalidUtf8 hit.pattern)

/-- Nothing that needs an automaton is answered. -/
structure Unbuilt (s : Session) : Prop where
  find : ∀ text, s.answer (.find text) = .error .notBuilt
  findText : ∀ text, s.answer (.findText text) = .error .notBuilt
  locate : ∀ text, s.answer (.locate text) = .error .notBuilt
  isMatch : ∀ text, s.answer (.isMatch text) = .error .notBuilt
  inspect : s.answer .inspect = .error .notBuilt
  snapshot : ∀ name, s.answer (.snapshot name) = .error .notBuilt

/-- The automaton `a` answers every text, and the session answers all questions with what `a`
answers. -/
structure AnswersAs (s : Session) (a : Automaton) : Prop where
  find : ∀ text, ∃ found, a.findPattern text = .ok found ∧
    s.answer (.find text) = .ok (.bytes found)
  findText : ∀ text,
    (a.find text = .ok none ∧ s.answer (.findText text) = .ok (.text none)) ∨
      ∃ hit bytes, a.find text = .ok (some hit) ∧ a.pattern hit.pattern = .ok bytes ∧
        s.answer (.findText text) = spelling hit bytes
  locate : ∀ text, ∃ found, a.find text = .ok found ∧ s.answer (.locate text) = .ok (.hit found)
  isMatch : ∀ text, ∃ found, a.isMatch text = .ok found ∧
    s.answer (.isMatch text) = .ok (.truth found)
  inspect : s.answer .inspect = .ok (.automaton a)
  snapshot : ∀ name, s.answer (.snapshot name) = .ok .done

theorem answer_build_eq_error_iff {error : Error} :
    s.answer (.build patterns) = .error error ↔
      (build s.matcher.config patterns).result = .error error := by
  cases hresult : (build s.matcher.config patterns).result with
  | ok a =>
    rw [(step_build_of_ok hresult).2]
    exact ⟨nofun, nofun⟩
  | error other =>
    rw [(step_build_of_error hresult).2]
    constructor <;> rintro ⟨⟩ <;> rfl

theorem unbuilt_of_current (h : s.matcher.current = none) : s.Unbuilt := by
  have hsnapshot : s.matcher.snapshot = .error .notBuilt := by rw [Matcher.snapshot, h]
  have hask {α : Type} (question : Automaton → Checked α) :
      s.matcher.ask question = .error .notBuilt := by rw [Matcher.ask, hsnapshot]; rfl
  constructor
  case find => intro text; rw [answer, step, Matcher.find, hask]; rfl
  case findText => intro text; rw [answer, step, Matcher.findText, Matcher.locate, hask]; rfl
  case locate => intro text; rw [answer, step, Matcher.locate, hask]; rfl
  case isMatch => intro text; rw [answer, step, Matcher.isMatch, hask]; rfl
  case inspect => rw [answer, step, hsnapshot]; rfl
  case snapshot => intro name; rw [answer, step_snapshot_of_none h]

theorem ask_of_current {α : Type} {m : Matcher} {p : Publication}
    {question : Automaton → Checked α} {found : α} (h : m.current = some p)
    (hfound : question p.automaton = .ok found) : m.ask question = .ok found := by
  rw [Matcher.ask, Matcher.snapshot, h, ok_bind, hfound]
  rfl

theorem answersAs_of_current {p : Publication} (h : s.matcher.current = some p)
    (hbuilt : (build c patterns).result = .ok p.automaton) : s.AnswersAs p.automaton := by
  have hsnapshot : s.matcher.snapshot = .ok p := by rw [Matcher.snapshot, h]
  constructor
  case find =>
    intro text
    obtain ⟨found, hfound⟩ := Automaton.exists_findPattern_build hbuilt text
    refine ⟨found, hfound, ?_⟩
    rw [answer, step, Matcher.find, ask_of_current h hfound]
    rfl
  case findText =>
    intro text
    rcases Automaton.find_build hbuilt text with hnone | ⟨hit, bytes, hhit, hbytes⟩
    · refine Or.inl ⟨hnone, ?_⟩
      rw [answer, step, Matcher.findText, Matcher.locate, ask_of_current h hnone]
      rfl
    · refine Or.inr ⟨hit, bytes, hhit, hbytes, ?_⟩
      -- the current automaton is asked twice, first for the hit and then for its pattern
      rw [answer, step, Matcher.findText, Matcher.locate, ask_of_current h hhit, ok_bind]
      dsimp only
      rw [ask_of_current h hbytes, ok_bind, spelling]
      cases bytes.text? <;> rfl
  case locate =>
    intro text
    obtain ⟨found, hfound⟩ := Automaton.exists_find_build hbuilt text
    refine ⟨found, hfound, ?_⟩
    rw [answer, step, Matcher.locate, ask_of_current h hfound]
    rfl
  case isMatch =>
    intro text
    obtain ⟨found, hfound⟩ := Automaton.exists_find_build hbuilt text
    have hmatch := Automaton.isMatch_of_find hfound
    refine ⟨found.isSome, hmatch, ?_⟩
    rw [answer, step, Matcher.isMatch, ask_of_current h hmatch]
    rfl
  case inspect => rw [answer, step, hsnapshot]; rfl
  case snapshot => intro name; rw [answer, step_snapshot_of_some h]

/-! ## Sessions after a history -/

theorem current_reached_of_lastBuilt (h : LastBuilt c history a) :
    (reached c history).matcher.current
      = some { serial := (builtBy c history).length - 1, automaton := a } := by
  rw [matcher_reached, Matcher.ofBuilt, getLast?_builtBy_eq_some_iff.mpr h, Option.map_some]

theorem current_reached_of_barren (h : Barren c history) :
    (reached c history).matcher.current = none := by
  rw [matcher_reached, builtBy_eq_nil_iff.mpr h]
  rfl

theorem answersAs_reached (h : LastBuilt c history a) : (reached c history).AnswersAs a := by
  obtain ⟨-, patterns, -, -, hbuilt, -⟩ := id h
  exact answersAs_of_current (current_reached_of_lastBuilt h) hbuilt

theorem isBuilt_reached_iff :
    (reached c history).matcher.isBuilt = true ↔ builtBy c history ≠ [] := by
  rw [matcher_reached, Matcher.isBuilt, Matcher.ofBuilt, Option.isSome_map, List.getLast?_isSome]

theorem answer_isBuilt_eq_true_iff :
    (reached c history).answer .isBuilt = .ok (.truth true) ↔ builtBy c history ≠ [] := by
  rw [← isBuilt_reached_iff, answer, step]
  dsimp only
  rw [Except.ok.injEq, Answer.truth.injEq]

/-- **A session answers as its last successful build.** Whether there is one shows from the first
such build on. A build fails as it fails on its own, and then changes nothing. Before the first
successful build nothing is answered; and then every question is answered as the automaton of the
last successful build answers it, whatever failed or was asked in between. -/
theorem reached_answers (c : Config) (history : List Command) :
    (∃ built, (reached c history).answer .isBuilt = .ok (.truth built) ∧
        (built = true ↔
          ∃ patterns a, .build patterns ∈ history ∧ (build c patterns).result = .ok a)) ∧
      ((reached c history).answer .isBuilt = .ok (.truth true) →
        ∀ later, (reached c (history ++ later)).answer .isBuilt = .ok (.truth true)) ∧
      (∀ patterns error,
        ((reached c history).answer (.build patterns) = .error error ↔
          (build c patterns).result = .error error) ∧
        ((build c patterns).result = .error error →
          ((reached c history).step (.build patterns)).1 = reached c history)) ∧
      (Barren c history → (reached c history).Unbuilt) ∧
      (∀ a, LastBuilt c history a → (reached c history).AnswersAs a) ∧
      (Barren c history ∨ ∃ a, LastBuilt c history a) := by
  have hconfig : (reached c history).matcher.config = c := by
    rw [matcher_reached, Matcher.ofBuilt]
  refine ⟨⟨_, rfl, ?_⟩, fun h later ↦ ?_, fun patterns error ↦ ⟨?_, ?_⟩,
    fun h ↦ unbuilt_of_current (current_reached_of_barren h), fun a ↦ answersAs_reached,
    barren_or_lastBuilt c history⟩
  · rw [isBuilt_reached_iff, builtBy_ne_nil_iff]
  · rw [answer_isBuilt_eq_true_iff] at h ⊢
    rw [builtBy_append]
    exact List.append_ne_nil_of_left_ne_nil h _
  · rw [answer_build_eq_error_iff, hconfig]
  · exact fun h ↦ (step_build_of_error (by rw [hconfig, h])).1

/-- Three states at most. -/
def scant : Config := { maxStates := some 3 }

/-- A build that needs three states, and one that would need four. -/
def refusedRebuild : List Command :=
  [.build [[97, 98]], .find [97], .build [[97, 98], [99]], .isBuilt]

theorem reached_answers_refusedRebuild :
    (reached scant refusedRebuild).answer .isBuilt = .ok (.truth true) ∧
      (reached scant refusedRebuild).answer (.build [[97, 98], [99]])
        = .error (.stateLimitExceeded 3) ∧
      ∃ a, (build scant [[97, 98]]).result = .ok a ∧ (reached scant refusedRebuild).AnswersAs a ∧
        (reached scant refusedRebuild).answer (.locate [99, 97, 98])
          = .ok (.hit (some ⟨0, 1, 3⟩)) := by
  obtain ⟨⟨built, hbuilt, hiff⟩, -, hbuild, -, hanswers, -⟩ :=
    reached_answers scant refusedRebuild
  have hok : (build scant [[97, 98]]).result = .ok (.ofLiveStrings scant [[97, 98]]) :=
    build_of_ofPatterns rfl
  have hrefused : (build scant [[97, 98], [99]]).result = .error (.stateLimitExceeded 3) := rfl
  have hlast : LastBuilt scant refusedRebuild (.ofLiveStrings scant [[97, 98]]) := by
    refine ⟨[], [[97, 98]], _, rfl, hok, fun patterns hmem ↦ ⟨.stateLimitExceeded 3, ?_⟩⟩
    obtain rfl : patterns = [[97, 98], [99]] := by simpa using hmem
    exact hrefused
  obtain rfl : built = true := hiff.mpr ⟨[[97, 98]], _, List.mem_cons_self, hok⟩
  refine ⟨hbuilt, (hbuild _ _).1.mpr hrefused, _, hok, hanswers _ hlast, ?_⟩
  obtain ⟨found, hfound, hlocate⟩ := (hanswers _ hlast).locate [99, 97, 98]
  rw [Automaton.find_ofLiveStrings (build_eq_ok_iff.mp hok).2.1] at hfound
  obtain rfl := Except.ok.inj hfound
  exact hlocate

end Session

end FirstHit
