import FirstHit.Proofs.Histories

/-!
# Snapshots

A snapshot keeps the current publication, and nothing that happens later reaches it: a step adds at
most one snapshot to those that are kept (`Session.snapshots_step`), so a run extends their list.

The number of a publication tells it from all others of its matcher. A publication that is or was
current is that of the automaton that was built as the one with its number (`Publication.Among`),
and a build that succeeds takes a number that is not in use. Equal numbers therefore mean the same
object, and equal automata do not.
-/

namespace FirstHit

variable {c : Config} {history before after commands : List Command} {command : Command}
  {automata more : List Automaton} {a : Automaton} {p q : Publication} {s : Session}
  {name : String} {patterns : List Bytes}

/-! ## Numbers of publications -/

namespace Publication

/-- It is the publication of one of these automata, if they were published in this order. -/
def Among (automata : List Automaton) (p : Publication) : Prop :=
  automata[p.serial]? = some p.automaton

theorem Among.serial_lt (h : p.Among automata) : p.serial < automata.length :=
  (List.getElem?_eq_some_iff.mp h).1

theorem Among.append (h : p.Among automata) (more : List Automaton) :
    p.Among (automata ++ more) := by
  rw [Among, List.getElem?_append_left h.serial_lt, h]

/-- Publications of one matcher are the same object if and only if they are equal. -/
theorem Among.same_iff_eq (hp : p.Among automata) (hq : q.Among automata) :
    p.same q = true ↔ p = q := by
  rw [same, beq_iff_eq]
  constructor
  · intro hserial
    rw [Among, hserial, hq] at hp
    obtain ⟨serial, automaton⟩ := p
    obtain rfl : serial = q.serial := hserial
    obtain rfl := Option.some_inj.mp hp
    rfl
  · rintro rfl
    rfl

end Publication

namespace Matcher

theorem among_of_current (h : (ofBuilt c automata).current = some p) : p.Among automata := by
  obtain ⟨a, hlast, rfl⟩ := Option.map_eq_some_iff.mp h
  rw [Publication.Among, ← List.getLast?_eq_getElem?, hlast]

/-- What is current stays the same object until something else is published. -/
theorem exists_current_append (h : (ofBuilt c automata).current = some p) (more : List Automaton) :
    ∃ q, (ofBuilt c (automata ++ more)).current = some q ∧ (p.same q = true ↔ more = []) := by
  rcases more.eq_nil_or_concat with rfl | ⟨others, a, rfl⟩
  · refine ⟨p, by rw [List.append_nil, h], ?_⟩
    rw [Publication.same, beq_iff_eq]
    exact iff_of_true rfl rfl
  · rw [List.concat_eq_append, ← List.append_assoc]
    refine ⟨{ serial := (automata ++ others).length, automaton := a }, ?_, ?_⟩
    · rw [ofBuilt, List.getLast?_concat, List.length_append]
      rfl
    · -- the numbers of what was published so far are all smaller
      have hlt := (among_of_current h).serial_lt
      have hle := (List.prefix_append automata others).length_le
      rw [Publication.same, beq_iff_eq]
      exact iff_of_false (by dsimp only; omega) (by simp)

end Matcher

/-! ## Steps and runs -/

namespace Session

/-- One command takes one snapshot, which is that of the current automaton, or none. -/
theorem snapshots_step (s : Session) (command : Command) :
    (s.step command).1.snapshots = s.snapshots ∨
      ∃ name p, command = .snapshot name ∧ s.matcher.current = some p ∧
        (s.step command).1.snapshots = (name, p) :: s.snapshots := by
  rcases step_cases s command with
    ⟨patterns, a, rfl, -, hstep⟩ | ⟨name, p, rfl, hcurrent, hstep⟩ | ⟨-, hstep⟩
  · exact Or.inl (by rw [hstep])
  · exact Or.inr ⟨name, p, rfl, hcurrent, by rw [hstep, keep]⟩
  · exact Or.inl (by rw [hstep])

theorem snapshots_suffix_run (s : Session) (commands : List Command) :
    s.snapshots <:+ (s.run commands).1.snapshots := by
  induction commands generalizing s with
  | nil => exact List.suffix_refl _
  | cons command commands ih =>
    rw [run_cons]
    refine List.IsSuffix.trans ?_ (ih (s.step command).1)
    rcases snapshots_step s command with hsame | ⟨name, p, -, -, hnew⟩
    · rw [hsame]
    · rw [hnew]
      exact List.suffix_cons _ _

theorem snapshot?_step (h : command ≠ .snapshot name) :
    (s.step command).1.snapshot? name = s.snapshot? name := by
  rcases snapshots_step s command with hsame | ⟨other, p, rfl, -, hnew⟩
  · rw [snapshot?, hsame, snapshot?]
  · have hne : (name == other) = false := beq_false_of_ne fun heq ↦ h (congrArg _ heq.symm)
    rw [snapshot?, hnew, List.lookup_cons, hne, snapshot?]

theorem snapshot?_run (h : .snapshot name ∉ commands) :
    (s.run commands).1.snapshot? name = s.snapshot? name := by
  induction commands generalizing s with
  | nil => rfl
  | cons command commands ih =>
    rw [List.mem_cons, not_or] at h
    rw [run_cons, ih h.2, snapshot?_step (Ne.symm h.1)]

/-! ## Snapshots and later builds -/

theorem answer_locateIn (h : s.snapshot? name = some p) {text : Bytes}
    {found : Option (Hit × Bytes)} (hfound : spelledHit p.automaton text = .ok found) :
    s.answer (.locateIn name text) = .ok (.spelledHit found) := by
  rw [answer, step, h]
  dsimp only
  rw [hfound]
  rfl

theorem answer_isCurrent (h : s.snapshot? name = some p) (hcurrent : s.matcher.current = some q) :
    s.answer (.isCurrent name) = .ok (.truth (p.same q)) := by
  rw [answer, step, h]
  dsimp only
  rw [Matcher.snapshot, hcurrent]
  rfl

theorem exists_spelledHit_build (h : (build c patterns).result = .ok a) (text : Bytes) :
    ∃ found, spelledHit a text = .ok found := by
  rcases Automaton.find_build h text with hnone | ⟨hit, bytes, hhit, hbytes⟩
  · exact ⟨none, by rw [spelledHit, hnone, ok_bind]⟩
  · refine ⟨some (hit, bytes), ?_⟩
    rw [spelledHit, hhit, ok_bind]
    dsimp only
    rw [hbytes, ok_bind]

theorem reached_append_snapshot (h : (reached c before).matcher.current = some p)
    (name : String) (after : List Command) :
    reached c (before ++ .snapshot name :: after)
      = (((reached c before).keep name p).run after).1 := by
  rw [reached_append, run_cons, step_snapshot_of_some h]

theorem snapshot?_reached (h : (reached c before).matcher.current = some p)
    (hafter : .snapshot name ∉ after) :
    (reached c (before ++ .snapshot name :: after)).snapshot? name = some p := by
  rw [reached_append_snapshot h, snapshot?_run hafter, snapshot?, keep, List.lookup_cons_self]

theorem exists_current_reached (h : (reached c before).matcher.current = some p)
    (name : String) (after : List Command) :
    ∃ q, (reached c (before ++ .snapshot name :: after)).matcher.current = some q ∧
      (p.same q = true ↔ Barren c after) ∧ (p.same q = true ↔ p = q) := by
  have hbuilt : builtBy c (before ++ .snapshot name :: after)
      = builtBy c before ++ builtBy c after := by
    rw [builtBy_append, builtBy_cons]
    rfl
  rw [matcher_reached] at h
  obtain ⟨q, hq, hsame⟩ := Matcher.exists_current_append h (builtBy c after)
  have hp := (Matcher.among_of_current h).append (builtBy c after)
  refine ⟨q, ?_, ?_, hp.same_iff_eq (Matcher.among_of_current hq)⟩
  · rw [matcher_reached, hbuilt, hq]
  · rw [hsame, builtBy_eq_nil_iff]

/-- **Snapshots are isolated from later builds.** Where nothing has been built, there is nothing to
keep, and the session stays as it is. Otherwise the snapshot is that of the last automaton built.
Whatever happens afterwards, it is kept and answers as that automaton, and the current automaton is
the same object exactly as long as no build succeeds. -/
theorem step_snapshot_reached (c : Config) (before : List Command) (name : String) :
    (Barren c before →
        (reached c before).step (.snapshot name)
          = (reached c before, { result := .error .notBuilt })) ∧
      ∀ a, LastBuilt c before a → ∃ p : Publication, p.automaton = a ∧
        (reached c before).step (.snapshot name)
          = ((reached c before).keep name p, { result := .ok .done }) ∧
        ∀ after,
          ((reached c before).keep name p).snapshots
              <:+ (reached c (before ++ .snapshot name :: after)).snapshots ∧
            (∃ q, (reached c (before ++ .snapshot name :: after)).matcher.current = some q ∧
              (p.same q = true ↔ Barren c after) ∧ (p.same q = true ↔ p = q)) ∧
            (.snapshot name ∉ after →
              (∀ text, ∃ found, spelledHit a text = .ok found ∧
                (reached c (before ++ .snapshot name :: after)).answer (.locateIn name text)
                  = .ok (.spelledHit found)) ∧
              ∃ current,
                (reached c (before ++ .snapshot name :: after)).answer (.isCurrent name)
                    = .ok (.truth current) ∧
                  (current = true ↔ Barren c after)) := by
  refine ⟨fun hbarren ↦ step_snapshot_of_none (current_reached_of_barren hbarren) name,
    fun a hlast ↦ ?_⟩
  have hcurrent := current_reached_of_lastBuilt hlast
  obtain ⟨-, patterns, -, -, hok, -⟩ := id hlast
  refine ⟨_, rfl, step_snapshot_of_some hcurrent name, fun after ↦ ?_⟩
  obtain ⟨q, hq, hsame, heq⟩ := exists_current_reached hcurrent name after
  refine ⟨?_, ⟨q, hq, hsame, heq⟩, fun hafter ↦ ⟨fun text ↦ ?_, _, ?_, hsame⟩⟩
  · rw [reached_append_snapshot hcurrent]
    exact snapshots_suffix_run _ after
  · obtain ⟨found, hfound⟩ := exists_spelledHit_build hok text
    exact ⟨found, hfound, answer_locateIn (snapshot?_reached hcurrent hafter) hfound⟩
  · exact answer_isCurrent (snapshot?_reached hcurrent hafter) hq

/-- A snapshot, and then the same build once more. -/
def rebuiltAlike (name : String) : List Command :=
  [.build [[97]]] ++ .snapshot name :: [.build [[97]]]

theorem step_snapshot_reached_rebuiltAlike :
    (reached .default []).step (.snapshot "kept")
        = (reached .default [], { result := .error .notBuilt }) ∧
      (reached .default (rebuiltAlike "kept")).answer (.isCurrent "kept") = .ok (.truth false) ∧
      (reached .default (rebuiltAlike "kept")).answer (.locateIn "kept" [98, 97])
        = .ok (.spelledHit (some (⟨0, 1, 2⟩, [97]))) := by
  have hok : (build .default [[97]]).result = .ok (.ofLiveStrings .default [[97]]) :=
    build_of_ofPatterns rfl
  have hlast : LastBuilt .default [.build [[97]]] (.ofLiveStrings .default [[97]]) :=
    ⟨[], [[97]], [], rfl, hok, nofun⟩
  obtain ⟨p, -, -, hafter⟩ := (step_snapshot_reached .default [.build [[97]]] "kept").2 _ hlast
  obtain ⟨-, -, hunused⟩ := hafter [.build [[97]]]
  obtain ⟨hlocate, current, hcurrent, hiff⟩ := hunused (by decide)
  refine ⟨(step_snapshot_reached .default [] "kept").1 nofun, ?_, ?_⟩
  · obtain rfl : current = false := by
      rw [Bool.eq_false_iff, Ne, hiff]
      intro hbarren
      obtain ⟨error, herror⟩ := hbarren [[97]] List.mem_cons_self
      rw [hok] at herror
      cases herror
    exact hcurrent
  · obtain ⟨found, hfound, hanswer⟩ := hlocate [98, 97]
    rw [spelledHit, Automaton.find_ofLiveStrings (build_eq_ok_iff.mp hok).2.1] at hfound
    obtain rfl := Except.ok.inj hfound
    exact hanswer

end Session

end FirstHit
