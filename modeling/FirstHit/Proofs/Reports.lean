import FirstHit.Proofs.Histories
import FirstHit.Proofs.Limits

/-!
# What a session reports

The report of a step can be told from what came of it (`Session.Accounts`). A build that succeeds is
reported twice, once when the automaton is made and once when it becomes current. A build that is
refused is reported once, with the figures that its error carries. Nothing else is worth a record.

The records of a refusal come from inside the insertion, from the pattern or the node that is not
let in, and they travel with the error (`Refusal.Announced`). Running out of identifiers is the one
refusal that is not announced, so what is said here is about patterns for which identifiers suffice.
-/

namespace FirstHit

variable {c : Config} {patterns : List Bytes} {before history : List Command} {command : Command}
  {refusal : Refusal} {k n : Nat} {p : Bytes}

/-! ## Builds -/

theorem build_of_admitAll_eq_ok (hfits : (livePaths patterns).length ≤ StateId.capacity)
    (h : c.admitAll patterns = .ok ()) :
    build c patterns
      = { result := .ok (Automaton.ofLiveStrings c patterns)
          log := [.built patterns.length (Automaton.ofLiveStrings c patterns).stateCount] } := by
  rw [build, Config.compile_eq hfits, h]
  rfl

theorem build_of_admitAll_eq_error (hfits : (livePaths patterns).length ≤ StateId.capacity)
    (h : c.admitAll patterns = .error refusal) :
    build c patterns = { result := .error refusal.error, log := refusal.log } := by
  rw [build, Config.compile_eq hfits, h]
  rfl

/-! ## Steps -/

/-- A record as it is printed: the name of its level, and its text. -/
def LogRecord.line (r : LogRecord) : String × String := (r.level.name, r.text)

theorem lines_published (patterns states : Nat) (replaced : Bool) :
    ([LogRecord.built patterns states] ++ [LogRecord.published replaced]).map LogRecord.line
      = [("DEBUG", "Built automaton: " ++ toString patterns ++ " patterns, " ++ toString states ++
          " states"),
        ("DEBUG", "Automaton published (replaced previous: " ++ toString replaced ++ ")")] := rfl

namespace Session

/-- What was printed on the way to the answer to a command, after the commands in `before`. -/
inductive Accounts (c : Config) (before : List Command) :
    Command → Except Error Answer → List (String × String) → Prop
  /-- A build that succeeds is reported with the number of patterns given and the number of states
  of the automaton that is now current, and then with whether a build before has succeeded. -/
  | built {patterns : List Bytes} {a : Automaton} {replaced : Bool}
      (hbuilt : (build c patterns).result = .ok a)
      (hcurrent : (reached c (before ++ [.build patterns])).answer .inspect = .ok (.automaton a))
      (hreplaced : replaced = true ↔
        ∃ earlier b, .build earlier ∈ before ∧ (build c earlier).result = .ok b) :
    Accounts c before (.build patterns) (.ok .done)
      [("DEBUG", "Built automaton: " ++ toString patterns.length ++ " patterns, " ++
          toString a.stateCount ++ " states"),
        ("DEBUG", "Automaton published (replaced previous: " ++ toString replaced ++ ")")]
  /-- A build that would need too many states is reported with the limit of its error. -/
  | crowded {patterns : List Bytes} {limit : UInt64} :
    Accounts c before (.build patterns) (.error (.stateLimitExceeded limit))
      [("WARN", "Automaton build rejected: state limit " ++ toString limit.toNat ++ " reached")]
  /-- A build with a pattern that is too long is reported with the figures of its error. -/
  | long {patterns : List Bytes} {index length : Nat} {limit : UInt64} :
    Accounts c before (.build patterns) (.error (.patternTooLong index length limit))
      [("WARN", "Automaton build rejected: pattern " ++ toString index ++ " is " ++
          toString length ++ " bytes (limit " ++ toString limit.toNat ++ ")")]
  /-- Of anything but a build there is no report. -/
  | asked {command : Command} {answer : Except Error Answer}
      (hquestion : ∀ patterns, command ≠ .build patterns) :
    Accounts c before command answer []

theorem step_build_reply_of_ok {s : Session} {a : Automaton} {log : List LogRecord}
    (h : build s.matcher.config patterns = { result := .ok a, log }) :
    (s.step (.build patterns)).2
      = { result := .ok .done, log := log ++ [.published s.matcher.isBuilt] } := by
  rw [step, Matcher.build, h]
  rfl

theorem step_build_reply_of_error {s : Session} {error : Error} {log : List LogRecord}
    (h : build s.matcher.config patterns = { result := .error error, log }) :
    (s.step (.build patterns)).2 = { result := .error error, log } := by
  rw [step, Matcher.build, h]
  rfl

theorem log_step_of_ne_build (s : Session) (h : ∀ patterns, command ≠ .build patterns) :
    (s.step command).2.log = [] := by
  cases command with
  | build patterns => exact absurd rfl (h patterns)
  | snapshot name => rw [step]; split <;> rfl
  | locateIn name text => rw [step]; split <;> rfl
  | isCurrent name => rw [step]; split <;> rfl
  | _ => rfl

theorem config_reached (c : Config) (history : List Command) :
    (reached c history).matcher.config = c := by
  rw [matcher_reached, Matcher.ofBuilt]

/-- **One step.** What it prints accounts for what came of it. -/
theorem accounts_step
    (hfits : ∀ patterns, command = .build patterns → prefixCount patterns ≤ StateId.capacity) :
    Accounts c before command ((reached c before).step command).2.result
      (((reached c before).step command).2.log.map LogRecord.line) := by
  by_cases hquestion : ∀ patterns, command ≠ .build patterns
  · rw [log_step_of_ne_build _ hquestion]
    exact .asked hquestion
  · obtain ⟨patterns, hbuild⟩ := not_forall.mp hquestion
    obtain rfl := not_not.mp hbuild
    have hlive : (livePaths patterns).length ≤ StateId.capacity :=
      (length_livePaths patterns).trans_le (hfits patterns rfl)
    have hconfig := config_reached c before
    cases hadmit : c.admitAll patterns with
    | ok admitted =>
      have hbuild := build_of_admitAll_eq_ok hlive hadmit
      rw [step_build_reply_of_ok (by rw [hconfig, hbuild])]
      have hresult : (build c patterns).result = .ok (Automaton.ofLiveStrings c patterns) := by
        rw [hbuild]
      have hlast : LastBuilt c (before ++ [.build patterns]) (Automaton.ofLiveStrings c patterns) :=
        ⟨before, patterns, [], rfl, hresult, fun _ hmem ↦ absurd hmem List.not_mem_nil⟩
      have hlines := lines_published patterns.length
        (Automaton.ofLiveStrings c patterns).stateCount (reached c before).matcher.isBuilt
      rw [hlines]
      exact .built hresult (answersAs_reached hlast).inspect
        (isBuilt_reached_iff.trans builtBy_ne_nil_iff)
    | error refusal =>
      have hbuild := build_of_admitAll_eq_error hlive hadmit
      rw [step_build_reply_of_error (by rw [hconfig, hbuild])]
      cases Config.announced_of_admitAll hadmit with
      | states limit => exact .crowded
      | length index length limit => exact .long

/-! ## Runs -/

/-- What the commands of a run are answered, each where the commands before it have led. -/
theorem getElem?_replies (c : Config) (history : List Command) (i : Nat) :
    ((ofConfig c).run history).2[i]?
      = history[i]?.map fun command ↦ ((reached c (history.take i)).step command).2 := by
  suffices h : ∀ s : Session, (s.run history).2[i]?
      = history[i]?.map fun command ↦ ((s.run (history.take i)).1.step command).2 from h _
  induction history generalizing i with
  | nil => exact fun _ ↦ rfl
  | cons command history ih =>
    intro s
    rw [run_cons]
    cases i with
    | zero => rfl
    | succ i =>
      rw [List.getElem?_cons_succ, List.getElem?_cons_succ, ih, List.take_succ_cons, run_cons]

theorem length_replies (s : Session) (history : List Command) :
    (s.run history).2.length = history.length := by
  induction history generalizing s with
  | nil => rfl
  | cons command history ih => rw [run_cons, List.length_cons, List.length_cons, ih]

/-- **The log of a run matches its outcomes.** Every command of a history is answered, and what is
printed on the way accounts for the answer: two lines for a build that succeeds, with the numbers of
patterns and states and with whether there was an automaton before; one warning for a build that is
refused, with the figures of the error; and nothing for anything else. -/
theorem run_accounts (c : Config) (history : List Command)
    (hfits : ∀ patterns, .build patterns ∈ history → prefixCount patterns ≤ StateId.capacity) :
    ((ofConfig c).run history).2.length = history.length ∧
      ∀ i command, history[i]? = some command →
        ∃ reply, ((ofConfig c).run history).2[i]? = some reply ∧
          Accounts c (history.take i) command reply.result (reply.log.map LogRecord.line) := by
  refine ⟨length_replies _ history, fun i command hcommand ↦ ?_⟩
  rw [getElem?_replies, hcommand, Option.map_some]
  refine ⟨_, rfl, accounts_step fun patterns hbuild ↦ hfits patterns ?_⟩
  exact hbuild ▸ List.mem_of_getElem? hcommand

/-- A history in which the second build replaces what the first one made, and the third one is
refused. -/
def threeBuilds : List Command :=
  [.build [[97, 98]], .build [[97], []], .find [97], .build [[97, 98], [99]]]

theorem run_accounts_threeBuilds :
    (∃ reply, ((ofConfig scant).run threeBuilds).2[1]? = some reply ∧
        reply.result = .ok .done ∧
        reply.log.map LogRecord.line
          = [("DEBUG", "Built automaton: 2 patterns, 2 states"),
            ("DEBUG", "Automaton published (replaced previous: true)")]) ∧
      ∃ reply, ((ofConfig scant).run threeBuilds).2[3]? = some reply ∧
        reply.result = .error (.stateLimitExceeded 3) ∧
        reply.log.map LogRecord.line
          = [("WARN", "Automaton build rejected: state limit 3 reached")] := by
  have hfits : ∀ command ∈ threeBuilds, ∀ patterns, command = .build patterns →
      prefixCount patterns ≤ StateId.capacity := by
    rw [threeBuilds]
    simp only [List.forall_mem_cons, List.not_mem_nil, Command.build.injEq, forall_eq',
      reduceCtorEq, false_imp_iff, implies_true, and_true, true_and]
    decide
  obtain ⟨-, hreplies⟩ := run_accounts scant threeBuilds fun _ hmem ↦ hfits _ hmem _ rfl
  constructor
  · obtain ⟨reply, hreply, haccounts⟩ := hreplies 1 _ rfl
    have hresult : reply.result = .ok .done := by
      rw [getElem?_replies] at hreply
      obtain rfl := Option.some_inj.mp hreply
      exact (step_build_of_ok (by rw [config_reached]; exact build_of_ofPatterns rfl)).2
    rw [hresult] at haccounts
    refine ⟨reply, hreply, hresult, ?_⟩
    generalize reply.log.map LogRecord.line = lines at haccounts
    cases haccounts with
    | built hbuilt hcurrent hreplaced =>
      obtain rfl := Except.ok.inj (hbuilt.symm.trans (build_of_ofPatterns rfl))
      rw [hreplaced.mpr ⟨[[97, 98]], _, List.mem_cons_self, build_of_ofPatterns rfl⟩]
      rfl
    | asked hquestion => exact absurd rfl (hquestion _)
  · obtain ⟨reply, hreply, haccounts⟩ := hreplies 3 _ rfl
    have hresult : reply.result = .error (.stateLimitExceeded 3) := by
      rw [getElem?_replies] at hreply
      obtain rfl := Option.some_inj.mp hreply
      exact answer_build_eq_error_iff.mpr (by rw [config_reached]; rfl)
    rw [hresult] at haccounts
    refine ⟨reply, hreply, hresult, ?_⟩
    generalize reply.log.map LogRecord.line = lines at haccounts
    cases haccounts with
    | crowded => rfl
    | asked hquestion => exact absurd rfl (hquestion _)

end Session

end FirstHit
