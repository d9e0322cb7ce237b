import FirstHit.Matcher

/-!
# Sessions

A session is a matcher together with the snapshots that its user has taken, each under a name. It
turns the life of a matcher into a list of commands, so that what holds of every history is a
statement about lists: builds that succeed and builds that fail, questions, and snapshots, in any
order and number.
-/

namespace FirstHit

/-- What a user of a matcher can do. -/
inductive Command where
  /-- Build an automaton for these patterns and make it current. -/
  | build (patterns : List Bytes)
  /-- Ask whether a build has succeeded. -/
  | isBuilt
  /-- Ask for the bytes of the first pattern hit. -/
  | find (text : Bytes)
  /-- Ask for the first pattern hit, as text. -/
  | findText (text : Bytes)
  /-- Ask for the first hit. -/
  | locate (text : Bytes)
  /-- Ask whether there is a hit. -/
  | isMatch (text : Bytes)
  /-- Ask for the current automaton itself. -/
  | inspect
  /-- Keep the current automaton under a name. -/
  | snapshot (name : String)
  /-- Ask a kept automaton for its first hit and the bytes hit. -/
  | locateIn (name : String) (text : Bytes)
  /-- Ask whether a kept automaton is the current one. -/
  | isCurrent (name : String)
deriving DecidableEq

/-- What a command answers when nothing fails. -/
inductive Answer where
  /-- What was asked for is done. -/
  | done
  /-- Yes or no. -/
  | truth (value : Bool)
  /-- The bytes of the first pattern hit. -/
  | bytes (found : Option Bytes)
  /-- The first pattern hit, as text. -/
  | text (found : Option String)
  /-- The first hit. -/
  | hit (found : Option Hit)
  /-- The first hit and the bytes hit. -/
  | spelledHit (found : Option (Hit × Bytes))
  /-- The current automaton. -/
  | automaton (current : Automaton)
  /-- No snapshot is kept under the name given. -/
  | noSnapshot
deriving DecidableEq

/-- The answer to a command, and what was reported on the way. -/
structure Reply where
  /-- The answer, or what the user is told instead. -/
  result : Except Error Answer
  /-- What is reported, in order. Only a build reports anything. -/
  log : List LogRecord := []

/-- A matcher and the snapshots taken of it. -/
structure Session where
  /-- The matcher. -/
  matcher : Matcher
  /-- The snapshots, the latest first. -/
  snapshots : List (String × Publication) := []
deriving DecidableEq

namespace Session

/-- A session with a matcher that has not built anything. -/
def ofConfig (config : Config) : Session := { matcher := .ofConfig config }

/-- The snapshot kept under a name. -/
def snapshot? (s : Session) (name : String) : Option Publication := s.snapshots.lookup name

/-- The first hit of an automaton in a text, with the bytes hit. -/
def spelledHit (a : Automaton) (text : Bytes) : Checked (Option (Hit × Bytes)) := do
  match ← a.find text with
  | none => .ok none
  | some hit => do
    let bytes ← a.pattern hit.pattern
    .ok (some (hit, bytes))

/-- Obeys one command. -/
def step (s : Session) : Command → Session × Reply
  | .build patterns =>
    let rebuild := s.matcher.build patterns
    ({ s with matcher := rebuild.matcher },
      { result := rebuild.result.map fun _ ↦ .done, log := rebuild.log })
  | .isBuilt => (s, { result := .ok (.truth s.matcher.isBuilt) })
  | .find text => (s, { result := (s.matcher.find text).map .bytes })
  | .findText text => (s, { result := (s.matcher.findText text).map .text })
  | .locate text => (s, { result := (s.matcher.locate text).map .hit })
  | .isMatch text => (s, { result := (s.matcher.isMatch text).map .truth })
  | .inspect => (s, { result := s.matcher.snapshot.map fun p ↦ .automaton p.automaton })
  | .snapshot name =>
    match s.matcher.snapshot with
    | .ok p => ({ s with snapshots := (name, p) :: s.snapshots }, { result := .ok .done })
    | .error error => (s, { result := .error error })
  | .locateIn name text =>
    match s.snapshot? name with
    | none => (s, { result := .ok .noSnapshot })
    | some p =>
      (s, { result := ((spelledHit p.automaton text).mapError .fault).map .spelledHit })
  | .isCurrent name =>
    match s.snapshot? name with
    | none => (s, { result := .ok .noSnapshot })
    | some p => (s, { result := s.matcher.snapshot.map fun q ↦ .truth (p.same q) })

/-- Obeys commands in turn. -/
def run (s : Session) : List Command → Session × List Reply
  | [] => (s, [])
  | command :: commands =>
    let (stepped, reply) := s.step command
    let (reached, replies) := run stepped commands
    (reached, reply :: replies)

end Session

end FirstHit
