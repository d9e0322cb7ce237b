import FirstHit.Automaton.Scan
import FirstHit.Build

/-!
# Matchers

A matcher holds the automaton of the last build that succeeded, and answers scans with it. A build
that fails leaves it as it was, so from its first successful build on a matcher can always answer.

What a build publishes is a new object even if it equals the object it replaces. Each publication
therefore gets a serial number that the matcher has not used before, and two publications of one
matcher are the same object exactly when their serial numbers agree. Automata are values: whoever
keeps a publication keeps the automaton as it was published.
-/

namespace FirstHit

/-- The text that a byte string encodes in UTF-8, if it is well-formed. -/
def Bytes.text? (bytes : Bytes) : Option String :=
  String.fromUTF8? ⟨bytes.toArray⟩

/-- An automaton that became current, with the number of its publication. -/
structure Publication where
  /-- How many automata were published before. -/
  serial : Nat
  /-- What was published. -/
  automaton : Automaton
deriving DecidableEq

namespace Publication

/-- Whether two publications of one matcher are the same object. -/
def same (p q : Publication) : Bool := p.serial == q.serial

end Publication

/-- A configuration for builds, and the automaton of the last one that succeeded. -/
structure Matcher where
  /-- What builds may use. -/
  config : Config := {}
  /-- The automaton that scans use. -/
  current : Option Publication := none
  /-- The number of automata published so far. -/
  published : Nat := 0
deriving DecidableEq

namespace Matcher

/-- A matcher before its first build. -/
def ofConfig (config : Config) : Matcher := { config }

/-- Whether a build has succeeded. -/
def isBuilt (m : Matcher) : Bool := m.current.isSome

/-! ## Building -/

/-- What a build of a matcher comes to. -/
structure Rebuild where
  /-- The matcher afterwards. -/
  matcher : Matcher
  /-- Success, or what the caller is told. -/
  result : Except Error Unit
  /-- What is reported, in order. -/
  log : List LogRecord

/-- Makes `a` current. -/
def publish (m : Matcher) (a : Automaton) : Matcher :=
  { m with
    current := some { serial := m.published, automaton := a }
    published := m.published + 1 }

/-- Builds an automaton for a list of patterns and makes it current. If the build fails, the matcher
stays as it is. -/
def build (m : Matcher) (patterns : List Bytes) : Rebuild :=
  let outcome := FirstHit.build m.config patterns
  match outcome.result with
  | .ok a =>
    { matcher := m.publish a, result := .ok (), log := outcome.log ++ [.published m.isBuilt] }
  | .error error => { matcher := m, result := .error error, log := outcome.log }

/-! ## Asking -/

/-- The current publication. -/
def snapshot (m : Matcher) : Except Error Publication :=
  match m.current with
  | some p => .ok p
  | none => .error .notBuilt

/-- What the current automaton answers to a question. -/
def ask {α : Type} (m : Matcher) (question : Automaton → Checked α) : Except Error α := do
  let p ← m.snapshot
  (question p.automaton).mapError .fault

/-- The first hit in a text. -/
def locate (m : Matcher) (text : Bytes) : Except Error (Option Hit) := m.ask (·.find text)

/-- The bytes of the first pattern hit in a text. -/
def find (m : Matcher) (text : Bytes) : Except Error (Option Bytes) := m.ask (·.findPattern text)

/-- Whether any pattern is hit in a text. -/
def isMatch (m : Matcher) (text : Bytes) : Except Error Bool := m.ask (·.isMatch text)

/-- The first pattern hit in a text, as text. -/
def findText (m : Matcher) (text : Bytes) : Except Error (Option String) := do
  match ← m.locate text with
  | none => .ok none
  | some hit =>
    let pattern ← m.ask (·.pattern hit.pattern)
    match pattern.text? with
    | some spelled => .ok (some spelled)
    | none => .error (.invalidUtf8 hit.pattern)

end Matcher

end FirstHit
