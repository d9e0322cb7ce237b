import FirstHit.Automaton.Table

/-!
# Building an automaton

A build inserts the patterns into a trie, sets the failure links, and fills the transition table.
Only the insertion can exceed a limit of the configuration. A table with more entries than a machine
word can count is refused; with 32-bit state identifiers no trie is that large.

A build has no effect but its report. It either makes an automaton and reports one record, or is
refused and reports what the refusal carries.
-/

namespace FirstHit

/-- What a build comes to. -/
structure Outcome where
  /-- The automaton, or what the caller is told instead. -/
  result : Except Error Automaton
  /-- What is reported, in order. -/
  log : List LogRecord

/-- Lets a table of `entries` entries be made, unless a machine word cannot count them. -/
def admitTable (entries : Nat) : Building Unit :=
  if entries < UInt64.size then .ok ()
  else .error { error := .allocationFailed "transition table too large" }

/-- Links a trie and turns it into an automaton for `patterns`. -/
def Trie.compile (c : Config) (patterns : List Bytes) (t : Trie) : Building Automaton := do
  let linked ← Building.ofChecked (t.link c.inheritSuffixMatches)
  admitTable (t.size * Byte.count)
  let table ← Building.ofChecked linked.table
  Building.ofChecked (Automaton.ofParts linked.states table patterns.toArray c.prefilter)

/-- The automaton for a list of patterns, or why there is none. The id of a pattern is its position
in the list. -/
def Config.compile (c : Config) (patterns : List Bytes) : Building Automaton := do
  let trie ← Trie.ofPatterns c patterns
  trie.compile c patterns

/-- Builds an automaton for a list of patterns, and reports on it. -/
def build (c : Config) (patterns : List Bytes) : Outcome :=
  match c.compile patterns with
  | .ok a => { result := .ok a, log := [.built a.patternCount a.stateCount] }
  | .error refusal => { result := .error refusal.error, log := refusal.log }

end FirstHit
