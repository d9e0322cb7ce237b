import FirstHit.Byte

/-!
# Build configuration

Two limits and two switches. A limit that is absent does not bound anything; a limit that is
present is a 64-bit word, because it bounds counts that are machine words.

The switch `inheritSuffixMatches` chooses between two readings of *the first hit*. Off, a state
accepts the patterns that its own path spells, so a pattern that ends inside a longer partial match
is passed over. On, a state also accepts the patterns that are proper suffixes of its path, and a
scan stops at the first position where any pattern ends. The switch `prefilter` only concerns
speed.
-/

namespace FirstHit

/-- What a build may use, and which automaton it makes. -/
structure Config where
  /-- The greatest number of states, the root included. -/
  maxStates : Option UInt64 := none
  /-- The greatest number of bytes in a pattern. -/
  maxPatternLength : Option UInt64 := none
  /-- Whether a state also accepts the patterns of the states its failure links lead to. -/
  inheritSuffixMatches : Bool := false
  /-- Whether a scan may jump over bytes that cannot leave the root. -/
  prefilter : Bool := true
deriving DecidableEq

namespace Config

/-- The configuration without limits, without inheritance and with the prefilter. -/
def default : Config := {}

/-- Bounds the number of states. -/
def withMaxStates (c : Config) (limit : UInt64) : Config :=
  { c with maxStates := some limit }

/-- Bounds the length of every pattern. -/
def withMaxPatternLength (c : Config) (limit : UInt64) : Config :=
  { c with maxPatternLength := some limit }

/-- Sets whether states inherit the patterns of their suffixes. -/
def withInheritSuffixMatches (c : Config) (yes : Bool) : Config :=
  { c with inheritSuffixMatches := yes }

/-- Sets whether a scan may jump. -/
def withPrefilter (c : Config) (yes : Bool) : Config :=
  { c with prefilter := yes }

end Config

end FirstHit
