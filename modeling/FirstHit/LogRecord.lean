/-!
# What a build reports

A build that succeeds and a publication of its result are worth a debugging record each; a build
that is refused for a limit is worth a warning. A record holds the figures, and its text is
derived from them, so a statement about the log is a statement about figures.
-/

namespace FirstHit

/-- How much attention a record asks for. -/
inductive LogLevel where
  | debug
  | warn
deriving DecidableEq

namespace LogLevel

/-- The name of a level. -/
def name : LogLevel → String
  | debug => "DEBUG"
  | warn => "WARN"

end LogLevel

/-- One event that is worth reporting. -/
inductive LogRecord where
  /-- An automaton was built. -/
  | built (patterns states : Nat)
  /-- An automaton became current, in the place of an earlier one or not. -/
  | published (replaced : Bool)
  /-- A pattern has more bytes than the configuration allows. -/
  | rejectedLength (index length : Nat) (limit : UInt64)
  /-- The trie has as many states as the configuration allows, and needs one more. -/
  | rejectedStates (limit : UInt64)
deriving DecidableEq

namespace LogRecord

/-- Refusals are warnings, all else is for debugging. -/
def level : LogRecord → LogLevel
  | built _ _ => .debug
  | published _ => .debug
  | rejectedLength _ _ _ => .warn
  | rejectedStates _ => .warn

/-- The sentence that reports an event. -/
def text : LogRecord → String
  | built patterns states =>
    "Built automaton: " ++ toString patterns ++ " patterns, " ++ toString states ++ " states"
  | published replaced =>
    "Automaton published (replaced previous: " ++ toString replaced ++ ")"
  | rejectedLength index length limit =>
    "Automaton build rejected: pattern " ++ toString index ++ " is " ++ toString length ++
      " bytes (limit " ++ toString limit.toNat ++ ")"
  | rejectedStates limit =>
    "Automaton build rejected: state limit " ++ toString limit.toNat ++ " reached"

end LogRecord

end FirstHit
