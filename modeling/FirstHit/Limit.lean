import FirstHit.Config
import FirstHit.Error
import FirstHit.LogRecord

/-!
# Limits of a build

A build is refused at the first limit that it exceeds. A refusal carries the error that the caller
gets together with the records that announce it, because the error alone does not determine them:
running out of state identifiers is reported to the caller as a state limit, and announced to
nobody.
-/

namespace FirstHit

/-- Why a build stops, and what it reports before it does. -/
structure Refusal where
  /-- What the caller is told. -/
  error : Error
  /-- What is reported, in order. -/
  log : List LogRecord := []
deriving DecidableEq

/-- A step of a build. -/
abbrev Building (α : Type) := Except Refusal α

/-- A fault ends a build without a report. -/
def Building.ofChecked {α : Type} (step : Checked α) : Building α :=
  step.mapError fun cause ↦ { error := .fault cause }

@[simp] theorem Building.ofChecked_ok {α : Type} (a : α) :
    Building.ofChecked (.ok a : Checked α) = .ok a := rfl

@[simp] theorem Building.ofChecked_error {α : Type} (cause : Fault) :
    Building.ofChecked (.error cause : Checked α) = .error { error := .fault cause } := rfl

namespace Config

/-- Lets a pattern in unless it is longer than the configuration allows. -/
def admitPattern (c : Config) (index : Nat) (pattern : Bytes) : Building Unit :=
  match c.maxPatternLength with
  | none => .ok ()
  | some limit =>
    if limit.toNat < pattern.length then
      .error
        { error := .patternTooLong index pattern.length limit
          log := [.rejectedLength index pattern.length limit] }
    else .ok ()

/-- Lets a state in beside the `size` present ones, unless these are all that the configuration
allows. -/
def admitState (c : Config) (size : Nat) : Building Unit :=
  match c.maxStates with
  | none => .ok ()
  | some limit =>
    if limit.toNat ≤ size then
      .error { error := .stateLimitExceeded limit, log := [.rejectedStates limit] }
    else .ok ()

end Config

end FirstHit
