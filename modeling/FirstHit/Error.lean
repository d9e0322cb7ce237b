import FirstHit.Byte

/-!
# Causes of failure

An `Error` is a cause that a caller can meet and act on: there is no automaton yet, a limit of the
configuration is exceeded, memory cannot be had, a pattern is not text. Each carries the numbers
that its message quotes, and `Error.message` is the only place where the wording stands.

A `Fault` is of another kind. Tables are read by computed positions, lengths are subtracted from
offsets, and links are followed until they reach the root; for an arbitrary table nothing says that
this goes well. The operations therefore say how it goes wrong, instead of answering with a default
value, and that an automaton made by `build` meets no fault is a statement about `build`, which can
only be made because the faults are there to be excluded. The build itself adds in words of fixed
size, and a sum that such a word cannot hold is a fault as well.
-/

namespace FirstHit

/-- A step that is impossible, for a table that is ill-formed or a sum that a word cannot hold. -/
inductive Fault where
  /-- A list or table of `size` entries has no entry at `index`. -/
  | outOfRange (size index : Nat)
  /-- An occurrence would start before the text does. -/
  | startsBeforeText (length stop : Nat)
  /-- Failure links do not lead to an answer within the depth of the state they start from. -/
  | endlessLinks
  /-- A path is longer than a depth can say. -/
  | tooDeep
deriving DecidableEq

namespace Fault

/-- The sentence that describes a fault. -/
def message : Fault → String
  | outOfRange size index =>
    "index out of bounds: the len is " ++ toString size ++ " but the index is " ++ toString index
  | startsBeforeText length stop =>
    "an occurrence of " ++ toString length ++ " bytes cannot stop at offset " ++ toString stop
  | endlessLinks => "failure links do not lead to an answer"
  | tooDeep => "attempt to add with overflow"

end Fault

/-- A cause for which building or scanning is refused. -/
inductive Error where
  /-- A scan was asked for before any build succeeded. -/
  | notBuilt
  /-- Memory could not be had. -/
  | allocationFailed (reason : String)
  /-- The trie would need more states than are allowed. -/
  | stateLimitExceeded (limit : UInt64)
  /-- The pattern at `index` has more bytes than are allowed. -/
  | patternTooLong (index length : Nat) (limit : UInt64)
  /-- The matched pattern is wanted as text and is not UTF-8. -/
  | invalidUtf8 (pattern : Nat)
  /-- A step is impossible. -/
  | fault (cause : Fault)
deriving DecidableEq

namespace Error

/-- The sentence that describes an error. -/
def message : Error → String
  | notBuilt => "Automaton not built: call build() before matching"
  | allocationFailed reason => "Allocation failed: " ++ reason
  | stateLimitExceeded limit =>
    "Resource limit exceeded: more than " ++ toString limit.toNat ++ " states"
  | patternTooLong index length limit =>
    "Pattern " ++ toString index ++ " is " ++ toString length ++ " bytes, limit is " ++
      toString limit.toNat
  | invalidUtf8 pattern => "Pattern " ++ toString pattern ++ " is not valid UTF-8"
  | fault cause => cause.message

/-- The error of a request for more entries than a collection can ever hold. -/
def capacityOverflow : Error :=
  allocationFailed
    "memory allocation failed because the computed capacity exceeded the collection's maximum"

end Error

/-- A step that either succeeds or meets a fault. -/
abbrev Checked (α : Type) := Except Fault α

/-- The entry of `table` at `index`, or the fault that there is none. -/
def Checked.entry {α : Type} (table : Array α) (index : Nat) : Checked α :=
  match table[index]? with
  | some entry => .ok entry
  | none => .error (.outOfRange table.size index)

/-- A step that succeeds hands its result on. -/
@[simp] theorem ok_bind {ε α β : Type} (a : α) (next : α → Except ε β) :
    (Except.ok a >>= next) = next a := rfl

/-- Two steps in turn succeed when each of them does. -/
theorem bind_eq_ok_iff {ε α β : Type} {step : Except ε α} {next : α → Except ε β} {b : β} :
    step >>= next = .ok b ↔ ∃ a, step = .ok a ∧ next a = .ok b := by
  constructor
  · intro h
    cases step with
    | error e => cases h
    | ok a => exact ⟨a, rfl, h⟩
  · rintro ⟨a, rfl, h⟩
    exact h

/-- Two steps in turn fail when one of them does. -/
theorem bind_eq_error_iff {ε α β : Type} {step : Except ε α} {next : α → Except ε β} {e : ε} :
    step >>= next = .error e ↔ step = .error e ∨ ∃ a, step = .ok a ∧ next a = .error e := by
  cases step with
  | error other =>
    constructor
    · intro h
      cases h
      exact Or.inl rfl
    · rintro (h | ⟨a, ⟨⟩, -⟩)
      cases h
      rfl
  | ok a =>
    constructor
    · exact fun h ↦ Or.inr ⟨a, rfl, h⟩
    · rintro (⟨⟨⟩⟩ | ⟨a', ha, h⟩)
      cases ha
      exact h

theorem Checked.entry_of_lt {α : Type} {table : Array α} {index : Nat}
    (h : index < table.size) : Checked.entry table index = .ok table[index] := by
  rw [Checked.entry, Array.getElem?_eq_getElem h]

theorem Checked.entry_eq_ok_iff {α : Type} {table : Array α} {index : Nat} {a : α} :
    Checked.entry table index = .ok a ↔ table[index]? = some a := by
  rw [Checked.entry]
  cases table[index]? <;> simp

end FirstHit
