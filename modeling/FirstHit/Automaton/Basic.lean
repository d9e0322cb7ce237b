import FirstHit.Error
import FirstHit.StateId

/-!
# Automata

An automaton is a list of states, one flat transition table with a row of 256 entries for each
state, and the patterns whose positions the states accept. It may hold a *prefilter*: the few bytes
that lead away from the root. A scan that sits at the root jumps to the next of them.

The parts of an automaton may be any lists whatever, so reading them is checked. `isTotal` decides
the part of well-formedness that concerns states.
-/

namespace FirstHit

/-- A state of an automaton. -/
structure State where
  /-- The failure link. -/
  fail : StateId
  /-- The length of the path from the root. -/
  depth : UInt32
  /-- The patterns that the state accepts, in the order in which a scan prefers them. -/
  ids : List Nat
deriving DecidableEq

namespace State

/-- Whether reaching the state reports a hit. -/
def isAccepting (s : State) : Bool := !s.ids.isEmpty

end State

/-! ## Prefilters -/

/-- At least one and at most three bytes to look out for. -/
structure Prefilter where
  /-- The bytes. -/
  bytes : List UInt8
  /-- There are few of them, but some. -/
  few : 1 ≤ bytes.length ∧ bytes.length ≤ 3
deriving DecidableEq

namespace Prefilter

/-- The prefilter that looks out for the given bytes, if they are few enough and some. -/
def ofBytes? (bytes : List UInt8) : Option Prefilter :=
  if few : 1 ≤ bytes.length ∧ bytes.length ≤ 3 then some ⟨bytes, few⟩ else none

/-- The offset of the first byte of `text` that `p` looks out for. -/
def next? (p : Prefilter) (text : Bytes) : Option Nat :=
  text.findIdx? fun b ↦ p.bytes.contains b

end Prefilter

/-- A way to search a text for the bytes of a prefilter. `Prefilter.next?` is one. -/
abbrev Search := Prefilter → Bytes → Option Nat

/-- What a scan relies on where it jumps: the search answers with the least offset of a byte that
the prefilter looks out for, and with nothing only if the text has no such byte. -/
structure Search.Leftmost (search : Search) : Prop where
  /-- At an offset found there is a byte looked for, and at none before it. -/
  of_some : ∀ {p : Prefilter} {text : Bytes} {i : Nat}, search p text = some i →
    (∃ b ∈ p.bytes, text[i]? = some b) ∧ ∀ j < i, ∀ b ∈ p.bytes, text[j]? ≠ some b
  /-- Where nothing is found there is no byte looked for. -/
  of_none : ∀ {p : Prefilter} {text : Bytes}, search p text = none → ∀ b ∈ p.bytes, b ∉ text

/-! ## Automata -/

/-- A total automaton over bytes, with the patterns that it looks for. -/
structure Automaton where
  /-- The states, the root first. -/
  states : Array State
  /-- The transitions: the entry of state `s` and byte `b` stands at `256 * s + b`. -/
  table : Array StateId
  /-- The patterns, by id. -/
  patterns : Array Bytes
  /-- The bytes that lead away from the root, where a scan may jump to them. -/
  prefilter : Option Prefilter := none
deriving DecidableEq

namespace Automaton

/-- The number of states. -/
def stateCount (a : Automaton) : Nat := a.states.size

/-- The number of patterns. -/
def patternCount (a : Automaton) : Nat := a.patterns.size

/-- Whether a scan may jump. -/
def hasPrefilter (a : Automaton) : Bool := a.prefilter.isSome

/-- The state that `s` identifies, if there is one. -/
def state? (a : Automaton) (s : StateId) : Option State := a.states[s.index]?

/-- The state that `s` identifies. -/
def state (a : Automaton) (s : StateId) : Checked State := Checked.entry a.states s.index

/-- The failure link of `s`. -/
def failure (a : Automaton) (s : StateId) : Checked StateId := do
  let state ← a.state s
  .ok state.fail

/-- The bytes of the pattern with the given id. -/
def pattern (a : Automaton) (id : Nat) : Checked Bytes := Checked.entry a.patterns id

/-- The position of a transition in the table. -/
def cell (s : StateId) (b : UInt8) : Nat := s.index * Byte.count + b.toNat

theorem cell_inj {s r : StateId} {b d : UInt8} : cell s b = cell r d ↔ s = r ∧ b = d := by
  constructor
  · intro h
    have hb := b.toNat_lt
    have hd := d.toNat_lt
    rw [cell, cell, Byte.count] at h
    exact ⟨StateId.index_injective (by omega), UInt8.toNat_inj.mp (by omega)⟩
  · rintro ⟨rfl, rfl⟩
    rfl

theorem cell_lt {s : StateId} {n : Nat} (hs : s.index < n) (b : UInt8) :
    cell s b < n * Byte.count := by
  have hb := b.toNat_lt
  rw [cell, Byte.count]
  omega

/-- The state that `s` goes to on `b`. -/
def next (a : Automaton) (s : StateId) (b : UInt8) : Checked StateId :=
  Checked.entry a.table (cell s b)

/-- Every state has a transition on every byte, and every transition and every failure link leads
to a state. -/
def isTotal (a : Automaton) : Bool :=
  a.table.size == a.stateCount * Byte.count &&
    a.table.all (fun s ↦ s.index < a.stateCount) &&
    a.states.all (fun s ↦ s.fail.index < a.stateCount)

/-! ## Making an automaton from its parts -/

/-- Adds those of `bytes` to `found` that take the root to another state. More than three are too
many, and behind the one that is too many nothing is read. -/
def leaving? (a : Automaton) : List UInt8 → List UInt8 → Checked (Option (List UInt8))
  | found, [] => .ok (some found)
  | found, b :: bytes => do
    let target ← a.next .root b
    if target = .root then a.leaving? found bytes
    else if 3 < (found ++ [b]).length then .ok none
    else a.leaving? (found ++ [b]) bytes

theorem leaving?_cons {a : Automaton} {b : UInt8} {target : StateId}
    (h : a.next .root b = .ok target) (found bytes : List UInt8) :
    a.leaving? found (b :: bytes) =
      if target = .root then a.leaving? found bytes
      else if 3 < (found ++ [b]).length then .ok none
      else a.leaving? (found ++ [b]) bytes := by
  rw [leaving?, h, ok_bind]

/-- The prefilter that fits the root. There is none if the root accepts, since a scan that jumps
reports nothing of what it jumps over, and none if no byte or too many bytes leave the root. -/
def rootPrefilter (a : Automaton) : Checked (Option Prefilter) := do
  let root ← a.state .root
  if root.isAccepting then .ok none
  else
    let bytes ← a.leaving? [] Byte.all
    .ok (bytes.bind Prefilter.ofBytes?)

/-- The automaton with the given parts, and with the prefilter that fits if one is wanted. -/
def ofParts (states : Array State) (table : Array StateId) (patterns : Array Bytes)
    (prefilter : Bool) : Checked Automaton :=
  let plain : Automaton := { states, table, patterns }
  if prefilter then do
    let fitting ← plain.rootPrefilter
    .ok { plain with prefilter := fitting }
  else .ok plain

/-! ## Figures -/

/-- The figures that sum an automaton up. -/
structure Stats where
  /-- The number of patterns. -/
  patternCount : Nat
  /-- The number of states, the root included. -/
  stateCount : Nat
  /-- The number of states that report a hit. -/
  acceptingStateCount : Nat
  /-- The depth of the deepest state. -/
  maxDepth : Nat
deriving DecidableEq

/-- The figures of an automaton. -/
def stats (a : Automaton) : Stats where
  patternCount := a.patternCount
  stateCount := a.stateCount
  acceptingStateCount := a.states.toList.countP State.isAccepting
  maxDepth := a.states.toList.foldl (fun deepest s ↦ max deepest s.depth.toNat) 0

end Automaton

end FirstHit
