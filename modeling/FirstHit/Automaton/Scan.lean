import FirstHit.Automaton.Basic

/-!
# Scanning

A *walk* follows the transitions over a whole text. A *scan* is a walk that stops at the first state
that accepts a pattern, and reports the pattern that the state prefers. Both read each byte once and
never look back: what they know of the bytes read is the state they are in.

At the root, a scan of an automaton with a prefilter skips the bytes that would leave it at the
root. If no byte that leads away is left, the scan is over without a hit. How it searches for these
bytes is a parameter, because scans rely on no more of the search than that it is leftmost.
-/

namespace FirstHit

/-- An occurrence of a pattern in a text. For the empty pattern, `start` and `stop` are both the
offset at which the scan came back to the root. -/
structure Hit where
  /-- The id of the pattern. -/
  pattern : Nat
  /-- The offset of the first byte. -/
  start : Nat
  /-- The offset behind the last byte. -/
  stop : Nat
deriving DecidableEq

namespace Hit

/-- The number of bytes of the occurrence. -/
def length (h : Hit) : Nat := h.stop - h.start

/-- Whether the empty pattern was hit. -/
def isEmpty (h : Hit) : Bool := h.start == h.stop

end Hit

namespace Automaton

/-! ## Walks -/

/-- The state that `s` goes to on a text. -/
def walk (a : Automaton) (s : StateId) (text : Bytes) : Checked StateId :=
  text.foldlM a.next s

/-- The states that a walk from `s` passes, one for each byte. -/
def trace (a : Automaton) : StateId → Bytes → Checked (List StateId)
  | _, [] => .ok []
  | s, b :: text => do
    let reached ← a.next s b
    let passed ← a.trace reached text
    .ok (reached :: passed)

/-- The state `s` and those that its failure links lead to, down to the root. At most `bound` links
are followed. -/
def chainWithin (a : Automaton) : (bound : Nat) → StateId → Checked (List StateId)
  | bound, s =>
    if s = .root then .ok [s]
    else
      match bound with
      | 0 => .error .endlessLinks
      | bound + 1 => do
        let fallback ← a.failure s
        let suffixes ← a.chainWithin bound fallback
        .ok (s :: suffixes)

/-- The state `s` and those that its failure links lead to, down to the root. Their number cannot
exceed that of the states. -/
def failureChain (a : Automaton) (s : StateId) : Checked (List StateId) :=
  a.chainWithin a.stateCount s

/-! ## Scans -/

/-- The number of bytes of `text` that a scan skips in state `s`, or nothing if it skips them
all. -/
def skip? (search : Search) (a : Automaton) (s : StateId) (text : Bytes) : Option Nat :=
  match a.prefilter with
  | some p => if s = .root then search p text else some 0
  | none => some 0

/-- The hit of the pattern that `s` prefers, for a scan that reaches `s` at the offset `stop`. -/
def hit? (a : Automaton) (s : StateId) (stop : Nat) : Checked (Option Hit) := do
  let state ← a.state s
  match state.ids with
  | [] => .ok none
  | id :: _ =>
    let pattern ← a.pattern id
    if pattern.length ≤ stop then
      .ok (some { pattern := id, start := stop - pattern.length, stop })
    else .error (.startsBeforeText pattern.length stop)

/-- The first hit of a scan that is in state `s` at the offset `offset`, with `text` left to
read. -/
def scan (search : Search) (a : Automaton) (s : StateId) (offset : Nat) (text : Bytes) :
    Checked (Option Hit) :=
  match text with
  | [] => .ok none
  | b :: text =>
    match a.skip? search s (b :: text) with
    | none => .ok none
    | some skipped =>
      match _h : (b :: text).drop skipped with
      | [] => .error (.outOfRange (offset + (b :: text).length) (offset + skipped))
      | c :: rest => do
        let reached ← a.next s c
        let stop := offset + skipped + 1
        match ← a.hit? reached stop with
        | some hit => .ok (some hit)
        | none => a.scan search reached stop rest
termination_by text.length
decreasing_by
  have := congrArg List.length _h
  simp only [List.length_drop, List.length_cons] at this ⊢
  omega

/-- The first hit in a text, for a scan that jumps with `search`. -/
def findWith (search : Search) (a : Automaton) (text : Bytes) : Checked (Option Hit) :=
  a.scan search .root 0 text

/-- The first hit in a text. -/
def find (a : Automaton) (text : Bytes) : Checked (Option Hit) := a.findWith Prefilter.next? text

/-- The bytes of the first pattern hit in a text. -/
def findPattern (a : Automaton) (text : Bytes) : Checked (Option Bytes) := do
  match ← a.find text with
  | some hit => some <$> a.pattern hit.pattern
  | none => .ok none

/-- Whether any pattern is hit in a text, for a scan that jumps with `search`. -/
def isMatchWith (search : Search) (a : Automaton) (text : Bytes) : Checked Bool := do
  let found ← a.findWith search text
  .ok found.isSome

/-- Whether any pattern is hit in a text. -/
def isMatch (a : Automaton) (text : Bytes) : Checked Bool := a.isMatchWith Prefilter.next? text

end Automaton

end FirstHit
