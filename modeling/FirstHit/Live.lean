import FirstHit.Byte
import Mathlib.Data.List.Dedup
import Mathlib.Data.List.Infix

/-!
# Live strings

A string is *live* for a list of patterns if it is a prefix of one of them; the empty string is live
in any case. The states of an automaton stand for the live strings, one for each, and what a scan
remembers of the bytes it has read is the longest suffix that is live.

The definitions here mention no automaton. They are what states, links and walks are compared with.
-/

namespace FirstHit

/-- Whether `w` is empty or a prefix of a pattern. -/
def isLive (patterns : List Bytes) (w : Bytes) : Bool :=
  w.isEmpty || patterns.any (w.isPrefixOf ·)

/-- The longest suffix of `x` that is live. -/
def liveSuffix (patterns : List Bytes) : Bytes → Bytes
  | [] => []
  | b :: x => if isLive patterns (b :: x) then b :: x else liveSuffix patterns x

/-- Appends a string to a list of strings unless the list holds it. -/
def appendNew (known : List Bytes) (w : Bytes) : List Bytes :=
  if known.contains w then known else known ++ [w]

/-- The live strings in order of appearance: the empty string, and then, pattern by pattern, the
prefixes that no earlier pattern has. -/
def livePaths (patterns : List Bytes) : List Bytes :=
  (patterns.flatMap List.inits).foldl appendNew [[]]

/-- The number of distinct prefixes of the patterns, the empty string among them in any case. -/
def prefixCount (patterns : List Bytes) : Nat :=
  ([] :: patterns.flatMap List.inits).dedup.length

theorem isLive_nil (patterns : List Bytes) : isLive patterns [] = true := rfl

theorem isLive_iff {patterns : List Bytes} {w : Bytes} :
    isLive patterns w = true ↔ w = [] ∨ ∃ p ∈ patterns, w <+: p := by
  rw [isLive, Bool.or_eq_true, List.isEmpty_iff, List.any_eq_true]
  simp only [List.isPrefixOf_iff_prefix]

theorem isLive_liveSuffix (patterns : List Bytes) (x : Bytes) :
    isLive patterns (liveSuffix patterns x) = true := by
  induction x with
  | nil => rfl
  | cons b x ih =>
    rw [liveSuffix]
    split
    case isTrue h => exact h
    case isFalse => exact ih

theorem liveSuffix_suffix (patterns : List Bytes) (x : Bytes) :
    liveSuffix patterns x <:+ x := by
  induction x with
  | nil => exact List.suffix_refl _
  | cons b x ih =>
    rw [liveSuffix]
    split
    case isTrue => exact List.suffix_refl _
    case isFalse => exact ih.trans (List.suffix_cons b x)

/-- No live suffix is longer. -/
theorem suffix_liveSuffix {patterns : List Bytes} {w x : Bytes} (hw : isLive patterns w = true)
    (hx : w <:+ x) : w <:+ liveSuffix patterns x := by
  induction x with
  | nil => exact hx
  | cons b x ih =>
    rw [liveSuffix]
    split
    case isTrue => exact hx
    case isFalse h =>
      rcases List.suffix_cons_iff.mp hx with rfl | hx
      · exact absurd hw h
      · exact ih hx

end FirstHit
