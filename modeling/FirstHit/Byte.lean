/-!
# Bytes

Everything the library searches, and everything it searches for, is a string of bytes. Text plays
no part in a search; it comes back only where a caller asks for a pattern as text.

Byte strings are lists, so that a scan is a recursion on what is left to read and the statements
about it are statements about suffixes and prefixes of lists. A transition table has one column
for each byte value, and `Byte.all` lists the columns in order.
-/

namespace FirstHit

/-- A string of bytes: a pattern, or a text to search. -/
abbrev Bytes := List UInt8

namespace Byte

/-- The number of byte values, which is the width of a row of a transition table. -/
def count : Nat := 256

/-- All byte values in increasing order. -/
def all : List UInt8 := (List.range count).map UInt8.ofNat

theorem length_all : all.length = count := by
  rw [all, List.length_map, List.length_range]

theorem mem_all (b : UInt8) : b ∈ all := by
  rw [all, List.mem_map]
  exact ⟨b.toNat, List.mem_range.mpr b.toNat_lt, UInt8.ofNat_toNat⟩

end Byte

end FirstHit
