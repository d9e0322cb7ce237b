import FirstHit.Automaton.Scan
import FirstHit.Live

/-!
# What the first hit is

Two scans that say what a search has to find, each by trying the offsets of a text in turn and
looking back at the whole of the text that was read. They use no automaton and take no care to be
fast.

*Path first* is the reading without inheritance: of the bytes read, only the longest live suffix
counts, and it is a hit if it is a pattern. A pattern that ends inside a longer live suffix is
passed over. *Earliest end first* is the reading with inheritance: any pattern that ends at an
offset is a hit there, and the longest is preferred.

Offsets start at one, because a scan reports only after it has read a byte.
-/

namespace FirstHit

/-- The least id of a pattern that is equal to `w`. -/
def leastId? (patterns : List Bytes) (w : Bytes) : Option Nat :=
  patterns.findIdx? (· == w)

/-- The hit of a suffix of the first `stop` bytes of a text, if it is a pattern. -/
def hitOfSuffix? (patterns : List Bytes) (stop : Nat) (w : Bytes) : Option Hit :=
  (leastId? patterns w).map fun id ↦ { pattern := id, start := stop - w.length, stop }

/-- The first hit if at each offset only the longest live suffix counts. -/
def pathFirst (patterns : List Bytes) (text : Bytes) : Option Hit :=
  (List.range' 1 text.length).findSome? fun stop ↦
    hitOfSuffix? patterns stop (liveSuffix patterns (text.take stop))

/-- The first hit if at each offset every suffix counts, the longest first. -/
def earliestEndFirst (patterns : List Bytes) (text : Bytes) : Option Hit :=
  (List.range' 1 text.length).findSome? fun stop ↦
    (text.take stop).tails.findSome? (hitOfSuffix? patterns stop)

/-- The hit is an occurrence of its pattern, and a scan can report it. -/
structure Occurs (patterns : List Bytes) (text : Bytes) (h : Hit) : Prop where
  /-- It starts before it stops, or where it stops. -/
  start_le_stop : h.start ≤ h.stop
  /-- A byte has been read where it stops. -/
  one_le_stop : 1 ≤ h.stop
  /-- It stops inside the text or at its end. -/
  stop_le_length : h.stop ≤ text.length
  /-- Its pattern is spelled between its offsets. -/
  spelled : patterns[h.pattern]? = some ((text.take h.stop).drop h.start)

end FirstHit
