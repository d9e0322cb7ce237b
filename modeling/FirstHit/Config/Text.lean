import FirstHit.Config
import FirstHit.Json.Magnitude
import FirstHit.Json.Printer
import FirstHit.Json.Reader

/-!
# Configurations as JSON

A configuration is written as an object with its four fields in order. It is read from an object, in
which any field may be missing and names that are not fields are passed over, or from an array of at
most four values in the order of the fields. What is missing keeps its default.

Reading goes from left to right and stops at the first thing that is wrong, so a text with several
faults is blamed for the first of them. A text is *malformed* if it is not JSON up to that point,
ends too early, or goes on behind the value; it is *mismatched* if what stands there is JSON of the
wrong kind. An array or an object in the place of a limit or a switch is mismatched as soon as it
opens, and a field that is given twice is mismatched as soon as it is named. Any other value is read
to its end first.

What a passed-over value holds is not interpreted: it may hold numbers that are out of range and
halves of surrogate pairs. Where a value is interpreted, these make the text malformed.
-/

namespace FirstHit.Config

open Json (Piece Numeral skipBlanks)

/-! ## Fields -/

/-- The fields of a configuration. -/
inductive Field where
  | maxStates
  | maxPatternLength
  | inheritSuffixMatches
  | prefilter
deriving DecidableEq

namespace Field

/-- The name of a field in a text. -/
def name : Field → String
  | maxStates => "max_states"
  | maxPatternLength => "max_pattern_len"
  | inheritSuffixMatches => "inherit_suffix_matches"
  | prefilter => "prefilter"

/-- The fields in the order in which they are written. -/
def all : List Field := [maxStates, maxPatternLength, inheritSuffixMatches, prefilter]

/-- The field with the given name. -/
def named? (name : List Char) : Option Field :=
  all.find? fun f ↦ f.name.toList = name

end Field

/-! ## Writing -/

/-- A limit as JSON. -/
def limitJson : Option UInt64 → Json
  | none => .null
  | some limit => .ofNat limit.toNat

/-- The value of a field as JSON. -/
def fieldJson (c : Config) : Field → Json
  | .maxStates => limitJson c.maxStates
  | .maxPatternLength => limitJson c.maxPatternLength
  | .inheritSuffixMatches => .bool c.inheritSuffixMatches
  | .prefilter => .bool c.prefilter

/-- A configuration as an object with all its fields. -/
def toJson (c : Config) : Json :=
  .ofMembers (Field.all.map fun f ↦ (f.name, c.fieldJson f))

/-- A configuration as compact JSON text. -/
def toText (c : Config) : String := c.toJson.toText

/-! ## Reading -/

/-- Why a text is no configuration. -/
inductive Unreadable where
  /-- It is not JSON. -/
  | malformed
  /-- It is JSON of the wrong kind. -/
  | mismatched
deriving DecidableEq

/-- A step of reading. -/
abbrev Reading := Except Unreadable

/-- A step that finds JSON; where there is none, the text is malformed. -/
def Reading.ofOption {α : Type} : Option α → Reading α
  | some result => .ok result
  | none => .error .malformed

/-- Whether a scalar can be interpreted. -/
def isInterpretable : Json → Bool
  | .number n => n.isFinite
  | .string pieces => (Json.text? pieces).isSome
  | _ => true

/-- A value that is neither an array nor an object, and that can be interpreted. -/
def readScalar (input : List Char) : Reading (Json × List Char) := do
  let (value, rest) ← Reading.ofOption (Json.readScalar input)
  if isInterpretable value then .ok (value, rest) else .error .malformed

/-- A value that `meaning` has a meaning for. -/
def readAs {α : Type} (meaning : Json → Option α) : List Char → Reading (α × List Char)
  | '[' :: _ => .error .mismatched
  | '{' :: _ => .error .mismatched
  | input => do
    let (value, rest) ← readScalar input
    match meaning value with
    | some a => .ok (a, rest)
    | none => .error .mismatched

/-- The limit that a value stands for. -/
def limit? : Json → Option (Option UInt64)
  | .null => some none
  | .number n => some <$> n.word?
  | _ => none

/-- The switch that a value stands for. -/
def switch? : Json → Option Bool
  | .bool value => some value
  | _ => none

/-- Sets a field to the value at the start of the input. -/
def readField (c : Config) (input : List Char) : Field → Reading (Config × List Char)
  | .maxStates => do
    let (limit, rest) ← readAs limit? input
    .ok ({ c with maxStates := limit }, rest)
  | .maxPatternLength => do
    let (limit, rest) ← readAs limit? input
    .ok ({ c with maxPatternLength := limit }, rest)
  | .inheritSuffixMatches => do
    let (yes, rest) ← readAs switch? input
    .ok ({ c with inheritSuffixMatches := yes }, rest)
  | .prefilter => do
    let (yes, rest) ← readAs switch? input
    .ok ({ c with prefilter := yes }, rest)

/-- The name of a member as text. -/
def readKey : List Char → Reading (List Char × List Char)
  | '"' :: input => do
    let (pieces, rest) ← Reading.ofOption (Json.readPieces input)
    match Json.text? pieces with
    | some name => .ok (name, rest)
    | none => .error .malformed
  | _ => .error .malformed

/-- What is left behind a colon and the blanks around it. -/
def skipColon (input : List Char) : Reading (List Char) :=
  match skipBlanks input with
  | ':' :: rest => .ok (skipBlanks rest)
  | _ => .error .malformed

/-- One member of an object. The fields in `seen` have been set before. -/
def readMember (seen : List Field) (c : Config) (input : List Char) :
    Reading ((List Field × Config) × List Char) := do
  let (name, rest) ← readKey input
  match Field.named? name with
  | some f =>
    if f ∈ seen then .error .mismatched
    else
      let rest ← skipColon rest
      let (c, rest) ← readField c rest f
      .ok ((f :: seen, c), rest)
  | none =>
    let rest ← skipColon rest
    let (_, rest) ← Reading.ofOption (Json.read rest)
    .ok ((seen, c), rest)

/-- The members of an object from the next one on, and the brace behind the last. -/
def readMembers : (bound : Nat) → List Field → Config → List Char → Reading (Config × List Char)
  | 0, _, _, _ => .error .malformed
  | bound + 1, seen, c, input => do
    let ((seen, c), rest) ← readMember seen c input
    match skipBlanks rest with
    | '}' :: rest => .ok (c, rest)
    | ',' :: rest => readMembers bound seen c (skipBlanks rest)
    | _ => .error .malformed

/-- An object behind its opening brace. -/
def readObject (input : List Char) : Reading (Config × List Char) :=
  match skipBlanks input with
  | '}' :: rest => .ok (default, rest)
  | first => readMembers first.length [] default first

/-- The values of the given fields, as far as there are any, behind a value; and the bracket behind
the last. -/
def readElements : List Field → Config → List Char → Reading (Config × List Char)
  | [], c, input =>
    match skipBlanks input with
    | ']' :: rest => .ok (c, rest)
    | _ => .error .malformed
  | f :: fields, c, input =>
    match skipBlanks input with
    | ']' :: rest => .ok (c, rest)
    | ',' :: rest => do
      let (c, rest) ← readField c (skipBlanks rest) f
      readElements fields c rest
    | _ => .error .malformed

/-- An array behind its opening bracket. -/
def readArray (input : List Char) : Reading (Config × List Char) :=
  match skipBlanks input with
  | ']' :: rest => .ok (default, rest)
  | first => do
    let (c, rest) ← readField default first .maxStates
    readElements [.maxPatternLength, .inheritSuffixMatches, .prefilter] c rest

/-- A configuration at the start of the input. -/
def readValue : List Char → Reading (Config × List Char)
  | '{' :: input => readObject input
  | '[' :: input => readArray input
  | input => do
    let _ ← readScalar input
    .error .mismatched

/-- The configuration that a whole text holds. -/
def ofText (text : String) : Reading Config := do
  let (c, rest) ← readValue (skipBlanks text.toList)
  if (skipBlanks rest).isEmpty then .ok c else .error .malformed

end FirstHit.Config
