import FirstHit.Proofs.Grammar
import FirstHit.Proofs.RoundTrips
import Mathlib.Data.List.Forall2
import Mathlib.Data.List.TakeWhile

/-!
# Members are taken one by one

An object is given by its members in their order, with names that are text (`Json.IsObject`). How
the text spells them, whether with escapes or without, and where it has blanks, is left open. Half
of a surrogate pair may stand in a value that is passed over; in a name it would stand for nothing.

Reading the text of an object from left to right comes to the same as taking its members one by one
(`Config.toOption_ofText`), and there the text plays no part any more: a member that names a field
sets it, if it has not been set before and the value can be interpreted, and any other member is
taken as it is (`Config.take?`). Values that are passed over must be passed over exactly, or what
follows them would not be read as what it is; so this rests on the grammar of all values, not only
on that of limits and switches.

Only whether a text is read, and as what, is kept here, not what a text that is refused is blamed
for.
-/

namespace FirstHit

open Json (Piece Denotes DenotesScalar DenotesName DenotesMembers Blanks Ends skipBlanks)

/-- The name and the value that a member spells are those of `member`. -/
def Json.Spells (spelled : List Piece × Json) (member : String × Json) : Prop :=
  Json.text? spelled.1 = some member.1.toList ∧ spelled.2 = member.2

/-- The text is an object that has the given members in their order. -/
inductive Json.IsObject : String → List (String × Json) → Prop
  | text {before s behind : List Char} {spelled : List (List Piece × Json)}
    {members : List (String × Json)} (hbefore : Blanks before) (hbehind : Blanks behind)
    (hobject : Denotes s (.object spelled)) (hspelled : List.Forall₂ Json.Spells spelled members) :
    IsObject (String.ofList (before ++ (s ++ behind))) members

namespace Json.Numeral

theorem nat?_eq_some_iff {n : Numeral} {k : Nat} : n.nat? = some k ↔ n = { whole := k } := by
  obtain ⟨negative, whole, fraction, exponent⟩ := n
  rw [nat?, Numeral.mk.injEq]
  cases negative <;> cases fraction <;> cases exponent <;> simp

/-- A machine word is written without sign, fraction and exponent. -/
theorem eq_of_word? {n : Numeral} {word : UInt64} (h : n.word? = some word) :
    n = { whole := word.toNat } := by
  rw [word?] at h
  cases hnat : n.nat? with
  | none =>
    rw [hnat] at h
    cases h
  | some k =>
    rw [hnat] at h
    obtain ⟨hk, hword⟩ : k < UInt64.size ∧ UInt64.ofNat k = word := by
      simpa [Option.ite_none_right_eq_some] using h
    rw [nat?_eq_some_iff.mp hnat, ← hword, UInt64.toNat_ofNat_of_lt' hk]

end Json.Numeral

/-! ## Steps -/

theorem toOption_bind {ε α β : Type} (step : Except ε α) (next : α → Except ε β) :
    (step >>= next).toOption = step.toOption.bind fun a ↦ (next a).toOption := by
  cases step <;> rfl

theorem toOption_eq_some_iff {ε α : Type} {step : Except ε α} {a : α} :
    step.toOption = some a ↔ step = .ok a := by
  cases step with
  | error e => exact ⟨nofun, nofun⟩
  | ok b => exact ⟨fun h ↦ congrArg Except.ok (Option.some.inj h), fun h ↦ by rw [h]; rfl⟩

theorem exists_error_of_forall_ne {ε α : Type} {step : Except ε α} (h : ∀ a, step ≠ .ok a) :
    ∃ e, step = .error e := by
  cases step with
  | error e => exact ⟨e, rfl⟩
  | ok a => exact absurd rfl (h a)

namespace Config

variable {c : Config} {v : Json} {s head tail rest input : List Char} {seen : List Field}
  {members : List (String × Json)} {member : String × Json} {name : List Piece} {text : String}

/-! ## Values of a field -/

theorem limit?_eq_some_iff {limit : Option UInt64} :
    limit? v = some limit ↔ limitJson limit = v := by
  constructor
  · intro h
    cases v with
    | null =>
      cases h
      rfl
    | number n =>
      obtain ⟨word, hword, rfl⟩ := Option.map_eq_some_iff.mp h
      rw [Json.Numeral.eq_of_word? hword]
      rfl
    | bool | string | array | object => cases h
  · rintro rfl
    cases limit with
    | none => rfl
    | some limit => exact limit?_ofNat limit

theorem switch?_eq_some_iff {yes : Bool} : switch? v = some yes ↔ .bool yes = v := by
  constructor
  · intro h
    cases v with
    | bool value =>
      cases h
      rfl
    | null | number | string | array | object => cases h
  · rintro rfl
    rfl

/-! ## Reading a value -/

/-- Only scalars that can be interpreted have the meaning. -/
structure Interprets {α : Type} (meaning : Json → Option α) : Prop where
  array : ∀ items, meaning (.array items) = none
  object : ∀ members, meaning (.object members) = none
  interpretable : ∀ {v a}, meaning v = some a → isInterpretable v = true

theorem interprets_limit? : Interprets limit? where
  array := fun _ ↦ rfl
  object := fun _ ↦ rfl
  interpretable := by
    intro v limit h
    cases limit with
    | none =>
      rw [← limit?_eq_some_iff.mp h]
      rfl
    | some limit =>
      rw [← limit?_eq_some_iff.mp h]
      exact Json.Numeral.isFinite_of_lt limit.toNat_lt_size

theorem interprets_switch? : Interprets switch? where
  array := fun _ ↦ rfl
  object := fun _ ↦ rfl
  interpretable := by
    intro v yes h
    rw [← switch?_eq_some_iff.mp h]
    rfl

theorem toOption_readScalar (h : DenotesScalar s v) (hrest : Ends rest) :
    (readScalar (s ++ rest)).toOption = if isInterpretable v then some (v, rest) else none := by
  rw [readScalar, Json.readScalar_of_denotes h hrest, Reading.ofOption, ok_bind]
  dsimp only
  split <;> rfl

theorem toOption_readAs {α : Type} {meaning : Json → Option α} (hmeaning : Interprets meaning)
    (h : Denotes s v) (hrest : Ends rest) :
    (readAs meaning (s ++ rest)).toOption = (meaning v).map (·, rest) := by
  cases h with
  | scalar hscalar =>
    have hread := toOption_readScalar hscalar hrest
    obtain ⟨c, tail, rfl, -, hbracket, hbrace, -⟩ := hscalar.exists_cons
    rw [List.cons_append] at hread ⊢
    rw [readAs_of_ne meaning hbracket hbrace, toOption_bind, hread]
    by_cases hi : isInterpretable v = true
    · rw [if_pos hi, Option.bind_some]
      dsimp only
      cases meaning v <;> rfl
    · have hnone : meaning v = none :=
        Option.eq_none_iff_forall_ne_some.mpr fun a ha ↦ hi (hmeaning.interpretable ha)
      rw [if_neg hi, hnone]
      rfl
  | emptyArray hblanks => rw [hmeaning.array]; rfl
  | array hblanks hitem hitems => rw [hmeaning.array]; rfl
  | emptyObject hblanks => rw [hmeaning.object]; rfl
  | object hblanks hname hvalue hmembers => rw [hmeaning.object]; rfl

/-! ## Setting fields -/

/-- The configuration in which a field is set to what a value stands for. -/
def set? (c : Config) (v : Json) : Field → Option Config
  | .maxStates => (limit? v).map fun limit ↦ { c with maxStates := limit }
  | .maxPatternLength => (limit? v).map fun limit ↦ { c with maxPatternLength := limit }
  | .inheritSuffixMatches => (switch? v).map fun yes ↦ { c with inheritSuffixMatches := yes }
  | .prefilter => (switch? v).map fun yes ↦ { c with prefilter := yes }

theorem toOption_readField (c : Config) (f : Field) (h : Denotes s v) (hrest : Ends rest) :
    (readField c (s ++ rest) f).toOption = (c.set? v f).map (·, rest) := by
  cases f with
  | maxStates =>
    rw [readField, toOption_bind, toOption_readAs interprets_limit? h hrest, set?]
    cases limit? v <;> rfl
  | maxPatternLength =>
    rw [readField, toOption_bind, toOption_readAs interprets_limit? h hrest, set?]
    cases limit? v <;> rfl
  | inheritSuffixMatches =>
    rw [readField, toOption_bind, toOption_readAs interprets_switch? h hrest, set?]
    cases switch? v <;> rfl
  | prefilter =>
    rw [readField, toOption_bind, toOption_readAs interprets_switch? h hrest, set?]
    cases switch? v <;> rfl

/-- A field that has been set is not set again. -/
def put? (state : List Field × Config) (setting : Field × Json) :
    Option (List Field × Config) :=
  if setting.1 ∈ state.1 then none
  else (state.2.set? setting.2 setting.1).map (setting.1 :: state.1, ·)

/-- The field that a member names, with the value that it gives to it. -/
def setting? (member : String × Json) : Option (Field × Json) :=
  (Field.named? member.1.toList).map (·, member.2)

/-- What the members give to fields, in their order. Names that are no fields give nothing. -/
def settings (members : List (String × Json)) : List (Field × Json) := members.filterMap setting?

/-- What one member does to the fields. -/
def take? (state : List Field × Config) (member : String × Json) :
    Option (List Field × Config) :=
  match setting? member with
  | some setting => put? state setting
  | none => some state

/-! ## Reading members -/

theorem readKey_of_denotes {pieces : List Piece} {name : List Char}
    (h : Json.DenotesPieces s pieces) (hname : Json.text? pieces = some name)
    (rest : List Char) : readKey ('"' :: (s ++ rest)) = .ok (name, rest) := by
  rw [readKey, Json.readPieces_of_denotes h, Reading.ofOption, ok_bind]
  dsimp only
  rw [hname]

theorem skipColon_append {before behind : List Char} (hbefore : Blanks before)
    (hbehind : Blanks behind) (h : Denotes s v) (rest : List Char) :
    skipColon (before ++ ':' :: (behind ++ (s ++ rest))) = .ok (s ++ rest) := by
  rw [skipColon, Json.skipBlanks_append hbefore (by decide)]
  exact congrArg Except.ok (Json.skipBlanks_denotes hbehind h rest)

/-- **One member.** A member that names a field is read if the field can be set; any other is read
in any case. -/
theorem toOption_readMember (hname : DenotesName head name) (h : Denotes s v)
    (hspelled : Json.Spells (name, v) member) (hrest : Ends rest) :
    (readMember seen c (head ++ (s ++ rest))).toOption
      = (take? (seen, c) member).map (·, rest) := by
  obtain ⟨htext, hvalue⟩ := hspelled
  obtain rfl : v = member.2 := hvalue
  cases hname with
  | @name p before behind pieces hp hbefore hbehind =>
    have hshape : '"' :: (p ++ (before ++ ':' :: behind)) ++ (s ++ rest)
        = '"' :: (p ++ (before ++ ':' :: (behind ++ (s ++ rest)))) := by simp
    rw [hshape, readMember, readKey_of_denotes hp htext, ok_bind]
    dsimp only
    rw [take?, setting?]
    cases Field.named? member.1.toList with
    | none =>
      dsimp only
      rw [skipColon_append hbefore hbehind h, ok_bind, Json.read_of_denotes h hrest]
      rfl
    | some f =>
      rw [Option.map_some]
      dsimp only
      rw [put?]
      by_cases hf : f ∈ seen
      · rw [if_pos hf, if_pos hf]
        rfl
      · rw [if_neg hf, if_neg hf, skipColon_append hbefore hbehind h, ok_bind, toOption_bind,
          toOption_readField c f h hrest]
        cases c.set? member.2 f <;> rfl

/-- What is done behind a member: a brace ends the object, and a comma leads to the next member. -/
def readBehind (bound : Nat) (state : List Field × Config) (input : List Char) :
    Reading (Config × List Char) :=
  match skipBlanks input with
  | '}' :: rest => .ok (state.2, rest)
  | ',' :: rest => readMembers bound state.1 state.2 (skipBlanks rest)
  | _ => .error .malformed

theorem readBehind_close {bound : Nat} {state : List Field × Config}
    (hskip : skipBlanks input = '}' :: rest) :
    readBehind bound state input = .ok (state.2, rest) := by
  rw [readBehind, hskip]
  rfl

theorem readBehind_comma {bound : Nat} {state : List Field × Config}
    (hskip : skipBlanks input = ',' :: rest) :
    readBehind bound state input = readMembers bound state.1 state.2 (skipBlanks rest) := by
  rw [readBehind, hskip]
  rfl

theorem toOption_readMembers (bound : Nat) (seen : List Field) (c : Config)
    (hname : DenotesName head name) (h : Denotes s v) (hmember : Json.Spells (name, v) member)
    (hrest : Ends rest) :
    (readMembers (bound + 1) seen c (head ++ (s ++ rest))).toOption
      = (take? (seen, c) member).bind fun state ↦ (readBehind bound state rest).toOption := by
  have hread : readMembers (bound + 1) seen c (head ++ (s ++ rest))
      = readMember seen c (head ++ (s ++ rest)) >>= fun p ↦ readBehind bound p.1 p.2 := rfl
  rw [hread, toOption_bind, toOption_readMember hname h hmember hrest, Option.bind_map]
  rfl

/-- **Members.** Reading the members that are left comes to taking them one after the other. -/
theorem toOption_readBehind {spelled : List (List Piece × Json)} (h : DenotesMembers tail spelled)
    (hspelled : List.Forall₂ Json.Spells spelled members) {bound : Nat}
    (hbound : members.length ≤ bound) (state : List Field × Config) (rest : List Char) :
    (readBehind bound state (tail ++ rest)).toOption
      = (members.foldlM take? state).map fun state ↦ (state.2, rest) := by
  induction hspelled generalizing tail bound state with
  | nil =>
    cases h with
    | close hblanks =>
      rw [readBehind_close (Json.skipBlanks_closing hblanks (by decide) rest)]
      rfl
  | cons hmember hspelled ih =>
    cases h with
    | @more before behind head s tail _ _ _ hbefore hbehind hname hvalue htail =>
      have hskip : skipBlanks (before ++ ',' :: (behind ++ (head ++ (s ++ tail))) ++ rest)
          = ',' :: (behind ++ (head ++ (s ++ (tail ++ rest)))) := by
        simpa using Json.skipBlanks_append hbefore (c := ',') (by decide)
          (behind ++ (head ++ (s ++ (tail ++ rest))))
      obtain ⟨bound, rfl⟩ :=
        Nat.exists_eq_add_one_of_ne_zero (Nat.ne_of_gt (Nat.zero_lt_of_lt hbound))
      rw [readBehind_comma hskip, Json.skipBlanks_name hbehind hname,
        toOption_readMembers bound _ _ hname hvalue hmember (htail.ends rest), List.foldlM_cons,
        Option.bind_eq_bind, Option.map_bind]
      exact congrArg _ (funext fun state ↦ ih htail (Nat.le_of_succ_le_succ hbound) state)

theorem length_le_of_denotesMembers {spelled : List (List Piece × Json)}
    (h : DenotesMembers tail spelled) : spelled.length ≤ tail.length := by
  induction spelled generalizing tail with
  | nil => exact Nat.zero_le _
  | cons m spelled ih =>
    cases h with
    | more hbefore hbehind hname hvalue hmembers =>
      have hle := ih hmembers
      simp only [List.length_append, List.length_cons]
      omega

/-! ## Reading an object -/

/-- **Objects.** Reading an object comes to taking its members. -/
theorem toOption_readValue {spelled : List (List Piece × Json)} (h : Denotes s (.object spelled))
    (hspelled : List.Forall₂ Json.Spells spelled members) (rest : List Char) :
    (readValue (s ++ rest)).toOption
      = (members.foldlM take? ([], default)).map fun state ↦ (state.2, rest) := by
  cases h with
  | scalar h => cases h
  | emptyObject hblanks =>
    cases hspelled
    rw [List.cons_append, readValue, readObject,
      Json.skipBlanks_closing hblanks (by decide) rest]
    rfl
  | @object blanks head s tail name value spelled hblanks hname hvalue hmembers =>
    cases hspelled with
    | @cons _ member _ members hmember hspelled =>
      have htext : blanks ++ (head ++ (s ++ tail)) ++ rest
          = blanks ++ (head ++ (s ++ (tail ++ rest))) := by simp
      obtain ⟨t, rfl⟩ := hname.exists_cons
      have hlength : members.length ≤ (t ++ (s ++ (tail ++ rest))).length := by
        have hle := length_le_of_denotesMembers hmembers
        rw [hspelled.length_eq] at hle
        simp only [List.length_append]
        omega
      have hread := toOption_readMembers (t ++ (s ++ (tail ++ rest))).length [] default hname
        hvalue hmember (hmembers.ends rest)
      rw [List.cons_append, readValue, htext, readObject, Json.skipBlanks_name hblanks hname,
        List.foldlM_cons, Option.bind_eq_bind, Option.map_bind]
      exact hread.trans <| congrArg _ <| funext fun state ↦
        toOption_readBehind hmembers hspelled hlength state rest

theorem toOption_ofText (h : Json.IsObject text members) :
    (ofText text).toOption = (members.foldlM take? ([], default)).map Prod.snd := by
  cases h with
  | @text before s behind spelled _ hbefore hbehind hobject hspelled =>
    have hend : skipBlanks behind = [] := List.dropWhile_eq_nil_iff.mpr hbehind
    rw [ofText, String.toList_ofList, Json.skipBlanks_denotes hbefore hobject, toOption_bind,
      toOption_readValue hobject hspelled behind, Option.bind_map, Option.map_eq_bind]
    refine congrArg _ (funext fun state ↦ ?_)
    dsimp only [Function.comp_apply]
    rw [hend]
    rfl

end Config

end FirstHit
