import FirstHit.Config.Text
import FirstHit.Error
import FirstHit.Proofs.Numerals

/-!
# Configurations are read back

The text of a configuration names all four fields, and reading it sets them one after another. So it
is one member that has to be followed: its name is recognised, its value is read back, and the field
is set to what it was written from (`Config.readMember_member`). The members of the text, or the
elements of an array, are then taken in their order, and when all four have been set nothing of the
default is left (`Config.foldl_assign_all`).
-/

namespace FirstHit

open Json (Ends renderNat renderString renderMembers renderItems skipBlanks pieces)

variable {rest : List Char}

namespace Json

theorem renderMembers_cons (name : List Piece) (value : Json) (members : List (List Piece × Json))
    (rest : List Char) :
    renderMembers ((name, value) :: members) ++ rest
      = ',' :: (renderString name ++
          ':' :: (value.render ++ (renderMembers members ++ rest))) := by
  rw [renderMembers]
  simp

theorem length_le_renderMembers (members : List (List Piece × Json)) :
    members.length ≤ (renderMembers members).length := by
  induction members with
  | nil => exact Nat.zero_le _
  | cons m members ih =>
    obtain ⟨name, value⟩ := m
    rw [renderMembers]
    simp only [List.length_append, List.length_cons]
    omega

theorem ends_renderMembers (members : List (List Piece × Json)) (rest : List Char) :
    Ends (renderMembers members ++ rest) := by
  cases members with
  | nil => exact ends_brace rest
  | cons m members =>
    obtain ⟨name, value⟩ := m
    rw [renderMembers]
    exact ends_comma _

theorem ends_renderItems (items : List Json) (rest : List Char) :
    Ends (renderItems items ++ rest) := by
  cases items with
  | nil => exact ends_bracket rest
  | cons item items =>
    rw [renderItems]
    exact ends_comma _

end Json

namespace Config

variable {c d : Config} {f : Field} {seen fields : List Field}

/-! ## Values -/

theorem readScalar_ofNat {n : Nat} (hn : n < UInt64.size) (hrest : Ends rest) :
    readScalar ((Json.ofNat n).render ++ rest) = .ok (Json.ofNat n, rest) := by
  have hinterpretable : isInterpretable (Json.ofNat n) = true := Json.Numeral.isFinite_of_lt hn
  rw [readScalar, Json.readScalar_ofNat n hrest, Reading.ofOption, ok_bind]
  exact if_pos hinterpretable

theorem readAs_of_ne {α : Type} {c : Char} {input : List Char} (meaning : Json → Option α)
    (hbracket : c ≠ '[') (hbrace : c ≠ '{') :
    readAs meaning (c :: input) = (do
      let (value, rest) ← readScalar (c :: input)
      match meaning value with
      | some a => .ok (a, rest)
      | none => .error .mismatched) := by
  have harray : ∀ tail, c :: input = '[' :: tail → False := by
    rintro tail ⟨⟩
    exact hbracket rfl
  have hobject : ∀ tail, c :: input = '{' :: tail → False := by
    rintro tail ⟨⟩
    exact hbrace rfl
  exact readAs.eq_3 meaning (c :: input) harray hobject

theorem limit?_ofNat (limit : UInt64) : limit? (Json.ofNat limit.toNat) = some (some limit) := by
  have hword : ({ whole := limit.toNat } : Json.Numeral).word? = some limit := by
    rw [Json.Numeral.word?, Json.Numeral.nat?]
    exact (if_pos limit.toNat_lt_size).trans (congrArg some UInt64.ofNat_toNat)
  rw [Json.ofNat, limit?, hword]
  rfl

theorem exists_render_limitJson (limit : UInt64) :
    ∃ c tail, (limitJson (some limit)).render = c :: tail ∧ c.isDigit = true := by
  rw [limitJson, Json.render_ofNat]
  exact Json.exists_renderNat limit.toNat

theorem readAs_limitJson (limit : Option UInt64) (hrest : Ends rest) :
    readAs limit? ((limitJson limit).render ++ rest) = .ok (limit, rest) := by
  cases limit with
  | none => rfl
  | some limit =>
    obtain ⟨c, tail, hcons, hc⟩ := exists_render_limitJson limit
    have hread : readScalar ((limitJson (some limit)).render ++ rest)
        = .ok (Json.ofNat limit.toNat, rest) := readScalar_ofNat limit.toNat_lt_size hrest
    rw [hcons, List.cons_append] at hread ⊢
    have hbracket : c ≠ '[' := by
      rintro rfl
      exact absurd hc (by decide)
    have hbrace : c ≠ '{' := by
      rintro rfl
      exact absurd hc (by decide)
    rw [readAs_of_ne _ hbracket hbrace, hread, ok_bind]
    dsimp only
    rw [limit?_ofNat]

theorem readAs_switchJson (yes : Bool) (rest : List Char) :
    readAs switch? ((Json.bool yes).render ++ rest) = .ok (yes, rest) := by
  cases yes <;> rfl

theorem skipBlanks_limitJson (limit : Option UInt64) (rest : List Char) :
    skipBlanks ((limitJson limit).render ++ rest) = (limitJson limit).render ++ rest := by
  cases limit with
  | none => rfl
  | some limit =>
    obtain ⟨c, tail, hcons, hc⟩ := exists_render_limitJson limit
    rw [hcons, List.cons_append]
    exact List.dropWhile_cons_of_neg (Json.not_isBlank_of_isDigit hc)

/-- Sets the field `f` of `c` to what it is in `d`. -/
def assign (d c : Config) : Field → Config
  | .maxStates => { c with maxStates := d.maxStates }
  | .maxPatternLength => { c with maxPatternLength := d.maxPatternLength }
  | .inheritSuffixMatches => { c with inheritSuffixMatches := d.inheritSuffixMatches }
  | .prefilter => { c with prefilter := d.prefilter }

/-- Where all fields are set, nothing is left of what was there before. -/
theorem foldl_assign_all (d c : Config) : Field.all.foldl (assign d) c = d := rfl

theorem readField_fieldJson (d c : Config) (f : Field) (hrest : Ends rest) :
    readField c ((d.fieldJson f).render ++ rest) f = .ok (assign d c f, rest) := by
  cases f with
  | maxStates => rw [readField, fieldJson, readAs_limitJson _ hrest]; rfl
  | maxPatternLength => rw [readField, fieldJson, readAs_limitJson _ hrest]; rfl
  | inheritSuffixMatches => rw [readField, fieldJson, readAs_switchJson]; rfl
  | prefilter => rw [readField, fieldJson, readAs_switchJson]; rfl

theorem skipBlanks_fieldJson (d : Config) (f : Field) (rest : List Char) :
    skipBlanks ((d.fieldJson f).render ++ rest) = (d.fieldJson f).render ++ rest := by
  cases f with
  | maxStates => exact skipBlanks_limitJson d.maxStates rest
  | maxPatternLength => exact skipBlanks_limitJson d.maxPatternLength rest
  | inheritSuffixMatches => rw [fieldJson]; cases d.inheritSuffixMatches <;> rfl
  | prefilter => rw [fieldJson]; cases d.prefilter <;> rfl

/-! ## Members -/

/-- A field as a member of an object. -/
def member (d : Config) (f : Field) : List Json.Piece × Json := (pieces f.name, d.fieldJson f)

theorem readKey_name (f : Field) (rest : List Char) :
    readKey (renderString (pieces f.name) ++ rest) = .ok (f.name.toList, rest) := by
  cases f <;> rfl

theorem named?_name (f : Field) : Field.named? f.name.toList = some f := by
  cases f <;> rfl

theorem readMember_member (d c : Config) (hf : f ∉ seen) (hrest : Ends rest) :
    readMember seen c (renderString (pieces f.name) ++ ':' :: ((d.fieldJson f).render ++ rest))
      = .ok ((f :: seen, assign d c f), rest) := by
  have hcolon : skipColon (':' :: ((d.fieldJson f).render ++ rest))
      = .ok ((d.fieldJson f).render ++ rest) :=
    congrArg Except.ok (skipBlanks_fieldJson d f rest)
  rw [readMember, readKey_name, ok_bind]
  dsimp only
  rw [named?_name]
  dsimp only
  rw [if_neg hf, hcolon, ok_bind, readField_fieldJson d c f hrest]
  rfl

/-- The members that the given fields make, without the braces. -/
def memberText (d : Config) (f : Field) (fields : List Field) : List Char :=
  renderString (pieces f.name) ++
    ':' :: ((d.fieldJson f).render ++ renderMembers (fields.map d.member))

theorem memberText_append (d : Config) (f : Field) (fields : List Field) (rest : List Char) :
    d.memberText f fields ++ rest
      = renderString (pieces f.name) ++
          ':' :: ((d.fieldJson f).render ++ (renderMembers (fields.map d.member) ++ rest)) := by
  rw [memberText, List.append_assoc, List.cons_append, List.append_assoc]

theorem renderMembers_member (d : Config) (f : Field) (fields : List Field) (rest : List Char) :
    renderMembers ((f :: fields).map d.member) ++ rest
      = ',' :: (d.memberText f fields ++ rest) := by
  rw [List.map_cons, member, Json.renderMembers_cons, memberText_append]

theorem readMembers_memberText (d c : Config) {bound : Nat} (hbound : fields.length < bound)
    (hnodup : (f :: fields).Nodup) (hseen : ∀ g ∈ f :: fields, g ∉ seen) (rest : List Char) :
    readMembers bound seen c (d.memberText f fields ++ rest)
      = .ok ((f :: fields).foldl (assign d) c, rest) := by
  induction fields generalizing bound seen c f with
  | nil =>
    obtain ⟨bound, rfl⟩ := Nat.exists_eq_add_one_of_ne_zero (Nat.ne_of_gt hbound)
    rw [readMembers, memberText_append, readMember_member d c (hseen f List.mem_cons_self)
      (Json.ends_renderMembers _ rest), ok_bind]
    rfl
  | cons g fields ih =>
    obtain ⟨bound, rfl⟩ :=
      Nat.exists_eq_add_one_of_ne_zero (Nat.ne_of_gt (Nat.zero_lt_of_lt hbound))
    obtain ⟨hf, hfields⟩ := List.nodup_cons.mp hnodup
    have hfresh : ∀ h ∈ g :: fields, h ∉ f :: seen := by
      intro h hh
      rw [List.mem_cons, not_or]
      exact ⟨ne_of_mem_of_not_mem hh hf, hseen h (List.mem_cons_of_mem f hh)⟩
    rw [readMembers, memberText_append, readMember_member d c (hseen f List.mem_cons_self)
      (Json.ends_renderMembers _ rest), ok_bind, renderMembers_member]
    exact ih (assign d c f) (Nat.lt_of_succ_lt_succ hbound) hfields hfresh

/-- **Objects.** Reading the members that some fields make sets these fields. -/
theorem readObject_memberText (d : Config) (hnodup : (f :: fields).Nodup) (rest : List Char) :
    readObject (d.memberText f fields ++ rest)
      = .ok ((f :: fields).foldl (assign d) default, rest) := by
  have hlength : fields.length < (d.memberText f fields ++ rest).length := by
    have hle := Json.length_le_renderMembers (fields.map d.member)
    rw [List.length_map] at hle
    rw [memberText]
    simp only [List.length_append, List.length_cons]
    omega
  -- the text starts with a quote, so it is not skipped and does not close the object
  have hread : readObject (d.memberText f fields ++ rest)
      = readMembers (d.memberText f fields ++ rest).length [] default
          (d.memberText f fields ++ rest) := rfl
  rw [hread, readMembers_memberText d default hlength hnodup (fun _ _ ↦ List.not_mem_nil) rest]

/-! ## Elements -/

theorem readElements_renderItems (d c : Config) (fields : List Field) (rest : List Char) :
    readElements fields c (renderItems (fields.map d.fieldJson) ++ rest)
      = .ok (fields.foldl (assign d) c, rest) := by
  induction fields generalizing c with
  | nil => rfl
  | cons f fields ih =>
    have hitems : renderItems ((f :: fields).map d.fieldJson) ++ rest
        = ',' :: ((d.fieldJson f).render ++ (renderItems (fields.map d.fieldJson) ++ rest)) := by
      rw [List.map_cons, renderItems]
      simp
    have hcomma : readElements (f :: fields) c
          (',' :: ((d.fieldJson f).render ++ (renderItems (fields.map d.fieldJson) ++ rest)))
        = readField c (skipBlanks ((d.fieldJson f).render ++
            (renderItems (fields.map d.fieldJson) ++ rest))) f
          >>= fun p ↦ readElements fields p.1 p.2 := rfl
    rw [hitems, hcomma, skipBlanks_fieldJson,
      readField_fieldJson d c f (Json.ends_renderItems _ rest), ok_bind]
    exact ih (assign d c f)

/-! ## Texts -/

/-- A configuration as an array of its values in the order of the fields. -/
def toArray (c : Config) : Json := .array (Field.all.map c.fieldJson)

theorem render_toJson (c : Config) :
    c.toJson.render
      = '{' :: c.memberText .maxStates [.maxPatternLength, .inheritSuffixMatches, .prefilter] := by
  have hmembers : c.toJson = .object (c.member .maxStates ::
      [Field.maxPatternLength, .inheritSuffixMatches, .prefilter].map c.member) := rfl
  rw [hmembers, member, Json.render, memberText]
  simp

theorem render_toArray (c : Config) :
    c.toArray.render
      = '[' :: ((c.fieldJson .maxStates).render ++ renderItems
          ([Field.maxPatternLength, .inheritSuffixMatches, .prefilter].map c.fieldJson)) := by
  have hitems : c.toArray = .array (c.fieldJson .maxStates ::
      [Field.maxPatternLength, .inheritSuffixMatches, .prefilter].map c.fieldJson) := rfl
  rw [hitems, Json.render]
  simp

theorem readValue_toJson (c : Config) : readValue c.toJson.render = .ok (c, []) := by
  have hnodup :
      (Field.maxStates :: [.maxPatternLength, .inheritSuffixMatches, .prefilter]).Nodup := by
    decide
  have hset : (Field.maxStates :: [.maxPatternLength, .inheritSuffixMatches, .prefilter]).foldl
      (assign c) default = c := foldl_assign_all c default
  have hobject := readObject_memberText c hnodup []
  rw [List.append_nil, hset] at hobject
  rw [render_toJson, readValue, hobject]

/-- A limit does not close the array that it opens. -/
theorem readArray_limitJson (limit : Option UInt64) (rest : List Char) :
    readArray ((limitJson limit).render ++ rest) = (do
      let (c, rest) ← readField default ((limitJson limit).render ++ rest) .maxStates
      readElements [.maxPatternLength, .inheritSuffixMatches, .prefilter] c rest) := by
  rw [readArray, skipBlanks_limitJson]
  cases limit with
  | none => rfl
  | some limit =>
    obtain ⟨c, tail, hcons, hc⟩ := exists_render_limitJson limit
    rw [hcons, List.cons_append]
    split
    · rename_i hbracket
      obtain ⟨rfl, -⟩ := List.cons.inj hbracket
      exact absurd hc (by decide)
    · rfl

theorem readValue_toArray (c : Config) : readValue c.toArray.render = .ok (c, []) := by
  have hset : [Field.maxPatternLength, .inheritSuffixMatches, .prefilter].foldl (assign c)
      (assign c default .maxStates) = c := foldl_assign_all c default
  have helements := readElements_renderItems c (assign c default .maxStates)
    [.maxPatternLength, .inheritSuffixMatches, .prefilter] []
  rw [List.append_nil, hset] at helements
  rw [render_toArray, readValue, fieldJson, readArray_limitJson, ← fieldJson,
    readField_fieldJson c default .maxStates (by simpa using Json.ends_renderItems _ []), ok_bind]
  exact helements

theorem ofText_of_readValue {text : List Char} {c : Config}
    (h : readValue (skipBlanks text) = .ok (c, [])) : ofText (String.ofList text) = .ok c := by
  rw [ofText, String.toList_ofList, h]
  rfl

theorem ofText_toText_self (c : Config) : ofText c.toText = .ok c := by
  refine ofText_of_readValue ?_
  have hopen : skipBlanks c.toJson.render = c.toJson.render := by
    rw [render_toJson]
    rfl
  rw [hopen, readValue_toJson]

/-- **Configurations are read back.** The compact text of a configuration is read as that
configuration, and so is the array of its four values in the order of the fields. Whatever a text is
read as, writing that and reading it again gives the same. -/
theorem ofText_toText (c : Config) :
    ofText c.toText = .ok c ∧ ofText c.toArray.toText = .ok c ∧
      ∀ text, (ofText text >>= fun d ↦ ofText d.toText) = ofText text := by
  refine ⟨ofText_toText_self c, ofText_of_readValue ?_, fun text ↦ ?_⟩
  · have hopen : skipBlanks c.toArray.render = c.toArray.render := by
      rw [render_toArray]
      rfl
    rw [hopen, readValue_toArray]
  · cases ofText text with
    | error e => rfl
    | ok d => rw [ok_bind, ofText_toText_self]

example : ({ maxStates := some 18446744073709551615, prefilter := false } : Config).toText
    = "\x7b\"max_states\":18446744073709551615,\"max_pattern_len\":null," ++
        "\"inherit_suffix_matches\":false,\"prefilter\":false\x7d" := by
  decide +kernel

end Config

end FirstHit
