import FirstHit.Proofs.Members

/-!
# Objects override the default

An object is read from left to right, and each member that names a field sets it. What comes of this
does not depend on the order: a configuration read from an object is the default with exactly those
fields replaced that the object gives (`Config.Replaces`), and it can be read if and only if no
field is given twice and every field is given a value of its type (`Config.ofText_overrides`).
Members with other names may stand anywhere and hold anything.

Taking the members one by one comes to putting values into fields one by one, since the other
members do nothing. Putting in one value and then replacing the other fields comes to replacing them
all (`Config.Replaces.cons_iff`), and replacing knows no order.
-/

namespace FirstHit.Config

open Json (Denotes DenotesPieces DenotesName)

variable {c d e : Config} {f : Field} {v : Json} {seen : List Field} {given : List (Field × Json)}
  {members : List (String × Json)} {text : String}

/-! ## Values of a field -/

/-- The values of the type of a field: nothing or a machine word for a limit, and a switch. -/
def Field.Takes : Field → Json → Prop
  | .maxStates, v => v = .null ∨ ∃ n < UInt64.size, v = .ofNat n
  | .maxPatternLength, v => v = .null ∨ ∃ n < UInt64.size, v = .ofNat n
  | .inheritSuffixMatches, v => ∃ yes, v = .bool yes
  | .prefilter, v => ∃ yes, v = .bool yes

theorem exists_limitJson_iff :
    (∃ limit, limitJson limit = v) ↔ v = .null ∨ ∃ n < UInt64.size, v = .ofNat n := by
  constructor
  · rintro ⟨limit | limit, rfl⟩
    · exact Or.inl rfl
    · exact Or.inr ⟨_, limit.toNat_lt_size, rfl⟩
  · rintro (rfl | ⟨n, hn, rfl⟩)
    · exact ⟨none, rfl⟩
    · refine ⟨some (UInt64.ofNat n), ?_⟩
      rw [limitJson, UInt64.toNat_ofNat_of_lt' hn]

theorem takes_iff : f.Takes v ↔ ∃ d : Config, d.fieldJson f = v := by
  cases f with
  | maxStates =>
    rw [Field.Takes, ← exists_limitJson_iff]
    exact ⟨fun ⟨limit, h⟩ ↦ ⟨{ maxStates := limit }, h⟩, fun ⟨d, h⟩ ↦ ⟨d.maxStates, h⟩⟩
  | maxPatternLength =>
    rw [Field.Takes, ← exists_limitJson_iff]
    exact ⟨fun ⟨limit, h⟩ ↦ ⟨{ maxPatternLength := limit }, h⟩,
      fun ⟨d, h⟩ ↦ ⟨d.maxPatternLength, h⟩⟩
  | inheritSuffixMatches =>
    exact ⟨fun ⟨yes, h⟩ ↦ ⟨{ inheritSuffixMatches := yes }, h.symm⟩,
      fun ⟨d, h⟩ ↦ ⟨d.inheritSuffixMatches, h.symm⟩⟩
  | prefilter =>
    exact ⟨fun ⟨yes, h⟩ ↦ ⟨{ prefilter := yes }, h.symm⟩, fun ⟨d, h⟩ ↦ ⟨d.prefilter, h.symm⟩⟩

theorem set?_eq_some_iff :
    c.set? v f = some d ↔ ∃ e : Config, e.fieldJson f = v ∧ assign e c f = d := by
  constructor
  · intro h
    cases f with
    | maxStates =>
      obtain ⟨limit, hv, hd⟩ := Option.map_eq_some_iff.mp h
      exact ⟨{ maxStates := limit }, limit?_eq_some_iff.mp hv, hd⟩
    | maxPatternLength =>
      obtain ⟨limit, hv, hd⟩ := Option.map_eq_some_iff.mp h
      exact ⟨{ maxPatternLength := limit }, limit?_eq_some_iff.mp hv, hd⟩
    | inheritSuffixMatches =>
      obtain ⟨yes, hv, hd⟩ := Option.map_eq_some_iff.mp h
      exact ⟨{ inheritSuffixMatches := yes }, switch?_eq_some_iff.mp hv, hd⟩
    | prefilter =>
      obtain ⟨yes, hv, hd⟩ := Option.map_eq_some_iff.mp h
      exact ⟨{ prefilter := yes }, switch?_eq_some_iff.mp hv, hd⟩
  · rintro ⟨e, hv, hd⟩
    cases f with
    | maxStates =>
      exact Option.map_eq_some_iff.mpr ⟨e.maxStates, limit?_eq_some_iff.mpr hv, hd⟩
    | maxPatternLength =>
      exact Option.map_eq_some_iff.mpr ⟨e.maxPatternLength, limit?_eq_some_iff.mpr hv, hd⟩
    | inheritSuffixMatches =>
      exact Option.map_eq_some_iff.mpr ⟨e.inheritSuffixMatches, switch?_eq_some_iff.mpr hv, hd⟩
    | prefilter =>
      exact Option.map_eq_some_iff.mpr ⟨e.prefilter, switch?_eq_some_iff.mpr hv, hd⟩

/-! ## Replacing fields -/

theorem foldlM_take? (members : List (String × Json)) (state : List Field × Config) :
    members.foldlM take? state = (settings members).foldlM put? state := by
  rw [settings, List.foldlM_filterMap]
  congr 1
  funext state member
  rw [take?]
  cases setting? member <;> rfl

theorem fieldJson_assign (e c : Config) (f g : Field) :
    (assign e c f).fieldJson g = if g = f then e.fieldJson f else c.fieldJson g := by
  cases f <;> cases g <;> rfl

theorem limitJson_injective : Function.Injective limitJson := by
  intro limit limit' h
  exact Option.some.inj ((limit?_eq_some_iff.mpr h).symm.trans (limit?_eq_some_iff.mpr rfl))

theorem eq_of_fieldJson (h : ∀ f, c.fieldJson f = d.fieldJson f) : c = d := by
  obtain ⟨states, length, inherit, prefilter⟩ := c
  obtain ⟨states', length', inherit', prefilter'⟩ := d
  obtain rfl : states = states' := limitJson_injective (h .maxStates)
  obtain rfl : length = length' := limitJson_injective (h .maxPatternLength)
  obtain rfl : inherit = inherit' := Json.bool.inj (h .inheritSuffixMatches)
  obtain rfl : prefilter = prefilter' := Json.bool.inj (h .prefilter)
  rfl

/-- In `d`, the given fields have the given values, and the others are as in `c`. -/
structure Replaces (given : List (Field × Json)) (c d : Config) : Prop where
  replaced : ∀ setting ∈ given, d.fieldJson setting.1 = setting.2
  kept : ∀ f ∉ given.map Prod.fst, d.fieldJson f = c.fieldJson f

namespace Replaces

theorem nil (c : Config) : Replaces [] c c := ⟨nofun, fun _ _ ↦ rfl⟩

/-- What is replaced with what determines the configuration. -/
theorem unique (h : Replaces given c d) (h' : Replaces given c e) : d = e := by
  refine eq_of_fieldJson fun f ↦ ?_
  by_cases hf : f ∈ given.map Prod.fst
  · obtain ⟨setting, hsetting, rfl⟩ := List.mem_map.mp hf
    rw [h.replaced setting hsetting, h'.replaced setting hsetting]
  · rw [h.kept f hf, h'.kept f hf]

theorem of_perm {other : List (Field × Json)} (hperm : other.Perm given)
    (h : Replaces given c d) : Replaces other c d where
  replaced := fun setting hsetting ↦ h.replaced setting (hperm.mem_iff.mp hsetting)
  kept := fun f hf ↦ h.kept f fun hgiven ↦ hf ((hperm.map Prod.fst).mem_iff.mpr hgiven)

/-- One field is set, and then the others are replaced. -/
theorem cons_iff (hf : f ∉ given.map Prod.fst) (he : e.fieldJson f = v) :
    Replaces ((f, v) :: given) c d ↔ Replaces given (assign e c f) d := by
  constructor
  · intro h
    refine ⟨fun setting hsetting ↦ ?_, fun g hg ↦ ?_⟩
    · exact h.replaced setting (List.mem_cons_of_mem _ hsetting)
    · rw [fieldJson_assign]
      split_ifs with hgf
      · rw [hgf, he]
        exact h.replaced (f, v) List.mem_cons_self
      · refine h.kept g ?_
        rw [List.map_cons, List.mem_cons, not_or]
        exact ⟨hgf, hg⟩
  · intro h
    refine ⟨fun setting hsetting ↦ ?_, fun g hg ↦ ?_⟩
    · rcases List.mem_cons.mp hsetting with rfl | hsetting
      · rw [h.kept f hf, fieldJson_assign, if_pos rfl, he]
      · exact h.replaced setting hsetting
    · rw [List.map_cons, List.mem_cons, not_or] at hg
      rw [h.kept g hg.2, fieldJson_assign, if_neg hg.1]

end Replaces

theorem exists_replaces (hnodup : (given.map Prod.fst).Nodup)
    (htakes : ∀ setting ∈ given, setting.1.Takes setting.2) (c : Config) :
    ∃ d, Replaces given c d := by
  induction given generalizing c with
  | nil => exact ⟨c, .nil c⟩
  | cons setting given ih =>
    obtain ⟨f, v⟩ := setting
    obtain ⟨hf, hgiven⟩ := List.nodup_cons.mp hnodup
    obtain ⟨e, he⟩ := takes_iff.mp (htakes (f, v) List.mem_cons_self)
    obtain ⟨d, hd⟩ := ih hgiven (fun setting hsetting ↦
      htakes setting (List.mem_cons_of_mem _ hsetting)) (assign e c f)
    exact ⟨d, (Replaces.cons_iff hf he).mpr hd⟩

/-- **Settings.** Putting the given values into the fields one after the other comes to replacing
the fields, and it succeeds if no field is given twice or has been set before. -/
theorem foldlM_put?_eq_some_iff :
    (given.foldlM put? (seen, c)).map Prod.snd = some d ↔
      (given.map Prod.fst).Nodup ∧ (given.map Prod.fst).Disjoint seen ∧ Replaces given c d := by
  induction given generalizing seen c with
  | nil =>
    constructor
    · intro h
      obtain rfl : c = d := Option.some.inj h
      exact ⟨List.nodup_nil, List.disjoint_nil_left seen, .nil c⟩
    · rintro ⟨-, -, h⟩
      exact congrArg some ((Replaces.nil c).unique h)
  | cons setting given ih =>
    obtain ⟨f, v⟩ := setting
    rw [List.map_cons, List.nodup_cons, List.disjoint_cons_left, List.foldlM_cons, put?]
    dsimp only
    by_cases hf : f ∈ seen
    · rw [if_pos hf]
      exact iff_of_false (Option.some_ne_none d).symm fun h ↦ h.2.1.1 hf
    · rw [if_neg hf]
      cases hset : c.set? v f with
      | none =>
        refine iff_of_false (Option.some_ne_none d).symm fun h ↦ ?_
        have hv := h.2.2.replaced (f, v) List.mem_cons_self
        rw [set?_eq_some_iff.mpr ⟨d, hv, rfl⟩] at hset
        cases hset
      | some c' =>
        obtain ⟨e, he, rfl⟩ := set?_eq_some_iff.mp hset
        refine ih.trans ?_
        rw [List.disjoint_cons_right]
        constructor
        · rintro ⟨hnodup, ⟨hfresh, hdisjoint⟩, h⟩
          exact ⟨⟨hfresh, hnodup⟩, ⟨hf, hdisjoint⟩, (Replaces.cons_iff hfresh he).mpr h⟩
        · rintro ⟨⟨hfresh, hnodup⟩, ⟨-, hdisjoint⟩, h⟩
          exact ⟨hnodup, ⟨hfresh, hdisjoint⟩, (Replaces.cons_iff hfresh he).mp h⟩

/-! ## Objects as configurations -/

/-- An object is read as a configuration if no field is given twice and the configuration is the
default with the given fields replaced. -/
theorem ofText_eq_ok_iff (h : Json.IsObject text members) :
    ofText text = .ok c ↔
      ((settings members).map Prod.fst).Nodup ∧ Replaces (settings members) default c := by
  rw [← toOption_eq_some_iff, toOption_ofText h, foldlM_take?, foldlM_put?_eq_some_iff]
  exact and_congr_right fun _ ↦ and_iff_right (List.disjoint_nil_right _)

/-- **Overrides.** A text that is an object, in whatever order and with whatever members that name
no field, is read as a configuration if no field is given twice and each is given a value of its
type: the default with the given fields replaced. If a field is given twice or with a value of
another type, the text is refused. Two objects that give the same values to the same fields are read
as the same configuration or both refused. -/
theorem ofText_overrides (h : Json.IsObject text members) :
    (((settings members).map Prod.fst).Nodup →
        (∀ setting ∈ settings members, setting.1.Takes setting.2) →
        ∃ c, ofText text = .ok c ∧ Replaces (settings members) default c) ∧
      (¬((settings members).map Prod.fst).Nodup → ∃ e, ofText text = .error e) ∧
      ((∃ setting ∈ settings members, ¬setting.1.Takes setting.2) →
        ∃ e, ofText text = .error e) ∧
      ∀ other text', Json.IsObject text' other → (settings other).Perm (settings members) →
        ∀ c, ofText text' = .ok c ↔ ofText text = .ok c := by
  refine ⟨fun hnodup htakes ↦ ?_, fun hnodup ↦ ?_, ?_, fun other text' hother hperm c ↦ ?_⟩
  · obtain ⟨c, hc⟩ := exists_replaces hnodup htakes default
    exact ⟨c, (ofText_eq_ok_iff h).mpr ⟨hnodup, hc⟩, hc⟩
  · exact exists_error_of_forall_ne fun c hc ↦ hnodup ((ofText_eq_ok_iff h).mp hc).1
  · rintro ⟨setting, hsetting, htakes⟩
    refine exists_error_of_forall_ne fun c hc ↦ htakes ?_
    exact takes_iff.mpr ⟨c, ((ofText_eq_ok_iff h).mp hc).2.replaced setting hsetting⟩
  · rw [ofText_eq_ok_iff h, ofText_eq_ok_iff hother]
    exact and_congr (hperm.map Prod.fst).nodup_iff ⟨.of_perm hperm.symm, .of_perm hperm⟩

theorem denotesName_name (f : Field) :
    DenotesName ('"' :: (f.name.toList ++ ['"'] ++ [':'])) (Json.pieces f.name) :=
  Json.denotesName_of_all_isPlain (by cases f <;> rfl)

/-- An object with a blank here and there, an escape in the name of a field, and a member to be
passed over that holds the name of a field and half of a surrogate pair. -/
theorem isObject_spelledOut :
    Json.IsObject ("\x7b \"x\":\x7b\"prefilter\":\"\\ud800\"\x7d," ++
        "\"pre\\u0066ilter\":false, \"max_states\":7\x7d")
      [("x", .object [(Json.pieces "prefilter", .string [.unit 0xD800])]),
        ("prefilter", .bool false), ("max_states", .ofNat 7)] := by
  have hx : DenotesName ['"', 'x', '"', ':'] [.char 'x'] :=
    Json.denotesName_of_all_isPlain (s := ['x']) rfl
  have hhalf : DenotesPieces ['\\', 'u', 'd', '8', '0', '0', '"'] [.unit 0xD800] :=
    .unit rfl .close
  have hplain : DenotesPieces ['i', 'l', 't', 'e', 'r', '"'] (Json.pieces "ilter") :=
    Json.denotesPieces_of_all_isPlain (s := ['i', 'l', 't', 'e', 'r']) rfl
  have hescaped : DenotesPieces
      ['p', 'r', 'e', '\\', 'u', '0', '0', '6', '6', 'i', 'l', 't', 'e', 'r', '"']
      (.char 'p' :: .char 'r' :: .char 'e' :: .unit 0x66 :: Json.pieces "ilter") :=
    .char rfl (.char rfl (.char rfl (.unit rfl hplain)))
  have hseven : Denotes ['7'] (.ofNat 7) := .scalar (.number (Json.denotesNumeral_digit rfl))
  exact .text .nil .nil
    (.object .space hx
        (.object .nil (denotesName_name .prefilter) (.scalar (.string hhalf)) (.close .nil)) <|
      .more .nil .nil (.name hescaped .nil .nil) (.scalar .no) <|
      .more .nil .space (denotesName_name .maxStates) hseven (.close .nil))
    (.cons ⟨rfl, rfl⟩ (.cons ⟨rfl, rfl⟩ (.cons ⟨rfl, rfl⟩ .nil)))

theorem ofText_overrides_spelledOut :
    ofText ("\x7b \"x\":\x7b\"prefilter\":\"\\ud800\"\x7d," ++
        "\"pre\\u0066ilter\":false, \"max_states\":7\x7d")
          = .ok { maxStates := some 7, prefilter := false } ∧
      ofText "\x7b\"max_states\":7,\"prefilter\":false\x7d"
          = .ok { maxStates := some 7, prefilter := false } ∧
      (∃ e, ofText "\x7b\"prefilter\":true,\"prefilter\":true\x7d" = .error e) ∧
      ∃ e, ofText "\x7b\"prefilter\":null\x7d" = .error e := by
  have hseven : Denotes ['7'] (.ofNat 7) := .scalar (.number (Json.denotesNumeral_digit rfl))
  have hcompact : Json.IsObject "\x7b\"max_states\":7,\"prefilter\":false\x7d"
      [("max_states", .ofNat 7), ("prefilter", .bool false)] :=
    .text .nil .nil
      (.object .nil (denotesName_name .maxStates) hseven <|
        .more .nil .nil (denotesName_name .prefilter) (.scalar .no) (.close .nil))
      (.cons ⟨rfl, rfl⟩ (.cons ⟨rfl, rfl⟩ .nil))
  have htwice : Json.IsObject "\x7b\"prefilter\":true,\"prefilter\":true\x7d"
      [("prefilter", .bool true), ("prefilter", .bool true)] :=
    .text .nil .nil
      (.object .nil (denotesName_name .prefilter) (.scalar .yes) <|
        .more .nil .nil (denotesName_name .prefilter) (.scalar .yes) (.close .nil))
      (.cons ⟨rfl, rfl⟩ (.cons ⟨rfl, rfl⟩ .nil))
  have hnull : Json.IsObject "\x7b\"prefilter\":null\x7d" [("prefilter", .null)] :=
    .text .nil .nil
      (.object .nil (denotesName_name .prefilter) (.scalar .null) (.close .nil))
      (.cons ⟨rfl, rfl⟩ .nil)
  obtain ⟨hread, -, -, hsame⟩ := ofText_overrides isObject_spelledOut
  obtain ⟨c, hc, hreplaces⟩ := hread (by decide) (by
    rintro setting (_ | ⟨_, _ | ⟨_, ⟨⟩⟩⟩)
    · exact ⟨false, rfl⟩
    · exact Or.inr ⟨7, by decide, rfl⟩)
  obtain rfl : c = { maxStates := some 7, prefilter := false } := by
    refine hreplaces.unique ⟨?_, ?_⟩
    · rintro setting (_ | ⟨_, _ | ⟨_, ⟨⟩⟩⟩) <;> rfl
    · intro f hf
      cases f with
      | maxStates => exact absurd (by decide) hf
      | maxPatternLength => rfl
      | inheritSuffixMatches => rfl
      | prefilter => exact absurd (by decide) hf
  refine ⟨hc, (hsame _ _ hcompact (.swap _ _ _) _).mpr hc, ?_, ?_⟩
  · exact (ofText_overrides htwice).2.1 (by decide)
  · refine (ofText_overrides hnull).2.2.1 ⟨_, List.mem_cons_self, ?_⟩
    rintro ⟨yes, ⟨⟩⟩

end FirstHit.Config
