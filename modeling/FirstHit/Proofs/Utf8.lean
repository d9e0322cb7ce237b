import FirstHit.Matcher
import Mathlib.Data.List.Basic

/-!
# Well-formed UTF-8

A pattern is handed out as text if its bytes are the encoding of a text (`Bytes.text?`). That they
are not is a statement about all texts, and this module turns it into one about the bytes.

A character is encoded in one of four forms. A form has lead bytes of its own, and a number of
continuation bytes that hold six bits of the character each. The bytes of a form are the encoding of
a character exactly if none of them is missing, the form is the shortest that has room for the
number they hold, and this number is a Unicode scalar value, thus no surrogate and no number beyond
the last plane (`Utf8.utf8EncodeChar_eq_cons_iff`). The bytes of a text are those of its characters,
one after another (`Utf8.wellFormed_iff`).
-/

namespace FirstHit

namespace Utf8

variable {c : Char} {chars : List Char} {bytes tail : Bytes} {b : UInt8} {n : Nat}

/-- The encoding of a list of characters. Characters are Unicode scalar values. -/
def encode (chars : List Char) : Bytes := chars.flatMap String.utf8EncodeChar

theorem encode_cons (c : Char) (chars : List Char) :
    encode (c :: chars) = String.utf8EncodeChar c ++ encode chars := List.flatMap_cons

theorem toByteArray_eq_iff {spelled : String} :
    spelled.toByteArray = ⟨bytes.toArray⟩ ↔ encode spelled.toList = bytes := by
  rw [← String.utf8Encode_toList, ← List.data_toByteArray]
  exact List.toByteArray_inj

/-! ## Forms -/

/-- One of the ways to encode a character. -/
structure Form where
  /-- The least lead byte. -/
  lead : Nat
  /-- The lead bytes are below it. -/
  bound : Nat
  /-- The number of continuation bytes. -/
  tail : Nat
  /-- The least number for which there is no shorter form. -/
  least : Nat

namespace Form

/-- One byte. -/
def one : Form := ⟨0x00, 0x80, 0, 0x0⟩

/-- Two bytes. -/
def two : Form := ⟨0xC0, 0xE0, 1, 0x80⟩

/-- Three bytes. -/
def three : Form := ⟨0xE0, 0xF0, 2, 0x800⟩

/-- Four bytes. -/
def four : Form := ⟨0xF0, 0xF8, 3, 0x10000⟩

/-- The forms. -/
def all : List Form := [one, two, three, four]

/-- The number that a lead byte and continuation bytes hold. -/
def value (f : Form) (b : UInt8) (tail : Bytes) : Nat :=
  tail.foldl (fun bits t ↦ bits * 64 + (t.toNat - 0x80)) (b.toNat - f.lead)

/-- The bytes `b :: tail` have the form `f` and hold the number `n`. -/
structure Holds (f : Form) (b : UInt8) (tail : Bytes) (n : Nat) : Prop where
  /-- The first byte is a lead byte of the form. -/
  lead_le : f.lead ≤ b.toNat
  /-- It is not one of the next form. -/
  lt_bound : b.toNat < f.bound
  /-- No byte is missing. -/
  length_eq : tail.length = f.tail
  /-- The other bytes are continuation bytes. -/
  continues : ∀ t ∈ tail, 0x80 ≤ t.toNat ∧ t.toNat < 0xC0
  /-- They hold the number. -/
  value_eq : f.value b tail = n
  /-- There is no shorter form for it. -/
  least_le : f.least ≤ n

theorem mem_all {f : Form} : f ∈ all ↔ f = one ∨ f = two ∨ f = three ∨ f = four := by
  simp [all]

end Form

/-! ## One character -/

theorem toNat_lt (c : Char) : c.val.toNat < 0x110000 := by
  rcases c.valid with hc | hc <;> omega

theorem exists_holds (h : String.utf8EncodeChar c = b :: tail) :
    ∃ f ∈ Form.all, f.Holds b tail c.val.toNat := by
  have hlt := toNat_lt c
  unfold String.utf8EncodeChar at h
  generalize c.val.toNat = n at h hlt ⊢
  dsimp only at h
  split_ifs at h <;> obtain ⟨rfl, rfl⟩ := List.cons.inj h
  · refine ⟨.one, Form.mem_all.mpr (by simp), ?_⟩
    constructor <;> simp [Form.one, Form.value] <;> omega
  · refine ⟨.two, Form.mem_all.mpr (by simp), ?_⟩
    constructor <;> simp [Form.two, Form.value] <;> omega
  · refine ⟨.three, Form.mem_all.mpr (by simp), ?_⟩
    constructor <;> simp [Form.three, Form.value] <;> omega
  · refine ⟨.four, Form.mem_all.mpr (by simp), ?_⟩
    constructor <;> simp [Form.four, Form.value] <;> omega

theorem utf8EncodeChar_of_holds {f : Form} (hf : f ∈ Form.all) (h : f.Holds b tail c.val.toNat) :
    String.utf8EncodeChar c = b :: tail := by
  have hlt := toNat_lt c
  obtain ⟨hlead, hbound, hlength, hcontinues, hvalue, hleast⟩ := h
  unfold String.utf8EncodeChar
  generalize c.val.toNat = n at hvalue hleast hlt ⊢
  dsimp only
  rcases Form.mem_all.mp hf with rfl | rfl | rfl | rfl
  · obtain rfl := List.length_eq_zero_iff.mp hlength
    simp only [Form.one, Form.value, List.foldl_nil] at *
    rw [if_pos (by omega)]
    simp only [List.cons.injEq, and_true, ← UInt8.toNat_inj, UInt8.toNat_ofNat']
    omega
  · obtain ⟨t, rfl⟩ := List.length_eq_one_iff.mp hlength
    simp only [Form.two, Form.value, List.foldl_cons, List.foldl_nil, List.forall_mem_cons] at *
    rw [if_neg (by omega), if_pos (by omega)]
    simp only [List.cons.injEq, and_true, ← UInt8.toNat_inj, UInt8.toNat_ofNat']
    omega
  · obtain ⟨t, u, rfl⟩ := List.length_eq_two.mp hlength
    simp only [Form.three, Form.value, List.foldl_cons, List.foldl_nil, List.forall_mem_cons] at *
    rw [if_neg (by omega), if_neg (by omega), if_pos (by omega)]
    simp only [List.cons.injEq, and_true, ← UInt8.toNat_inj, UInt8.toNat_ofNat']
    omega
  · obtain ⟨t, u, v, rfl⟩ := List.length_eq_three.mp hlength
    simp only [Form.four, Form.value, List.foldl_cons, List.foldl_nil, List.forall_mem_cons] at *
    rw [if_neg (by omega), if_neg (by omega), if_neg (by omega)]
    simp only [List.cons.injEq, and_true, ← UInt8.toNat_inj, UInt8.toNat_ofNat']
    omega

/-- The bytes of a character are those of one of the forms that hold its number. -/
theorem utf8EncodeChar_eq_cons_iff :
    String.utf8EncodeChar c = b :: tail ↔ ∃ f ∈ Form.all, f.Holds b tail c.val.toNat := by
  constructor
  · exact exists_holds
  · rintro ⟨f, hf, h⟩
    exact utf8EncodeChar_of_holds hf h

/-! ## Texts -/

/-- The bytes can be cut into forms, each of which holds a Unicode scalar value: no form is longer
than it has to be, none is cut off, and none holds a surrogate or a number that is too great. -/
inductive WellFormed : Bytes → Prop where
  | nil : WellFormed []
  | cons {f : Form} {b : UInt8} {tail rest : Bytes} {n : Nat} : f ∈ Form.all → f.Holds b tail n →
      n.isValidChar → WellFormed rest → WellFormed (b :: tail ++ rest)

theorem wellFormed_encode (chars : List Char) : WellFormed (encode chars) := by
  induction chars with
  | nil => exact .nil
  | cons c chars ih =>
    obtain ⟨b, tail, hc⟩ := List.exists_cons_of_ne_nil (String.utf8EncodeChar_ne_nil (c := c))
    obtain ⟨f, hf, hholds⟩ := utf8EncodeChar_eq_cons_iff.mp hc
    rw [encode_cons, hc]
    exact .cons hf hholds c.valid ih

theorem WellFormed.exists_encode (h : WellFormed bytes) : ∃ chars, encode chars = bytes := by
  induction h with
  | nil => exact ⟨[], rfl⟩
  | cons hf hholds hvalid _ ih =>
    obtain ⟨chars, rfl⟩ := ih
    have hc : String.utf8EncodeChar (.ofNatAux _ hvalid) = _ :: _ :=
      utf8EncodeChar_eq_cons_iff.mpr ⟨_, hf, hholds⟩
    exact ⟨_ :: chars, by rw [encode_cons, hc]⟩

/-- **Encodings are told by their bytes.** -/
theorem wellFormed_iff : WellFormed bytes ↔ ∃ chars, encode chars = bytes := by
  constructor
  · exact WellFormed.exists_encode
  · rintro ⟨chars, rfl⟩
    exact wellFormed_encode chars

end Utf8

/-! ## Bytes as text -/

namespace Bytes

variable {bytes : Bytes} {spelled : String}

theorem text?_eq_some_iff : bytes.text? = some spelled ↔ Utf8.encode spelled.toList = bytes := by
  rw [← Utf8.toByteArray_eq_iff, text?, String.fromUTF8?]
  constructor
  · intro h
    split at h
    case isTrue => rw [← Option.some_inj.mp h]; rfl
    case isFalse => cases h
  · intro h
    rw [← h, dif_pos spelled.isValidUTF8]
    rfl

theorem text?_eq_none_iff : bytes.text? = none ↔ ∀ chars, Utf8.encode chars ≠ bytes := by
  rw [Option.eq_none_iff_forall_ne_some]
  constructor
  · intro h chars hchars
    apply h (String.ofList chars)
    rw [text?_eq_some_iff, String.toList_ofList, hchars]
  · intro h spelled hspelled
    exact h _ (text?_eq_some_iff.mp hspelled)

-- A form that is too long, a surrogate, a number that is too great, and a form that is cut off.
example : text? [0xC0, 0x80] = none ∧ text? [0xED, 0xA0, 0x80] = none ∧
    text? [0xF4, 0x90, 0x80, 0x80] = none ∧ text? [0xE2, 0x82] = none := by decide +kernel

end Bytes

end FirstHit
