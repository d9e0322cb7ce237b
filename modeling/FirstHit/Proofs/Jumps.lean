import FirstHit.Automaton.Scan
import Mathlib.Logic.Basic

/-!
# Jumps of a scan

A scan with a prefilter reads fewer bytes than one without and answers the same. Two facts about the
root are behind this: it accepts nothing, and the bytes that the prefilter does not look out for
lead from the root back to it (`Automaton.Fits`). A jump over one byte is then a step that reports
nothing and stays where it is (`Automaton.scan_jump`), and a jump over several is a sequence of
these.

Nothing here asks where the automaton comes from. Faults are met by both scans or by none.
-/

namespace FirstHit

variable {search : Search}

/-! ## Searches -/

theorem Prefilter.leftmost_next? : Search.Leftmost Prefilter.next? where
  of_some := by
    intro p text i h
    obtain ⟨hi, hfound, hbefore⟩ := List.findIdx?_eq_some_iff_getElem.mp h
    refine ⟨⟨text[i], List.contains_iff_mem.mp hfound, List.getElem?_eq_getElem hi⟩, ?_⟩
    intro j hj b hb hjb
    obtain ⟨hjlt, rfl⟩ := List.getElem?_eq_some_iff.mp hjb
    exact hbefore j hj (List.contains_iff_mem.mpr hb)
  of_none := by
    intro p text h b hb hmem
    have hnot := List.findIdx?_eq_none_iff.mp h b hmem
    rw [List.contains_iff_mem.mpr hb] at hnot
    cases hnot

/-- Leftmost searches do not differ in their answers. -/
theorem Search.Leftmost.eq_next? (hsearch : search.Leftmost) : search = Prefilter.next? := by
  funext p text
  cases hfound : search p text with
  | none =>
    refine (List.findIdx?_eq_none_iff.mpr fun b hb ↦ ?_).symm
    exact Bool.eq_false_iff.mpr fun h ↦
      hsearch.of_none hfound b (List.contains_iff_mem.mp h) hb
  | some i =>
    obtain ⟨⟨b, hb, hib⟩, hbefore⟩ := hsearch.of_some hfound
    obtain ⟨hi, rfl⟩ := List.getElem?_eq_some_iff.mp hib
    refine (List.findIdx?_eq_some_iff_getElem.mpr
      ⟨hi, List.contains_iff_mem.mpr hb, fun j hj h ↦ ?_⟩).symm
    have hjlt := Nat.lt_trans hj hi
    exact hbefore j hj _ (List.contains_iff_mem.mp h) (List.getElem?_eq_getElem hjlt)

namespace Automaton

variable {a : Automaton} {p : Prefilter} {s : StateId} {offset skipped : Nat}
  {b c : UInt8} {text rest : Bytes} {bytes bs found : List UInt8}

/-! ## One step of a scan -/

/-- A scan that reads `b` in state `s` at the offset `offset`, with `text` left to read after
that. -/
def read (search : Search) (a : Automaton) (s : StateId) (offset : Nat) (b : UInt8) (text : Bytes) :
    Checked (Option Hit) := do
  let reached ← a.next s b
  match ← a.hit? reached (offset + 1) with
  | some hit => .ok (some hit)
  | none => a.scan search reached (offset + 1) text

@[simp] theorem scan_nil (search : Search) (a : Automaton) (s : StateId) (offset : Nat) :
    a.scan search s offset [] = .ok none := by
  rw [scan]

theorem scan_of_skip?_eq_none (h : a.skip? search s (b :: text) = none) :
    a.scan search s offset (b :: text) = .ok none := by
  rw [scan, h]

theorem scan_of_skip?_eq_some (h : a.skip? search s (b :: text) = some skipped)
    (hdrop : (b :: text).drop skipped = c :: rest) :
    a.scan search s offset (b :: text) = a.read search s (offset + skipped) c rest := by
  rw [scan, h]
  dsimp only
  split
  case h_1 hnil => exact absurd (hdrop.symm.trans hnil) (List.cons_ne_nil c rest)
  case h_2 d tail hcons =>
    obtain ⟨rfl, rfl⟩ := List.cons.inj (hdrop.symm.trans hcons)
    rfl

theorem scan_of_skip?_eq_zero (h : a.skip? search s (b :: text) = some 0) :
    a.scan search s offset (b :: text) = a.read search s offset b text :=
  scan_of_skip?_eq_some h rfl

theorem scan_cons (ha : a.prefilter = none) (s : StateId) (offset : Nat) (b : UInt8)
    (text : Bytes) : a.scan search s offset (b :: text) = a.read search s offset b text :=
  scan_of_skip?_eq_zero (by rw [skip?, ha])

/-! ## Prefilters that fit -/

/-- Nothing is lost at the root when bytes are skipped that `p` does not look out for. -/
structure Fits (a : Automaton) (p : Prefilter) : Prop where
  /-- The root reports nothing. -/
  quiet : ∀ stop, a.hit? .root stop = .ok none
  /-- Other bytes lead from the root back to it. -/
  stays : ∀ b, b ∉ p.bytes → a.next .root b = .ok .root

theorem subset_of_leaving? (h : a.leaving? found bs = .ok (some bytes)) : found ⊆ bytes := by
  induction bs generalizing found with
  | nil =>
    cases h
    exact List.Subset.refl _
  | cons d bs ih =>
    obtain ⟨target, hnext, -⟩ := bind_eq_ok_iff.mp h
    rw [leaving?_cons hnext] at h
    split at h
    case isTrue => exact ih h
    case isFalse =>
      split at h
      case isTrue => cases h
      case isFalse => exact List.Subset.trans (List.subset_append_left found [d]) (ih h)

theorem next_root_of_notMem_leaving (h : a.leaving? found bs = .ok (some bytes)) (hb : b ∈ bs)
    (hleft : b ∉ bytes) : a.next .root b = .ok .root := by
  induction bs generalizing found with
  | nil => exact absurd hb List.not_mem_nil
  | cons d bs ih =>
    obtain ⟨target, hnext, -⟩ := bind_eq_ok_iff.mp h
    rw [leaving?_cons hnext] at h
    split at h
    case isTrue hroot =>
      rcases List.mem_cons.mp hb with rfl | hb
      · rwa [hroot] at hnext
      · exact ih h hb
    case isFalse =>
      split at h
      case isTrue => cases h
      case isFalse =>
        -- the byte `d` is one of those found, so `b` is another
        have hd : d ∈ bytes := subset_of_leaving? h (by simp)
        rcases List.mem_cons.mp hb with rfl | hb
        · exact absurd hd hleft
        · exact ih h hb

theorem fits_of_rootPrefilter (h : a.rootPrefilter = .ok (some p)) : a.Fits p := by
  obtain ⟨root, hroot, h⟩ := bind_eq_ok_iff.mp h
  by_cases haccepting : root.isAccepting = true
  · rw [if_pos haccepting] at h
    cases h
  · rw [if_neg haccepting] at h
    obtain ⟨leaving, hleaving, h⟩ := bind_eq_ok_iff.mp h
    obtain ⟨bytes, rfl, hbytes⟩ := Option.bind_eq_some_iff.mp (Except.ok.inj h)
    have hp : p.bytes = bytes := by
      rw [Prefilter.ofBytes?] at hbytes
      split at hbytes
      case isTrue => exact congrArg Prefilter.bytes (Option.some_inj.mp hbytes).symm
      case isFalse => cases hbytes
    have hids : root.ids = [] := by
      rw [State.isAccepting, Bool.not_eq_true', List.isEmpty_eq_false_iff, not_not] at haccepting
      exact haccepting
    constructor
    case quiet =>
      intro stop
      rw [hit?, hroot, ok_bind, hids]
    case stays =>
      intro b hb
      exact next_root_of_notMem_leaving hleaving (Byte.mem_all b) (hp ▸ hb)

/-! ## Jumping is stepping -/

/-- The automaton with the prefilter `p`. -/
def looking (a : Automaton) (p : Prefilter) : Automaton := { a with prefilter := some p }

theorem next?_cons_of_mem (hb : b ∈ p.bytes) : p.next? (b :: text) = some 0 := by
  rw [Prefilter.next?, List.findIdx?_cons, if_pos (List.contains_iff_mem.mpr hb)]

theorem next?_cons_of_notMem (hb : b ∉ p.bytes) :
    p.next? (b :: text) = (p.next? text).map (· + 1) := by
  rw [Prefilter.next?, List.findIdx?_cons, if_neg fun h ↦ hb (List.contains_iff_mem.mp h),
    Prefilter.next?]

theorem skip?_looking_root (a : Automaton) (p : Prefilter) (text : Bytes) :
    (a.looking p).skip? search .root text = search p text := by
  rw [skip?, looking]
  exact if_pos rfl

theorem skip?_looking_of_ne (hs : s ≠ .root) (text : Bytes) :
    (a.looking p).skip? search s text = some 0 := by
  rw [skip?, looking]
  exact if_neg hs

/-- Where the text goes on, a jump over a byte is a jump from the offset behind it. -/
theorem scan_jump (a : Automaton) (hb : b ∉ p.bytes) (offset : Nat) (text : Bytes) :
    (a.looking p).scan Prefilter.next? .root offset (b :: text)
      = (a.looking p).scan Prefilter.next? .root (offset + 1) text := by
  have hskip : (a.looking p).skip? Prefilter.next? .root (b :: text)
      = (p.next? text).map (· + 1) := by
    rw [skip?_looking_root, next?_cons_of_notMem hb]
  cases text with
  | nil => rw [scan_of_skip?_eq_none hskip, scan_nil]
  | cons d text =>
    cases hnext : p.next? (d :: text) with
    | none =>
      rw [hnext] at hskip
      rw [scan_of_skip?_eq_none hskip,
        scan_of_skip?_eq_none (by rw [skip?_looking_root, hnext])]
    | some skipped =>
      rw [hnext] at hskip
      -- the byte jumped to is the same, and so is its offset
      have hlt : skipped < (d :: text).length :=
        (List.findIdx?_eq_some_iff_findIdx_eq.mp hnext).1
      obtain ⟨c, rest, hdrop⟩ := List.exists_cons_of_ne_nil fun hnil ↦
        Nat.not_le.mpr hlt (List.drop_eq_nil_iff.mp hnil)
      have hoffset : offset + 1 + skipped = offset + (skipped + 1) := by omega
      rw [scan_of_skip?_eq_some hskip hdrop,
        scan_of_skip?_eq_some ((skip?_looking_root a p _).trans hnext) hdrop, hoffset]

/-- **Jumps change nothing.** A scan with a prefilter that fits answers as one without. -/
theorem scan_looking (hsearch : search.Leftmost) (ha : a.prefilter = none) (hp : a.Fits p)
    (s : StateId) (offset : Nat) (text : Bytes) :
    (a.looking p).scan search s offset text = a.scan search s offset text := by
  obtain rfl := hsearch.eq_next?
  induction text generalizing s offset with
  | nil => rw [scan_nil, scan_nil]
  | cons b text ih =>
    by_cases hjump : s = .root ∧ b ∉ p.bytes
    · obtain ⟨rfl, hb⟩ := hjump
      rw [scan_jump a hb, ih, scan_cons ha, read, hp.stays b hb, ok_bind, hp.quiet, ok_bind]
    · have hskip : (a.looking p).skip? Prefilter.next? s (b :: text) = some 0 := by
        by_cases hs : s = .root
        · subst hs
          rw [skip?_looking_root, next?_cons_of_mem]
          exact not_not.mp fun hb ↦ hjump ⟨rfl, hb⟩
        · exact skip?_looking_of_ne hs _
      rw [scan_of_skip?_eq_zero hskip, scan_cons ha, read, read]
      simp only [ih]
      rfl

theorem findWith_of_rootPrefilter {fitting : Option Prefilter} (hsearch : search.Leftmost)
    (ha : a.prefilter = none) (h : a.rootPrefilter = .ok fitting) (text : Bytes) :
    ({ a with prefilter := fitting } : Automaton).findWith search text
      = a.findWith search text := by
  cases fitting with
  | none =>
    obtain ⟨states, table, patterns, prefilter⟩ := a
    subst ha
    rfl
  | some p => exact scan_looking hsearch ha (fits_of_rootPrefilter h) .root 0 text

end Automaton

end FirstHit
