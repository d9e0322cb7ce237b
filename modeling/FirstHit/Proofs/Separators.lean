import FirstHit.Proofs.OnlineScans
import FirstHit.Proofs.Walks

/-!
# Separators

A byte that occurs in no pattern is *foreign*. No live string holds it, so it takes every state to
the root, whatever was read before: rows of the table that were borrowed along failure links are no
exception. Unless the empty pattern is among the patterns, nothing is reported there either, and the
scan starts over, with all offsets moved by the number of bytes read (`Automaton.scan_shift`).

So a foreign byte splits a scan in two that know nothing of each other, and a text whose parts are
joined by a foreign byte can be searched part by part (`Automaton.findWith_build_foreign`).
-/

namespace FirstHit

variable {search : Search} {c : Config} {patterns : List Bytes} {w x y text : Bytes} {b : UInt8}
  {s : StateId} {offset stop : Nat} {found : Option Hit}

/-! ## Foreign bytes -/

/-- The byte `b` occurs in no pattern. -/
def Foreign (patterns : List Bytes) (b : UInt8) : Prop := ∀ p ∈ patterns, b ∉ p

theorem Foreign.notMem_of_isLive (hb : Foreign patterns b) (hw : isLive patterns w = true) :
    b ∉ w := by
  rcases isLive_iff.mp hw with rfl | ⟨p, hp, hwp⟩
  · exact List.not_mem_nil
  · exact fun hmem ↦ hb p hp (hwp.subset hmem)

theorem Foreign.liveSuffix_append (hb : Foreign patterns b) (x : Bytes) :
    liveSuffix patterns (x ++ [b]) = [] := by
  rcases List.suffix_concat_iff.mp (liveSuffix_suffix patterns (x ++ [b])) with hnil | ⟨v, hv, -⟩
  · exact hnil
  · have hlive := isLive_liveSuffix patterns (x ++ [b])
    rw [hv] at hlive
    exact absurd (List.mem_append_right v List.mem_cons_self) (hb.notMem_of_isLive hlive)

/-! ## Shifted scans -/

/-- The same hit in a text with `n` more bytes in front. -/
def Hit.shift (h : Hit) (n : Nat) : Hit := { h with start := n + h.start, stop := n + h.stop }

@[simp] theorem Hit.shift_zero (h : Hit) : h.shift 0 = h := by
  simp [Hit.shift]

theorem Hit.shift_shift (h : Hit) (m n : Nat) : (h.shift n).shift m = h.shift (m + n) := by
  simp [Hit.shift, Nat.add_assoc]

namespace Automaton

variable {a : Automaton}

theorem hit?_shift (h : a.hit? s stop = .ok found) (n : Nat) :
    a.hit? s (n + stop) = .ok (found.map (·.shift n)) := by
  apply hit?_eq_ok_iff.mpr
  obtain ⟨state, hstate, ⟨hids, rfl⟩ | ⟨id, ids, p, hids, hp, hle, rfl⟩⟩ := hit?_eq_ok_iff.mp h
  · exact ⟨state, hstate, Or.inl ⟨hids, rfl⟩⟩
  · refine ⟨state, hstate, Or.inr ⟨id, ids, p, hids, hp, hle.trans (Nat.le_add_left stop n), ?_⟩⟩
    rw [Nat.add_sub_assoc hle]
    rfl

/-- Where a scan starts to count does not matter, if it meets no fault. -/
theorem scan_shift (ha : a.prefilter = none) (h : a.scan search s offset text = .ok found)
    (n : Nat) : a.scan search s (n + offset) text = .ok (found.map (·.shift n)) := by
  induction text generalizing s offset with
  | nil =>
    rw [scan_nil, Except.ok.injEq] at h
    rw [scan_nil, ← h, Option.map_none]
  | cons b text ih =>
    apply (scan_cons_eq_ok_iff ha).mpr
    obtain ⟨reached, hnext, ⟨hit, hhit, rfl⟩ | ⟨hnone, hlater⟩⟩ := (scan_cons_eq_ok_iff ha).mp h
    · exact ⟨reached, hnext, Or.inl ⟨hit.shift n, hit?_shift hhit n, rfl⟩⟩
    · exact ⟨reached, hnext, Or.inr ⟨hit?_shift hnone n, ih hlater⟩⟩

/-! ## Scans across a foreign byte -/

theorem next_ofLiveStrings_foreign (hn : Numbering (livePaths patterns)) (c : Config)
    (hb : Foreign patterns b) (hw : isLive patterns w = true) :
    (ofLiveStrings c patterns).next (.ofPath (livePaths patterns) w) b = .ok .root := by
  rw [next_ofLiveStrings hn c hw, hb.liveSuffix_append, hn.ofPath_nil]

theorem hit?_ofLiveStrings_root (hn : Numbering (livePaths patterns)) (c : Config)
    (hnil : [] ∉ patterns) (stop : Nat) :
    (ofLiveStrings c patterns).hit? .root stop = .ok none := by
  have hroot := hit?_ofLiveStrings hn c (isLive_nil patterns) (Nat.zero_le stop)
  rw [hn.ofPath_nil, acceptedHit?, acceptedIds_nil, idxsOf_eq_nil_iff.mpr hnil] at hroot
  exact hroot

/-- A scan starts over behind a foreign byte. -/
theorem scan_foreign (hn : Numbering (livePaths patterns)) (c : Config) (hnil : [] ∉ patterns)
    (hb : Foreign patterns b) (hw : isLive patterns w = true) (offset : Nat) (y : Bytes) :
    (ofLiveStrings (c.withPrefilter false) patterns).scan search (.ofPath (livePaths patterns) w)
        offset (b :: y)
      = (ofLiveStrings (c.withPrefilter false) patterns).scan search .root (offset + 1) y := by
  rw [scan_cons rfl, read, next_ofLiveStrings_foreign hn _ hb hw, ok_bind,
    hit?_ofLiveStrings_root hn _ hnil, ok_bind]

theorem find_append_foreign {first second : Option Hit} (hn : Numbering (livePaths patterns))
    (hnil : [] ∉ patterns) (hb : Foreign patterns b)
    (hx : (ofLiveStrings c patterns).find x = .ok first)
    (hy : (ofLiveStrings c patterns).find y = .ok second) :
    (ofLiveStrings c patterns).find (x ++ [b] ++ y)
      = .ok (first.or (second.map (·.shift (x.length + 1)))) := by
  rw [find_withPrefilter hn, find, findWith] at hx hy ⊢
  rw [List.append_assoc, List.singleton_append, scan_append rfl, hx, ok_bind]
  rcases first with _ | hit
  · have hwalk := walk_ofPath hn (c.withPrefilter false) (isLive_nil patterns) x
    rw [hn.ofPath_nil, List.nil_append] at hwalk
    have hshift := scan_shift rfl hy (x.length + 1)
    dsimp only
    rw [hwalk, ok_bind, scan_foreign hn c hnil hb (isLive_liveSuffix patterns x),
      Nat.zero_add, Option.none_or]
    exact hshift
  · rfl

/-! ## Texts in parts -/

/-- Searches the parts of a text one by one, and stops at the first hit. The first part stands at
the offset `offset` of the text, and there is one byte between any two parts. -/
def findInParts (search : Search) (a : Automaton) : (offset : Nat) → List Bytes →
    Checked (Option Hit)
  | _, [] => .ok none
  | offset, part :: parts => do
    match ← a.findWith search part with
    | some hit => .ok (some (hit.shift offset))
    | none => findInParts search a (offset + part.length + 1) parts

theorem findInParts_intercalate (hn : Numbering (livePaths patterns)) (c : Config)
    (hnil : [] ∉ patterns) (hb : Foreign patterns b) (offset : Nat) (parts : List Bytes) :
    ∃ found, (ofLiveStrings c patterns).find ([b].intercalate parts) = .ok found ∧
      (ofLiveStrings c patterns).findInParts Prefilter.next? offset parts
        = .ok (found.map (·.shift offset)) := by
  induction parts generalizing offset with
  | nil => exact ⟨none, scan_nil _ _ _ _, rfl⟩
  | cons x parts ih =>
    obtain ⟨first, hx⟩ : ∃ found, (ofLiveStrings c patterns).find x = .ok found :=
      ⟨_, find_ofLiveStrings hn c x⟩
    obtain ⟨later, hlater, hparts⟩ := ih (offset + x.length + 1)
    rw [findInParts, ← find, hx, ok_bind, hparts]
    rcases parts with _ | ⟨y, parts⟩
    · obtain rfl : none = later := Except.ok.inj ((scan_nil _ _ _ _).symm.trans hlater)
      refine ⟨first, ?_, ?_⟩
      · rwa [List.intercalate_singleton]
      · rcases first with _ | hit <;> rfl
    · refine ⟨first.or (later.map (·.shift (x.length + 1))), ?_, ?_⟩
      · rw [List.intercalate_cons_cons]
        exact find_append_foreign hn hnil hb hx hlater
      · rcases first with _ | hit
        · simp [Function.comp_def, Hit.shift_shift, Nat.add_assoc]
        · rfl

/-- **A foreign byte splits a scan.** It takes every state to the root. If the empty pattern is not
among the patterns, then the first hit of a text with a foreign byte is the first hit in front of
it, or else the first hit behind it, at its place in the whole text. So a text whose parts are
joined by a foreign byte can be searched part by part. -/
theorem findWith_build_foreign (hsearch : search.Leftmost)
    (h : (build c patterns).result = .ok a) (hnil : [] ∉ patterns) (hb : Foreign patterns b) :
    (∀ s, s.index < a.stateCount → a.next s b = .ok .root) ∧
      (∀ x y, ∃ first second, a.findWith search x = .ok first ∧ a.findWith search y = .ok second ∧
        a.findWith search (x ++ [b] ++ y)
          = .ok (first.or (second.map (·.shift (x.length + 1))))) ∧
      ∀ parts, ∃ found, a.findWith search ([b].intercalate parts) = .ok found ∧
        a.findInParts search 0 parts = .ok found := by
  obtain rfl := hsearch.eq_next?
  obtain ⟨-, hn, rfl⟩ := build_eq_ok_iff.mp h
  refine ⟨fun s hs ↦ ?_, fun x y ↦ ?_, fun parts ↦ ?_⟩
  · obtain ⟨w, hw, rfl⟩ := exists_ofPath_of_lt hn hs
    exact next_ofLiveStrings_foreign hn c hb hw
  · have hx := find_ofLiveStrings hn c x
    have hy := find_ofLiveStrings hn c y
    exact ⟨_, _, hx, hy, find_append_foreign hn hnil hb hx hy⟩
  · obtain ⟨found, hfound, hparts⟩ := findInParts_intercalate hn c hnil hb 0 parts
    simp only [Hit.shift_zero, Option.map_id'] at hparts
    exact ⟨found, hfound, hparts⟩

theorem findWith_build_foreign_lines :
    ∃ a, (build .default [[97, 98], [98, 99]]).result = .ok a ∧ a.hasPrefilter = true ∧
      Foreign [[97, 98], [98, 99]] 10 ∧ a.next ⟨1⟩ 10 = .ok .root ∧
      a.find [97, 10, 98, 99] = .ok (some ⟨1, 2, 4⟩) := by
  have hbuild : (build .default [[97, 98], [98, 99]]).result = .ok (ofLiveStrings .default _) :=
    build_of_ofPatterns rfl
  have hb : Foreign [[97, 98], [98, 99]] 10 := by
    simp [Foreign]
  obtain ⟨hroot, hsplit, -⟩ :=
    findWith_build_foreign Prefilter.leftmost_next? hbuild (by decide) hb
  obtain ⟨first, second, hfirst, hsecond, hfind⟩ := hsplit [97] [98, 99]
  have hn := (build_eq_ok_iff.mp hbuild).2.1
  obtain rfl : none = first :=
    Except.ok.inj ((find_ofLiveStrings_of_not_inherit hn rfl _).symm.trans hfirst)
  obtain rfl : some ⟨1, 0, 2⟩ = second :=
    Except.ok.inj ((find_ofLiveStrings_of_not_inherit hn rfl _).symm.trans hsecond)
  exact ⟨_, hbuild, rfl, hb, hroot ⟨1⟩ (by decide), hfind⟩

end Automaton

end FirstHit
