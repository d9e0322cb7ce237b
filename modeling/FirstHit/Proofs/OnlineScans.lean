import FirstHit.Proofs.FirstHits

/-!
# Scans are online

A scan of a text in two parts is a scan of the first part and, unless that ends it, a scan of the
second part from the state that the first part leads to (`Automaton.scan_append`). A hit stops where
the scan has read to. So the scan of a part from the left reports what the scan of the whole text
reports, if that stops inside the part, and nothing otherwise (`Automaton.scan_of_append`): a hit is
final when it is found, and what comes behind it is never looked at.

The loop that jumps does look ahead, since it searches all that is left of the text for the next
byte that leaves the root, and it may give up before it comes to the end. All this is therefore
stated of scans that read every byte, and carried over to those that jump by way of their equal
answers.
-/

namespace FirstHit

namespace Automaton

variable {search : Search} {c : Config} {patterns : List Bytes} {a : Automaton} {s : StateId}
  {offset stop : Nat} {text x y : Bytes} {hit : Hit} {found : Option Hit}

/-! ## One step of a scan -/

theorem hit?_eq_ok_iff :
    a.hit? s stop = .ok found ↔ ∃ state, a.state s = .ok state ∧
      (state.ids = [] ∧ found = none ∨
        ∃ id ids p, state.ids = id :: ids ∧ a.pattern id = .ok p ∧ p.length ≤ stop ∧
          found = some ⟨id, stop - p.length, stop⟩) := by
  constructor
  · intro h
    obtain ⟨state, hstate, h⟩ := bind_eq_ok_iff.mp h
    refine ⟨state, hstate, ?_⟩
    rcases hids : state.ids with _ | ⟨id, ids⟩
    · rw [hids] at h
      exact Or.inl ⟨rfl, (Except.ok.inj h).symm⟩
    · rw [hids] at h
      obtain ⟨p, hp, h⟩ := bind_eq_ok_iff.mp h
      by_cases hle : p.length ≤ stop
      · rw [if_pos hle] at h
        exact Or.inr ⟨id, ids, p, rfl, hp, hle, (Except.ok.inj h).symm⟩
      · rw [if_neg hle] at h
        cases h
  · rintro ⟨state, hstate, ⟨hids, rfl⟩ | ⟨id, ids, p, hids, hp, hle, rfl⟩⟩
    · rw [hit?, hstate, ok_bind, hids]
    · rw [hit?, hstate, ok_bind, hids]
      dsimp only
      rw [hp, ok_bind, if_pos hle]

theorem stop_of_hit? (h : a.hit? s stop = .ok (some hit)) : hit.stop = stop := by
  obtain ⟨state, -, ⟨-, hnone⟩ | ⟨id, ids, p, -, -, -, hsome⟩⟩ := hit?_eq_ok_iff.mp h
  · cases hnone
  · rw [Option.some_inj.mp hsome]

theorem scan_cons_eq_ok_iff (ha : a.prefilter = none) {b : UInt8} :
    a.scan search s offset (b :: text) = .ok found ↔ ∃ reached, a.next s b = .ok reached ∧
      ((∃ hit, a.hit? reached (offset + 1) = .ok (some hit) ∧ found = some hit) ∨
        a.hit? reached (offset + 1) = .ok none ∧
          a.scan search reached (offset + 1) text = .ok found) := by
  rw [scan_cons ha, read, bind_eq_ok_iff]
  simp only [bind_eq_ok_iff]
  constructor
  · rintro ⟨reached, hnext, _ | hit, hhit, h⟩
    · exact ⟨reached, hnext, Or.inr ⟨hhit, h⟩⟩
    · exact ⟨reached, hnext, Or.inl ⟨hit, hhit, (Except.ok.inj h).symm⟩⟩
  · rintro ⟨reached, hnext, ⟨hit, hhit, rfl⟩ | ⟨hhit, h⟩⟩
    · exact ⟨reached, hnext, some hit, hhit, rfl⟩
    · exact ⟨reached, hnext, none, hhit, h⟩

/-! ## Texts in two parts -/

/-- A scan that reads `x` without a hit goes on with `y` where it is. -/
theorem scan_append (ha : a.prefilter = none) (s : StateId) (offset : Nat) (x y : Bytes) :
    a.scan search s offset (x ++ y) = (do
      match ← a.scan search s offset x with
      | some hit => .ok (some hit)
      | none =>
        let reached ← a.walk s x
        a.scan search reached (offset + x.length) y) := by
  induction x generalizing s offset with
  | nil => rw [scan_nil]; rfl
  | cons b x ih =>
    have hoffset : offset + (b :: x).length = offset + 1 + x.length := by
      rw [List.length_cons]
      omega
    rw [List.cons_append, scan_cons ha, scan_cons ha, read, read, walk, List.foldlM_cons, hoffset]
    -- a fault ends both scans, and so does a hit
    rcases a.next s b with cause | reached
    · rfl
    · simp only [ok_bind]
      rcases a.hit? reached (offset + 1) with cause | _ | hit
      · rfl
      · exact ih reached (offset + 1)
      · rfl

theorem stop_of_scan (ha : a.prefilter = none)
    (h : a.scan search s offset text = .ok (some hit)) :
    offset < hit.stop ∧ hit.stop ≤ offset + text.length := by
  induction text generalizing s offset with
  | nil => simp at h
  | cons b text ih =>
    rw [List.length_cons]
    obtain ⟨reached, -, ⟨first, hfirst, hsame⟩ | ⟨-, hlater⟩⟩ := (scan_cons_eq_ok_iff ha).mp h
    · have hstop := stop_of_hit? hfirst
      rw [Option.some_inj.mp hsame]
      omega
    · have hstop := ih hlater
      omega

/-! ## Parts of a text -/

theorem scan_append_of_some (ha : a.prefilter = none)
    (h : a.scan search s offset x = .ok (some hit)) (y : Bytes) :
    a.scan search s offset (x ++ y) = .ok (some hit) := by
  rw [scan_append ha, h, ok_bind]

theorem scan_of_append (ha : a.prefilter = none)
    (h : a.scan search s offset (x ++ y) = .ok found) :
    a.scan search s offset x = .ok (found.filter fun hit ↦ hit.stop ≤ offset + x.length) := by
  rw [scan_append ha] at h
  obtain ⟨first, hfirst, h⟩ := bind_eq_ok_iff.mp h
  rw [hfirst]
  apply congrArg Except.ok
  rcases first with _ | first
  · -- what is found in the second part stops behind the first
    obtain ⟨reached, -, h⟩ := bind_eq_ok_iff.mp h
    symm
    rw [Option.filter_eq_none_iff]
    rintro hit rfl
    have hstop := (stop_of_scan ha h).1
    simpa using hstop
  · have hstop := (stop_of_scan ha hfirst).2
    obtain rfl : some first = found := Except.ok.inj h
    rw [Option.filter_some, if_pos (decide_eq_true hstop)]

/-- However a text is cut, a scan of the left part finds what a scan of the text finds there. -/
theorem scan_take (ha : a.prefilter = none) (h : a.scan search s offset text = .ok found)
    (k : Nat) :
    a.scan search s offset (text.take k)
      = .ok (found.filter fun hit ↦ hit.stop ≤ offset + (text.take k).length) := by
  rw [← List.take_append_drop k text] at h
  exact scan_of_append ha h

/-! ## Built automata -/

/-- **A scan is online.** A hit depends on the text up to its end only: whatever follows there, the
hit is the same, and no text that is cut off before has a hit. Where nothing is found in a text,
nothing is found in what is left of it when it is cut off. This holds with and without jumps. -/
theorem findWith_online (hsearch : search.Leftmost) (h : (build c patterns).result = .ok a)
    (text : Bytes) :
    ∃ found, a.findWith search text = .ok found ∧
      (∀ hit, found = some hit → hit.stop ≤ text.length ∧
        (∀ more, a.findWith search (text.take hit.stop ++ more) = .ok (some hit)) ∧
        ∀ k < hit.stop, a.findWith search (text.take k) = .ok none) ∧
      (found = none → ∀ k, a.findWith search (text.take k) = .ok none) := by
  obtain rfl := hsearch.eq_next?
  obtain ⟨found, hfound⟩ := exists_find_build h text
  obtain ⟨-, hn, rfl⟩ := build_eq_ok_iff.mp h
  have hsteps : ∀ text, (ofLiveStrings c patterns).findWith Prefilter.next? text
      = (ofLiveStrings (c.withPrefilter false) patterns).scan Prefilter.next? .root 0 text :=
    find_withPrefilter hn c
  refine ⟨found, hfound, ?_, ?_⟩
  · rintro hit rfl
    rw [find, hsteps] at hfound
    have hstop := (stop_of_scan rfl hfound).2
    rw [Nat.zero_add] at hstop
    refine ⟨hstop, fun more ↦ ?_, fun k hk ↦ ?_⟩
    · have hcut := scan_take rfl hfound hit.stop
      rw [Option.filter_some_pos (by simp [hstop])] at hcut
      rw [hsteps]
      exact scan_append_of_some rfl hcut more
    · have hcut := scan_take rfl hfound k
      have hshort : ¬hit.stop ≤ 0 + (text.take k).length := by
        rw [List.length_take]
        omega
      rw [Option.filter_some, if_neg (mt of_decide_eq_true hshort)] at hcut
      rw [hsteps, hcut]
  · rintro rfl k
    rw [find, hsteps] at hfound
    rw [hsteps, scan_take rfl hfound k, Option.filter_none]

theorem findWith_online_jumping :
    ∃ a, (build .default [[97, 98, 99, 100], [98, 99]]).result = .ok a ∧
      a.hasPrefilter = true ∧
      a.find [120, 98, 99, 120, 97] = .ok (some ⟨1, 1, 3⟩) ∧
      a.find [120, 98, 99, 97, 98, 99, 100] = .ok (some ⟨1, 1, 3⟩) ∧
      a.find [120, 98] = .ok none := by
  have hbuild : (build .default [[97, 98, 99, 100], [98, 99]]).result
      = .ok (ofLiveStrings .default _) := build_of_ofPatterns rfl
  obtain ⟨found, hfound, hcut, -⟩ :=
    findWith_online Prefilter.leftmost_next? hbuild [120, 98, 99, 120, 97]
  have hfind : (ofLiveStrings .default [[97, 98, 99, 100], [98, 99]]).find [120, 98, 99, 120, 97]
      = .ok (some ⟨1, 1, 3⟩) :=
    find_ofLiveStrings_of_not_inherit (build_eq_ok_iff.mp hbuild).2.1 rfl _
  obtain rfl : some ⟨1, 1, 3⟩ = found := Except.ok.inj (hfind.symm.trans hfound)
  obtain ⟨-, hmore, hless⟩ := hcut _ rfl
  exact ⟨_, hbuild, rfl, hfound, hmore [97, 98, 99, 100], hless 2 (by decide)⟩

end Automaton

end FirstHit
