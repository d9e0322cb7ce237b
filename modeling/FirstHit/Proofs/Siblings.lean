import FirstHit.Proofs.Compilation

/-!
# The order of siblings

The visit that sets links takes the children of a state in the order of their bytes. Nothing but the
order of the visit comes of that. A link is found along the links of shallower states, and these are
final whatever comes first among the children of one state or of two states of the same depth; what
a state inherits and what a row of the table copies stands at shallower states, too.

Here the children of every state are taken in an order of their own (`Arrangement`). The linked trie
has a closed form that does not mention the order, and so does everything that is made of it.
-/

namespace FirstHit

variable {c : Config} {patterns : List Bytes}

theorem Frontier.perm_map_ofPath {order other : List Bytes} (hf : Frontier patterns order [])
    (ho : Frontier patterns other []) (hn : Numbering (livePaths patterns)) :
    (order.map (StateId.ofPath (livePaths patterns))).Perm
      (other.map (StateId.ofPath (livePaths patterns))) := by
  rw [List.perm_ext_iff_of_nodup (hf.nodup_map_ofPath hn) (ho.nodup_map_ofPath hn)]
  intro s
  rw [hf.mem_map_ofPath_iff hn, ho.mem_map_ofPath_iff hn]

namespace Trie

/-- **Siblings may be visited in any order.** However the edges of each state are rearranged,
linking succeeds and makes the same trie: all links are the same, and so is what the states accept,
whether or not they inherit. The table is the same, and so is the automaton that is put together,
with its prefilter or without. The visit meets the same states, and its order is all that may
differ. -/
theorem linkArranged_eq_link {t : Trie} (h : ofPatterns c patterns = .ok t) (inherit : Bool)
    (arrange : Arrangement) (harrange : ∀ s edges, (arrange s edges).Perm edges) :
    ∃ sorted arranged table, t.link inherit = .ok sorted ∧
      t.linkArranged inherit arrange = .ok arranged ∧
      arranged.trie = sorted.trie ∧ arranged.order.Perm sorted.order ∧
      sorted.table = .ok table ∧ arranged.table = .ok table ∧
      ∀ wanted, ∃ a, Automaton.ofParts sorted.states table patterns.toArray wanted = .ok a ∧
        Automaton.ofParts arranged.states table patterns.toArray wanted = .ok a := by
  obtain ⟨hn, rfl⟩ := ofPatterns_eq_ofLiveStrings h
  obtain ⟨order, hf, hlink⟩ := linkArranged_ofLiveStrings hn inherit (fun _ edges ↦ edges)
    fun _ edges ↦ .refl edges
  obtain ⟨other, ho, harranged⟩ := linkArranged_ofLiveStrings hn inherit arrange harrange
  refine ⟨_, _, liveTable patterns, hlink, harranged, rfl, ho.perm_map_ofPath hf hn,
    LinkedTrie.table_linkedTrie hn hf inherit, LinkedTrie.table_linkedTrie hn ho inherit,
    fun wanted ↦ ?_⟩
  have hparts := Automaton.ofParts_ofLiveStrings hn
    { inheritSuffixMatches := inherit, prefilter := wanted }
  rw [states_linkedTrie, states_linkedTrie]
  exact ⟨_, hparts, hparts⟩

/-- The patterns `ab`, `ac` and `b`, with the children of every state from the last to the first.
The visit takes `ac` before `ab`. -/
theorem linkArranged_eq_link_reversed :
    ∃ t sorted arranged, ofPatterns .default [[97, 98], [97, 99], [98]] = .ok t ∧
      t.link true = .ok sorted ∧ t.linkArranged true (fun _ edges ↦ edges.reverse) = .ok arranged ∧
      arranged.trie = sorted.trie ∧ arranged.order = [⟨0⟩, ⟨1⟩, ⟨4⟩, ⟨3⟩, ⟨2⟩] := by
  have ht : ofPatterns .default [[97, 98], [97, 99], [98]]
      = .ok (ofLiveStrings [[97, 98], [97, 99], [98]]) := rfl
  obtain ⟨sorted, arranged, -, hlink, harranged, htrie, -⟩ :=
    linkArranged_eq_link ht true (fun _ edges ↦ edges.reverse) fun _ edges ↦ edges.reverse_perm
  have horder : LinkedTrie.order <$> (ofLiveStrings [[97, 98], [97, 99], [98]]).linkArranged true
      (fun _ edges ↦ edges.reverse) = .ok [⟨0⟩, ⟨1⟩, ⟨4⟩, ⟨3⟩, ⟨2⟩] := rfl
  rw [harranged] at horder
  exact ⟨_, sorted, arranged, ht, hlink, harranged, htrie, Except.ok.inj horder⟩

end Trie

end FirstHit
