import FirstHit.Links
import FirstHit.Proofs.Frontier
import FirstHit.Proofs.Insertion

/-!
# Failure links in closed form

The breadth-first pass sets the link of one state after another. In between, some states are linked
and the others are not, and that is all there is to know: a linked state has the link and the
patterns that it keeps to the end, and the others are as insertion left them (`Trie.linkedAt`). The
pass enlarges the set of linked strings until it holds all live strings.

The link of a state leads to the longest proper live suffix of its string. For a child it is found
by a chase along the links of its parent (`Trie.chase_linkedAt`), which needs the strings that are
no longer than the parent to be linked. A breadth-first visit guarantees this, in whatever order it
takes the children of one state, so the result does not depend on that order
(`Trie.linkArranged_ofLiveStrings`).
-/

namespace FirstHit

variable {patterns linked visited queue : List Bytes} {inherit : Bool} {v w : Bytes} {b : UInt8}
  {bs : List UInt8}

/-! ## Nodes -/

/-- The edges of the node of `w` once the root has an edge on every byte. -/
def closedEdges (patterns : List Bytes) (w : Bytes) : List Edge :=
  if w = [] then Byte.all.map fun b ↦ (b, .ofPath (livePaths patterns) (liveSuffix patterns [b]))
  else branches (livePaths patterns) w

/-- The node of `w` before its link is set. -/
def closedNode (patterns : List Bytes) (w : Bytes) : Node where
  edges := closedEdges patterns w
  depth := UInt32.ofNat w.length
  ids := patterns.idxsOf w

/-- The node of `w` with its link, and with what it inherits. -/
def linkedNode (inherit : Bool) (patterns : List Bytes) (w : Bytes) : Node where
  edges := closedEdges patterns w
  fail := .ofPath (livePaths patterns) (liveSuffix patterns w.tail)
  depth := UInt32.ofNat w.length
  ids := acceptedIds inherit patterns w

theorem edge?_root (patterns : List Bytes) (b : UInt8) :
    (linkedNode inherit patterns []).edge? b
      = some (.ofPath (livePaths patterns) (liveSuffix patterns [b])) := by
  rw [Node.edge?, linkedNode, closedEdges, if_pos rfl, Edge.lookup_map, if_pos (Byte.mem_all b)]

theorem edge?_linkedNode (hw : w ≠ []) (b : UInt8) :
    (linkedNode inherit patterns w).edge? b
      = if isLive patterns (w ++ [b]) = true then some (.ofPath (livePaths patterns) (w ++ [b]))
        else none := by
  rw [Node.edge?, linkedNode, closedEdges, if_neg hw, branches, Edge.lookup_map]
  simp only [mem_growing, mem_livePaths]

theorem linkedNode_nil (hn : Numbering (livePaths patterns)) :
    linkedNode inherit patterns [] = closedNode patterns [] := by
  rw [linkedNode, closedNode, List.tail_nil, liveSuffix_nil, hn.ofPath_nil, acceptedIds_nil]

theorem toNat_depth_linkedNode (inherit : Bool) (hn : Numbering (livePaths patterns))
    (hw : isLive patterns w = true) :
    (linkedNode inherit patterns w).depth.toNat = w.length :=
  UInt32.toNat_ofNat_of_lt' (Nat.lt_of_lt_of_le (length_lt_length_livePaths hw) hn.length_le)

/-- The node of `w` while the strings in `linked` are linked and the others are not. -/
def nodeAt (inherit : Bool) (patterns linked : List Bytes) (w : Bytes) : Node :=
  if linked.contains w then linkedNode inherit patterns w else closedNode patterns w

theorem nodeAt_of_mem (hl : w ∈ linked) :
    nodeAt inherit patterns linked w = linkedNode inherit patterns w := by
  rw [nodeAt, if_pos (List.contains_iff_mem.mpr hl)]

theorem nodeAt_of_notMem (hl : w ∉ linked) :
    nodeAt inherit patterns linked w = closedNode patterns w := by
  rw [nodeAt, if_neg (hl ∘ List.contains_iff_mem.mp)]

namespace Trie

/-- The trie in which the strings in `linked` are linked and the others are not. -/
def linkedAt (inherit : Bool) (patterns linked : List Bytes) : Trie :=
  ofPaths (livePaths patterns) (nodeAt inherit patterns linked)

/-- The trie in which all strings are linked. -/
def linkedTrie (inherit : Bool) (patterns : List Bytes) : Trie :=
  ofPaths (livePaths patterns) (linkedNode inherit patterns)

theorem node_linkedAt (hn : Numbering (livePaths patterns)) (hw : isLive patterns w = true)
    (hl : w ∈ linked) :
    (linkedAt inherit patterns linked).node (.ofPath (livePaths patterns) w)
      = .ok (linkedNode inherit patterns w) := by
  rw [linkedAt, node_ofPaths hn (mem_livePaths.mpr hw), nodeAt_of_mem hl]

theorem linkedAt_eq_linkedTrie (h : ∀ w, isLive patterns w = true → w ∈ linked) :
    linkedAt inherit patterns linked = linkedTrie inherit patterns :=
  ofPaths_congr fun w hw ↦ nodeAt_of_mem (h w (mem_livePaths.mp hw))

/-! ## One link -/

theorem linkedAt_append_singleton (patterns linked : List Bytes) (w : Bytes) :
    ofPaths (livePaths patterns)
        (Function.update (nodeAt inherit patterns linked) w (linkedNode inherit patterns w))
      = linkedAt inherit patterns (linked ++ [w]) := by
  refine ofPaths_congr fun v _ ↦ ?_
  by_cases hv : v = w
  · subst hv
    rw [Function.update_self, nodeAt_of_mem (List.mem_append_right _ (List.mem_singleton_self v))]
  · rw [Function.update_of_ne hv]
    by_cases hl : v ∈ linked
    · rw [nodeAt_of_mem hl, nodeAt_of_mem (List.mem_append_left _ hl)]
    · rw [nodeAt_of_notMem hl, nodeAt_of_notMem]
      rw [List.mem_append, List.mem_singleton, not_or]
      exact ⟨hl, hv⟩

/-- Setting the link of a string whose target is linked links the string. -/
theorem setFail_linkedAt (hn : Numbering (livePaths patterns)) (hw : isLive patterns w = true)
    (hne : w ≠ []) (hl : w ∉ linked) (htarget : liveSuffix patterns w.tail ∈ linked) :
    (linkedAt inherit patterns linked).setFail inherit (.ofPath (livePaths patterns) w)
        (.ofPath (livePaths patterns) (liveSuffix patterns w.tail))
      = .ok (linkedAt inherit patterns (linked ++ [w])) := by
  have hmem := mem_livePaths.mpr hw
  have htlive := isLive_liveSuffix patterns w.tail
  have htmem := mem_livePaths.mpr htlive
  have htne : liveSuffix patterns w.tail ≠ w := fun h ↦
    (length_liveSuffix_tail_lt patterns hne).ne (congrArg List.length h)
  rw [setFail, linkedAt, update_ofPaths hn hmem, ok_bind, nodeAt_of_notMem hl]
  cases inherit with
  | false =>
    rw [if_neg (by simp)]
    exact congrArg _ (linkedAt_append_singleton patterns linked w)
  | true =>
    have hcond : true = true ∧ StateId.ofPath (livePaths patterns) (liveSuffix patterns w.tail)
        ≠ .ofPath (livePaths patterns) w :=
      ⟨rfl, fun h ↦ htne ((hn.ofPath_inj htmem hmem).mp h)⟩
    rw [if_pos hcond, node_ofPaths hn htmem, Function.update_of_ne htne, nodeAt_of_mem htarget,
      ok_bind, update_ofPaths hn hmem, Function.update_self, Function.update_idem,
      ← linkedAt_append_singleton]
    congr 3
    rw [linkedNode, linkedNode, closedNode, acceptedIds_true patterns hne]

/-! ## The chase -/

/-- A chase for `b` that starts at a linked string ends at the longest live suffix of what follows
its first byte and grows by `b`. It visits shorter strings only, so these have to be linked. -/
theorem chase_linkedAt (hn : Numbering (livePaths patterns)) {bound : Nat}
    (hl : ∀ v, isLive patterns v = true → v.length ≤ w.length → v ∈ linked)
    (hw : isLive patterns w = true) (hne : w ≠ []) (hbound : w.length ≤ bound) (b : UInt8) :
    (linkedAt inherit patterns linked).chase b bound (.ofPath (livePaths patterns) w)
      = .ok (.ofPath (livePaths patterns) (liveSuffix patterns (w.tail ++ [b]))) := by
  induction bound generalizing w with
  | zero => exact absurd (List.length_eq_zero_iff.mp (Nat.le_zero.mp hbound)) hne
  | succ bound ih =>
    have hlt := length_liveSuffix_tail_lt patterns hne
    have htlive := isLive_liveSuffix patterns w.tail
    rw [chase, node_linkedAt hn hw (hl w hw (Nat.le_refl _)), ok_bind, liveSuffix_append]
    generalize hv : liveSuffix patterns w.tail = v at hlt htlive
    have hfail : (linkedNode inherit patterns w).fail = .ofPath (livePaths patterns) v := by
      rw [linkedNode, hv]
    rw [hfail, node_linkedAt hn htlive (hl v htlive hlt.le), ok_bind]
    -- at the root the chase ends in any case, elsewhere only if the fallback can grow by `b`
    by_cases hvne : v = []
    · rw [hvne, edge?_root, List.nil_append]
    · rw [edge?_linkedNode hvne]
      by_cases hgrow : isLive patterns (v ++ [b]) = true
      · rw [if_pos hgrow, liveSuffix_eq_self hgrow]
      · rw [if_neg hgrow, liveSuffix_append_of_not_isLive hvne hgrow, ← liveSuffix_append]
        exact ih (fun u hu hle ↦ hl u hu (hle.trans hlt.le)) htlive hvne (by omega)

theorem linkChild_linkedAt (hn : Numbering (livePaths patterns))
    (hl : ∀ v, isLive patterns v = true → v.length ≤ w.length → v ∈ linked) (hne : w ≠ [])
    (hchild : isLive patterns (w ++ [b]) = true) (hnew : w ++ [b] ∉ linked) :
    linkChild inherit (.ofPath (livePaths patterns) w) (linkedAt inherit patterns linked)
        (b, .ofPath (livePaths patterns) (w ++ [b]))
      = .ok (linkedAt inherit patterns (linked ++ [w ++ [b]])) := by
  have hw := isLive_of_append hchild
  have htail : (w ++ [b]).tail = w.tail ++ [b] := List.tail_append_of_ne_nil hne
  have htarget : liveSuffix patterns (w ++ [b]).tail ∈ linked := by
    refine hl _ (isLive_liveSuffix patterns _) ((length_liveSuffix_le patterns _).trans ?_)
    rw [List.length_tail, List.length_append, List.length_singleton, Nat.add_sub_cancel]
  rw [linkChild, node_linkedAt hn hw (hl w hw (Nat.le_refl _)), ok_bind,
    toNat_depth_linkedNode inherit hn hw, chase_linkedAt hn hl hw hne (Nat.le_refl _), ok_bind,
    ← htail]
  exact setFail_linkedAt hn hchild (by simp) hnew htarget

/-! ## The visit -/

theorem foldlM_linkedAt {α : Type} {step : Trie → α → Checked Trie} {item : UInt8 → α}
    (hnodup : (linked ++ bs.map fun b ↦ w ++ [b]).Nodup)
    (hstep : ∀ more b, b ∈ bs → w ++ [b] ∉ linked ++ more →
      step (linkedAt inherit patterns (linked ++ more)) (item b)
        = .ok (linkedAt inherit patterns (linked ++ more ++ [w ++ [b]]))) :
    (bs.map item).foldlM step (linkedAt inherit patterns linked)
      = .ok (linkedAt inherit patterns (linked ++ bs.map fun b ↦ w ++ [b])) := by
  induction bs generalizing linked with
  | nil =>
    rw [List.map_nil, List.map_nil, List.append_nil]
    rfl
  | cons b bs ih =>
    rw [List.map_cons, List.append_cons] at hnodup
    have hb : w ++ [b] ∉ linked := fun h ↦
      (List.nodup_append.mp (List.nodup_append.mp hnodup).1).2.2 _ h _
        (List.mem_singleton_self _) rfl
    have hfirst := hstep [] b List.mem_cons_self (by rwa [List.append_nil])
    simp only [List.append_nil] at hfirst
    rw [List.map_cons, List.foldlM_cons, hfirst, ok_bind, List.map_cons,
      List.append_cons linked _ (bs.map _)]
    refine ih hnodup fun more d hd hnew ↦ ?_
    rw [List.append_assoc linked] at hnew ⊢
    exact hstep _ d (List.mem_cons_of_mem b hd) hnew

theorem exists_perm_of_perm_map {edges : List Edge} {target : UInt8 → StateId}
    (h : edges.Perm (bs.map fun b ↦ (b, target b))) :
    ∃ ds : List UInt8, ds.Perm bs ∧ edges = ds.map fun b ↦ (b, target b) := by
  refine ⟨edges.map Prod.fst, ?_, ?_⟩
  · have hfst := h.map Prod.fst
    have hid : Prod.fst ∘ (fun b ↦ (b, target b)) = id := rfl
    rwa [List.map_map, hid, List.map_id] at hfst
  · rw [List.map_map]
    refine (List.map_id edges).symm.trans (List.map_congr_left fun e he ↦ ?_)
    obtain ⟨b, -, rfl⟩ := List.mem_map.mp (h.mem_iff.mp he)
    rfl

theorem map_snd_edges (paths : List Bytes) (w : Bytes) (bs : List UInt8) :
    (bs.map fun b ↦ (b, StateId.ofPath paths (w ++ [b]))).map Prod.snd
      = (bs.map fun b ↦ w ++ [b]).map (.ofPath paths) := by
  rw [List.map_map, List.map_map]
  rfl

/-- The children of the head of the queue are linked, since all links that this needs are there. -/
theorem foldlM_linkChild (hn : Numbering (livePaths patterns))
    (hf : Frontier patterns visited (w :: queue)) (hne : w ≠ []) (hnodup : bs.Nodup)
    (hbs : ∀ b, b ∈ bs ↔ isLive patterns (w ++ [b]) = true) :
    (bs.map fun b ↦ (b, StateId.ofPath (livePaths patterns) (w ++ [b]))).foldlM
        (linkChild inherit (.ofPath (livePaths patterns) w))
        (linkedAt inherit patterns (visited ++ w :: queue))
      = .ok (linkedAt inherit patterns (visited ++ w :: queue ++ bs.map fun b ↦ w ++ [b])) := by
  have hnew := (hf.advance hnodup hbs).nodup
  rw [Frontier.append_visit] at hnew
  refine foldlM_linkedAt hnew fun more b hb hfresh ↦ ?_
  refine linkChild_linkedAt hn (fun v hv hle ↦ ?_) hne ((hbs b).mp hb) hfresh
  exact List.mem_append_left _ (hf.mem_of_length_le hv hle)

/-- **The visit links all strings**, and takes them in breadth-first order. -/
theorem visit_linkedAt (inherit : Bool) (hn : Numbering (livePaths patterns))
    {arrange : Arrangement} (harrange : ∀ s edges, (arrange s edges).Perm edges) {bound : Nat}
    (hf : Frontier patterns visited queue) (hnil : [] ∈ visited)
    (hbound : (livePaths patterns).length ≤ bound + visited.length) :
    ∃ later, Frontier patterns (visited ++ later) [] ∧
      visit inherit arrange bound (linkedAt inherit patterns (visited ++ queue))
          (queue.map (.ofPath (livePaths patterns)))
        = .ok { trie := linkedTrie inherit patterns
                order := later.map (.ofPath (livePaths patterns)) } := by
  induction bound generalizing visited queue with
  | zero =>
    -- each visit uses up a string, so the bound is used up only when no string is left
    have hle := hf.length_le
    obtain rfl : queue = [] := List.length_eq_zero_iff.mp (by omega)
    refine ⟨[], by rwa [List.append_nil], ?_⟩
    rw [List.append_nil, linkedAt_eq_linkedTrie fun w hw ↦ hf.mem_iff.mpr hw]
    rfl
  | succ bound ih =>
    cases queue with
    | nil =>
      refine ⟨[], by rwa [List.append_nil], ?_⟩
      rw [List.append_nil, linkedAt_eq_linkedTrie fun w hw ↦ hf.mem_iff.mpr hw]
      rfl
    | cons w queue =>
      have hmet : w ∈ visited ++ w :: queue := List.mem_append_right _ List.mem_cons_self
      have hne : w ≠ [] := by
        rintro rfl
        exact (List.nodup_append.mp hf.nodup).2.2 [] hnil [] List.mem_cons_self rfl
      have hnode : (linkedNode inherit patterns w).edges = branches (livePaths patterns) w := by
        rw [linkedNode, closedEdges, if_neg hne]
      obtain ⟨ds, hperm, hedges⟩ := exists_perm_of_perm_map
        (harrange (.ofPath (livePaths patterns) w) (branches (livePaths patterns) w))
      have hnodup : ds.Nodup := hperm.nodup_iff.mpr (nodup_growing _ w)
      have hds : ∀ b, b ∈ ds ↔ isLive patterns (w ++ [b]) = true := fun b ↦ by
        rw [hperm.mem_iff, mem_growing, mem_livePaths]
      obtain ⟨later, hlater, hvisit⟩ := ih (hf.advance hnodup hds)
        (List.mem_append_left _ hnil) (by
          rw [List.length_append, List.length_singleton]
          omega)
      refine ⟨w :: later, by rwa [List.append_cons], ?_⟩
      rw [List.map_cons, visit, node_linkedAt hn (hf.live hmet) hmet, ok_bind, hnode, hedges]
      dsimp only
      rw [foldlM_linkChild hn hf hne hnodup hds, ok_bind, map_snd_edges, ← List.map_append,
        ← Frontier.append_visit, hvisit]
      rfl

/-! ## All links -/

theorem closeRoot_ofLiveStrings (hn : Numbering (livePaths patterns)) :
    (ofLiveStrings patterns).closeRoot = .ok (linkedAt inherit patterns [[]]) := by
  rw [closeRoot, ofLiveStrings, plain, ← hn.ofPath_nil, update_ofPaths hn hn.nil_mem]
  refine congrArg _ (ofPaths_congr fun w _ ↦ ?_)
  by_cases hw : w = []
  · subst hw
    -- a byte that no pattern starts with leads back to the root: no suffix of it is live but `[]`
    rw [Function.update_self, nodeAt_of_mem (List.mem_singleton_self []), linkedNode_nil hn,
      closedNode, closedEdges, if_pos rfl]
    refine congrArg (fun edges ↦ Node.mk edges .root 0 (patterns.idxsOf [])) ?_
    refine List.map_congr_left fun b _ ↦ ?_
    rw [edge?_plainNode, List.nil_append]
    by_cases hb : isLive patterns [b] = true
    · rw [if_pos (mem_livePaths.mpr hb), liveSuffix_eq_self hb]
      rfl
    · rw [if_neg (hb ∘ mem_livePaths.mp), liveSuffix_cons_of_not_isLive hb]
      rfl
  · rw [Function.update_of_ne hw, nodeAt_of_notMem (hw ∘ List.mem_singleton.mp), plainNode,
      closedNode, closedEdges, if_neg hw]

/-- **Links in closed form.** Whatever the order in which the children of one state are taken, all
states get the links and the patterns of the closed form, and they are visited breadth first. -/
theorem linkArranged_ofLiveStrings (hn : Numbering (livePaths patterns)) (inherit : Bool)
    (arrange : Arrangement) (harrange : ∀ s edges, (arrange s edges).Perm edges) :
    ∃ order, Frontier patterns order [] ∧
      (ofLiveStrings patterns).linkArranged inherit arrange
        = .ok { trie := linkedTrie inherit patterns
                order := order.map (.ofPath (livePaths patterns)) } := by
  have hroot : (ofLiveStrings patterns).node (.ofPath (livePaths patterns) [])
      = .ok (plainNode (livePaths patterns) (patterns.idxsOf ·) []) := node_ofPaths hn hn.nil_mem _
  have hbs : ∀ b, b ∈ growing (livePaths patterns) [] ↔ isLive patterns ([] ++ [b]) = true :=
    fun b ↦ by rw [mem_growing, mem_livePaths]
  have hf := (Frontier.start patterns).advance (nodup_growing _ []) hbs
  rw [List.nil_append, List.nil_append] at hf
  have hlinked : (((growing (livePaths patterns) []).map fun b ↦ [] ++ [b]).map
        (StateId.ofPath (livePaths patterns))).foldlM
        (setFail inherit · · (.ofPath (livePaths patterns) [])) (linkedAt inherit patterns [[]])
      = .ok (linkedAt inherit patterns
          ([[]] ++ (growing (livePaths patterns) []).map fun b ↦ [] ++ [b])) := by
    rw [List.map_map]
    refine foldlM_linkedAt hf.nodup fun more b hb hnew ↦ ?_
    exact setFail_linkedAt hn ((hbs b).mp hb) (by simp) hnew (by simp)
  obtain ⟨later, hlater, hvisit⟩ := visit_linkedAt inherit hn harrange hf
    (List.mem_singleton_self []) (Nat.le_succ _)
  refine ⟨[[]] ++ later, hlater, ?_⟩
  rw [linkArranged, ← hn.ofPath_nil, hroot, ok_bind, closeRoot_ofLiveStrings hn, ok_bind,
    plainNode, branches, map_snd_edges, hlinked, ok_bind, ofLiveStrings, plain, size_ofPaths,
    hvisit, ok_bind, List.map_append, List.map_singleton]
  rfl

end Trie

/-! ## The order of the visit -/

namespace Frontier

variable {order : List Bytes} {s : StateId}

theorem nodup_map_ofPath (hf : Frontier patterns order []) (hn : Numbering (livePaths patterns)) :
    (order.map (StateId.ofPath (livePaths patterns))).Nodup := by
  have hnodup := hf.nodup
  rw [List.append_nil] at hnodup
  refine hnodup.map_on fun v hv w hw hvw ↦ ?_
  exact (hn.ofPath_inj (mem_livePaths.mpr (hf.mem_iff.mp hv))
    (mem_livePaths.mpr (hf.mem_iff.mp hw))).mp hvw

theorem mem_map_ofPath_iff (hf : Frontier patterns order [])
    (hn : Numbering (livePaths patterns)) :
    s ∈ order.map (StateId.ofPath (livePaths patterns)) ↔
      s.index < (livePaths patterns).length := by
  constructor
  · intro hs
    obtain ⟨w, hw, rfl⟩ := List.mem_map.mp hs
    exact hn.index_ofPath_lt (mem_livePaths.mpr (hf.mem_iff.mp hw))
  · intro hs
    obtain ⟨w, hw, rfl⟩ := hn.exists_ofPath hs
    exact List.mem_map_of_mem (hf.mem_iff.mpr (mem_livePaths.mp hw))

end Frontier

end FirstHit
