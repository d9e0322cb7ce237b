import FirstHit.Proofs.Acceptance
import FirstHit.Proofs.Numbering

/-!
# The trie in closed form

Insertion builds an arena step by step. What it arrives at has a closed form that mentions no steps:
the nodes stand for the live strings in order of appearance, a node has an edge on each byte by
which its string can grow, and it accepts the patterns that are equal to its string
(`Trie.ofPatterns_eq_ofLiveStrings`).

The closed form holds between any two steps, for the strings seen so far. One new node is one string
more at the end of the list (`Trie.grow_plain`), a pattern is the list of its prefixes
(`Trie.extend_plain`), and the insertion of all patterns follows by induction.
-/

namespace FirstHit

variable {c : Config} {paths patterns : List Bytes} {ids : Bytes → List Nat} {v w x : Bytes}
  {b : UInt8}

/-! ## Sorted edges -/

theorem Byte.pairwise_all : Byte.all.Pairwise (· < ·) := by
  rw [Byte.all, List.pairwise_map]
  refine List.pairwise_lt_range.imp_of_mem fun {m n} hm hn hmn ↦ ?_
  rw [List.mem_range, Byte.count] at hm hn
  rwa [UInt8.lt_iff_toNat_lt, UInt8.toNat_ofNat_of_lt' hm, UInt8.toNat_ofNat_of_lt' hn]

namespace Edge

theorem lookup_map (bs : List UInt8) (target : UInt8 → StateId) (c : UInt8) :
    (bs.map fun b ↦ (b, target b)).lookup c = if c ∈ bs then some (target c) else none := by
  induction bs with
  | nil => rfl
  | cons b bs ih =>
    rw [List.map_cons, lookup_cons_edge, ih]
    by_cases hc : c = b
    · rw [if_pos hc, if_pos (hc ▸ List.mem_cons_self), hc]
    · rw [if_neg hc]
      simp only [List.mem_cons, hc, false_or]

/-- Insertion puts a new edge where an enumeration of all bytes meets its byte. -/
theorem insert_map_filter {bs : List UInt8} (hsorted : bs.Pairwise (· < ·)) (hb : b ∈ bs)
    {present extended : UInt8 → Bool} (hext : ∀ c, extended c = true ↔ present c = true ∨ c = b)
    (target : UInt8 → StateId) :
    insert b (target b) ((bs.filter present).map fun c ↦ (c, target c))
      = (bs.filter extended).map fun c ↦ (c, target c) := by
  induction bs with
  | nil => exact absurd hb List.not_mem_nil
  | cons d bs ih =>
    rw [List.pairwise_cons] at hsorted
    by_cases hbd : b = d
    · subst hbd
      have hrest : bs.filter extended = bs.filter present := by
        refine List.filter_congr fun c hc ↦ ?_
        rw [Bool.eq_iff_iff, hext, or_iff_left (UInt8.ne_of_lt (hsorted.1 c hc)).symm]
      rw [List.filter_cons_of_pos ((hext b).mpr (Or.inr rfl)), hrest, List.map_cons]
      by_cases hp : present b = true
      · rw [List.filter_cons_of_pos hp, List.map_cons, insert, if_neg (UInt8.lt_irrefl b),
          if_pos rfl]
      · rw [List.filter_cons_of_neg hp]
        cases hrow : bs.filter present with
        | nil => rfl
        | cons e rest =>
          have he : e ∈ bs := List.mem_of_mem_filter (hrow ▸ List.mem_cons_self)
          rw [List.map_cons, insert, if_pos (hsorted.1 e he)]
    · -- `d` is less than `b`, so the new edge comes behind the edge on `d`, if there is one
      have hb' : b ∈ bs := (List.mem_cons.mp hb).resolve_left hbd
      have hnot : ¬b < d := UInt8.not_lt.mpr (UInt8.le_of_lt (hsorted.1 b hb'))
      have hd : extended d = true ↔ present d = true := by
        rw [hext, or_iff_left (Ne.symm hbd)]
      by_cases hp : present d = true
      · rw [List.filter_cons_of_pos hp, List.filter_cons_of_pos (hd.mpr hp), List.map_cons,
          List.map_cons, insert, if_neg hnot, if_neg hbd, ih hsorted.2 hb']
      · rw [List.filter_cons_of_neg hp, List.filter_cons_of_neg (hp ∘ hd.mp), ih hsorted.2 hb']

end Edge

/-! ## The nodes of a trie -/

namespace Numbering

theorem mem_of_isPrefix (hn : Numbering paths) (hw : w ∈ paths) (hv : v <+: w) : v ∈ paths := by
  obtain ⟨y, rfl⟩ := hv
  induction y using List.reverseRecOn with
  | nil => rwa [List.append_nil] at hw
  | append_singleton y b ih =>
    rw [← List.append_assoc] at hw
    exact ih (hn.parent hw)

theorem length_lt (hn : Numbering paths) (hw : w ∈ paths) : w.length < paths.length :=
  length_lt_of_prefixes fun _ hv ↦ hn.mem_of_isPrefix hw hv

end Numbering

/-- The bytes by which `w` can grow inside the list, in increasing order. -/
def growing (paths : List Bytes) (w : Bytes) : List UInt8 :=
  Byte.all.filter fun b ↦ w ++ [b] ∈ paths

/-- The edges of the node of `w`: one for each string of the list that is longer by one byte. -/
def branches (paths : List Bytes) (w : Bytes) : List Edge :=
  (growing paths w).map fun b ↦ (b, .ofPath paths (w ++ [b]))

/-- The node of `w` before links are set. -/
def plainNode (paths : List Bytes) (ids : Bytes → List Nat) (w : Bytes) : Node where
  edges := branches paths w
  depth := UInt32.ofNat w.length
  ids := ids w

theorem mem_growing : b ∈ growing paths w ↔ w ++ [b] ∈ paths := by
  rw [growing, List.mem_filter, decide_eq_true_eq, and_iff_right (Byte.mem_all b)]

theorem nodup_growing (paths : List Bytes) (w : Bytes) : (growing paths w).Nodup :=
  (Byte.pairwise_all.imp UInt8.ne_of_lt).filter _

theorem edge?_plainNode (paths : List Bytes) (ids : Bytes → List Nat) (w : Bytes) (b : UInt8) :
    (plainNode paths ids w).edge? b
      = if w ++ [b] ∈ paths then some (.ofPath paths (w ++ [b])) else none := by
  rw [Node.edge?, plainNode, branches, Edge.lookup_map]
  simp only [mem_growing]

theorem toNat_depth_plainNode (hn : Numbering paths) (hw : w ∈ paths) (ids : Bytes → List Nat) :
    (plainNode paths ids w).depth.toNat = w.length :=
  UInt32.toNat_ofNat_of_lt' ((hn.length_lt hw).trans_le hn.length_le)

/-- The depth below a node is exact, unless all identifiers are on the path to the node. -/
theorem childDepth_plainNode (hn : Numbering paths) (hw : w ∈ paths) (ids : Bytes → List Nat) :
    (plainNode paths ids w).childDepth =
      if w.length + 1 < UInt32.size then .ok (UInt32.ofNat (w.length + 1))
      else .error .tooDeep := by
  rw [Node.childDepth, toNat_depth_plainNode hn hw, UInt32.ofNat_add]
  rfl

theorem branches_append_of_ne (hx : x ≠ w) :
    branches (paths ++ [w ++ [b]]) x = branches paths x := by
  have hgrow : growing (paths ++ [w ++ [b]]) x = growing paths x := by
    refine List.filter_congr fun c _ ↦ ?_
    have hne : x ++ [c] ≠ w ++ [b] := fun h ↦ hx (List.append_inj_left' h rfl)
    simp only [List.mem_append, List.mem_singleton, hne, or_false]
  rw [branches, branches, hgrow]
  refine List.map_congr_left fun c hc ↦ ?_
  rw [Numbering.ofPath_append (mem_growing.mp hc)]

theorem branches_append_self (paths : List Bytes) (w : Bytes) (b : UInt8) :
    branches (paths ++ [w ++ [b]]) w
      = Edge.insert b (.ofPath (paths ++ [w ++ [b]]) (w ++ [b])) (branches paths w) := by
  have hold : branches paths w
      = (growing paths w).map fun c ↦ (c, .ofPath (paths ++ [w ++ [b]]) (w ++ [c])) := by
    refine List.map_congr_left fun c hc ↦ ?_
    rw [Numbering.ofPath_append (mem_growing.mp hc)]
  rw [hold]
  refine (Edge.insert_map_filter Byte.pairwise_all (Byte.mem_all b) (fun c ↦ ?_) _).symm
  simp only [decide_eq_true_eq, List.mem_append, List.mem_singleton,
    List.append_cancel_left_eq, List.cons.injEq, and_true]

theorem branches_leaf (hn : Numbering paths) (hv : v ∉ paths) : branches (paths ++ [v]) v = [] := by
  rw [branches, List.map_eq_nil_iff, growing, List.filter_eq_nil_iff]
  intro c _ hc
  rw [decide_eq_true_eq, List.mem_append, List.mem_singleton] at hc
  rcases hc with hc | hc
  · exact hv (hn.parent hc)
  · exact absurd (congrArg List.length hc) (by simp)

namespace Trie

/-- The trie of a list of strings, whose nodes accept what `ids` says. -/
def plain (paths : List Bytes) (ids : Bytes → List Nat) : Trie :=
  ofPaths paths (plainNode paths ids)

/-! ## One new node -/

/-- A new node and the edge to it are one string more. -/
theorem grow_plain (hn : Numbering paths) (hlt : paths.length < StateId.capacity) (hw : w ∈ paths)
    (hv : w ++ [b] ∉ paths) (hids : ids (w ++ [b]) = []) :
    (⟨(plain paths ids).nodes.push { depth := UInt32.ofNat (w.length + 1) }⟩ : Trie).update
        (.ofPath paths w) (·.addEdge b (.ofPath (paths ++ [w ++ [b]]) (w ++ [b])))
      = .ok (plain (paths ++ [w ++ [b]]) ids) := by
  have hwv : w ≠ w ++ [b] := by simp
  rw [plain, push_ofPaths hv, ← Numbering.ofPath_append hw [w ++ [b]],
    update_ofPaths (hn.append_singleton hlt hw hv) (List.mem_append_left _ hw)]
  refine congrArg Except.ok (ofPaths_congr fun x hx ↦ ?_)
  by_cases hxw : x = w
  · subst hxw
    rw [Function.update_self, Function.update_of_ne hwv, Node.addEdge, plainNode, plainNode,
      branches_append_self]
  · rw [Function.update_of_ne hxw]
    by_cases hxv : x = w ++ [b]
    · subst hxv
      rw [Function.update_self, plainNode, branches_leaf hn hv, hids, List.length_append,
        List.length_singleton]
    · rw [Function.update_of_ne hxv, plainNode, plainNode, branches_append_of_ne hxw]

/-! ## One pattern -/

/-- The list with the strings that continue `w` along `bytes`. -/
def continued (paths : List Bytes) (w : Bytes) : Bytes → List Bytes
  | [] => paths
  | b :: bytes => continued (appendNew paths (w ++ [b])) (w ++ [b]) bytes

theorem continued_eq_foldl (hw : w ∈ paths) (bytes : Bytes) :
    continued paths w bytes = (bytes.inits.map (w ++ ·)).foldl appendNew paths := by
  induction bytes generalizing paths w with
  | nil => rw [continued, List.inits, List.map_singleton, List.append_nil, List.foldl_cons,
      appendNew_of_mem hw, List.foldl_nil]
  | cons b bytes ih =>
    have hmem : w ++ [b] ∈ appendNew paths (w ++ [b]) := mem_appendNew.mpr (Or.inr rfl)
    have hrow : (bytes.inits.map (b :: ·)).map (w ++ ·) = bytes.inits.map (w ++ [b] ++ ·) := by
      rw [List.map_map]
      exact List.map_congr_left fun v _ ↦ by simp
    obtain ⟨rest, hrest⟩ : ∃ rest, bytes.inits = [] :: rest := by
      cases bytes with
      | nil => exact ⟨[], rfl⟩
      | cons d bytes => exact ⟨_, List.inits_cons d bytes⟩
    rw [continued, ih hmem, List.inits_cons, List.map_cons, List.append_nil, hrow,
      List.foldl_cons, appendNew_of_mem hw, hrest, List.map_cons, List.append_nil,
      List.foldl_cons, List.foldl_cons, appendNew_of_mem hmem]

theorem continued_nil (hn : Numbering paths) (p : Bytes) :
    continued paths [] p = p.inits.foldl appendNew paths := by
  rw [continued_eq_foldl hn.nil_mem]
  simp only [List.nil_append, List.map_id']

theorem extend_plain_of_mem (hn : Numbering paths) (hw : w ∈ paths) (hv : w ++ [b] ∈ paths)
    (bytes : Bytes) :
    (plain paths ids).extend c (.ofPath paths w) (b :: bytes)
      = (plain paths ids).extend c (.ofPath paths (w ++ [b])) bytes := by
  rw [extend, plain, node_ofPaths hn hw, Building.ofChecked_ok, ok_bind, ← plain, edge?_plainNode,
    if_pos hv]

theorem extend_plain_of_notMem (hn : Numbering paths) (hlt : paths.length < StateId.capacity)
    (hw : w ∈ paths) (hv : w ++ [b] ∉ paths) (hids : ids (w ++ [b]) = []) (bytes : Bytes) :
    (plain paths ids).extend c (.ofPath paths w) (b :: bytes) = (do
      c.admitState paths.length
      (plain (paths ++ [w ++ [b]]) ids).extend c (.ofPath (paths ++ [w ++ [b]]) (w ++ [b]))
        bytes) := by
  have hdepth : w.length + 1 < UInt32.size := Nat.lt_of_le_of_lt (hn.length_lt hw) hlt
  rw [extend, plain, node_ofPaths hn hw, Building.ofChecked_ok, ok_bind, ← plain, edge?_plainNode,
    if_neg hv]
  dsimp only
  rw [childDepth_plainNode hn hw, if_pos hdepth, Building.ofChecked_ok, ok_bind, addNode, plain,
    size_ofPaths, ← plain]
  cases c.admitState paths.length with
  | error refusal => rfl
  | ok admitted =>
    rw [ok_bind, ok_bind, Numbering.ofIndex?_length hlt hv]
    dsimp only
    rw [ok_bind]
    dsimp only
    rw [grow_plain hn hlt hw hv hids, Building.ofChecked_ok, ok_bind]

/-- Why there is no node for `v` when all identifiers are in use: its depth cannot be said, or one
state more is not let in, or there is no identifier for it. -/
def fullRefusal (c : Config) (v : Bytes) : Refusal :=
  if v.length = StateId.capacity then { error := .fault .tooDeep }
  else
    match c.admitState StateId.capacity with
    | .error refusal => refusal
    | .ok () => { error := .stateLimitExceeded 4294967295 }

/-- A descent ends at a missing node if all identifiers are in use. -/
theorem extend_plain_of_full (hn : Numbering paths) (hfull : paths.length = StateId.capacity)
    (hw : w ∈ paths) (hv : w ++ [b] ∉ paths) (bytes : Bytes) :
    (plain paths ids).extend c (.ofPath paths w) (b :: bytes)
      = .error (fullRefusal c (w ++ [b])) := by
  have hle : w.length + 1 ≤ UInt32.size := Nat.le_trans (hn.length_lt hw) hn.length_le
  rw [extend, plain, node_ofPaths hn hw, Building.ofChecked_ok, ok_bind, ← plain, edge?_plainNode,
    if_neg hv, fullRefusal, List.length_append, List.length_singleton]
  dsimp only
  rw [childDepth_plainNode hn hw]
  by_cases hchain : w.length + 1 = StateId.capacity
  · have hdeep : ¬w.length + 1 < UInt32.size := Nat.not_lt.mpr hchain.ge
    rw [if_pos hchain, if_neg hdeep]
    rfl
  · rw [if_neg hchain, if_pos (Nat.lt_of_le_of_ne hle hchain), Building.ofChecked_ok, ok_bind,
      addNode, plain, size_ofPaths, hfull, StateId.ofIndex?_eq_none_iff.mpr (Nat.le_refl _)]
    cases c.admitState StateId.capacity <;> rfl

/-- Descending along a pattern, and making the nodes that are missing, numbers its prefixes. -/
theorem extend_plain {u : Trie} {s : StateId} {bytes : Bytes} (hn : Numbering paths)
    (hids : ∀ v, v ∉ paths → ids v = []) (hw : w ∈ paths)
    (h : (plain paths ids).extend c (.ofPath paths w) bytes = .ok (u, s)) :
    Numbering (continued paths w bytes) ∧ u = plain (continued paths w bytes) ids ∧
      w ++ bytes ∈ continued paths w bytes ∧
      s = .ofPath (continued paths w bytes) (w ++ bytes) := by
  induction bytes generalizing paths w with
  | nil =>
    cases h
    rw [continued, List.append_nil]
    exact ⟨hn, rfl, hw, rfl⟩
  | cons b bytes ih =>
    rw [List.append_cons, continued]
    by_cases hv : w ++ [b] ∈ paths
    · rw [extend_plain_of_mem hn hw hv] at h
      rw [appendNew_of_mem hv]
      exact ih hn hids hv h
    · by_cases hlt : paths.length < StateId.capacity
      · -- the node is missing, so its string becomes the last of the list
        rw [extend_plain_of_notMem hn hlt hw hv (hids _ hv)] at h
        obtain ⟨⟨⟩, -, h⟩ := bind_eq_ok_iff.mp h
        rw [appendNew_of_notMem hv]
        refine ih (hn.append_singleton hlt hw hv) (fun v hv' ↦ hids v ?_) (by simp) h
        exact fun hmem ↦ hv' (List.mem_append_left _ hmem)
      · rw [extend_plain_of_full hn (hn.length_le.antisymm (Nat.not_lt.mp hlt)) hw hv] at h
        cases h

/-! ## All patterns -/

/-- The trie of the live strings. -/
def ofLiveStrings (patterns : List Bytes) : Trie :=
  plain (livePaths patterns) fun w ↦ patterns.idxsOf w

theorem accept_plain {p : Bytes} (hn : Numbering paths) (hp : p ∈ paths) (ids : Bytes → List Nat)
    (id : Nat) :
    (plain paths ids).update (.ofPath paths p) (·.accept id)
      = .ok (plain paths (Function.update ids p (ids p ++ [id]))) := by
  rw [plain, update_ofPaths hn hp]
  refine congrArg Except.ok (ofPaths_congr fun w _ ↦ ?_)
  by_cases hw : w = p
  · subst hw
    rw [Function.update_self, Node.accept, plainNode, plainNode, Function.update_self]
  · rw [Function.update_of_ne hw, plainNode, plainNode, Function.update_of_ne hw]

theorem update_idxsOf (patterns : List Bytes) (p : Bytes) :
    Function.update (fun w ↦ patterns.idxsOf w) p (patterns.idxsOf p ++ [patterns.length])
      = fun w ↦ (patterns ++ [p]).idxsOf w := by
  funext w
  by_cases hw : w = p
  · subst hw
    rw [Function.update_self, idxsOf_append_singleton, if_pos rfl]
  · rw [Function.update_of_ne hw, idxsOf_append_singleton, if_neg (Ne.symm hw), List.append_nil]

/-- The node that a pattern spells accepts it, behind the equal patterns before it. -/
theorem accept_idxsOf {p : Bytes} (hn : Numbering paths) (hp : p ∈ paths)
    (patterns : List Bytes) :
    (plain paths fun w ↦ patterns.idxsOf w).update (.ofPath paths p) (·.accept patterns.length)
      = .ok (plain paths fun w ↦ (patterns ++ [p]).idxsOf w) := by
  rw [accept_plain hn hp, update_idxsOf]

theorem idxsOf_eq_nil_of_notMem (hv : v ∉ livePaths patterns) : patterns.idxsOf v = [] :=
  idxsOf_eq_nil fun hl ↦ hv (mem_livePaths.mpr hl)

theorem insert_plain {t : Trie} {p : Bytes} {id : Nat} (hn : Numbering (livePaths patterns))
    (hids : ∀ v, v ∉ livePaths patterns → ids v = [])
    (h : (plain (livePaths patterns) ids).insert c id p = .ok t) :
    Numbering (livePaths (patterns ++ [p])) ∧
      t = plain (livePaths (patterns ++ [p])) (Function.update ids p (ids p ++ [id])) := by
  obtain ⟨⟨⟩, -, h⟩ := bind_eq_ok_iff.mp h
  obtain ⟨⟨u, s⟩, hext, h⟩ := bind_eq_ok_iff.mp h
  rw [← hn.ofPath_nil] at hext
  obtain ⟨hn', rfl, hp, rfl⟩ := extend_plain hn hids hn.nil_mem hext
  rw [continued_nil hn, ← livePaths_append_singleton, List.nil_append] at h hp
  rw [continued_nil hn, ← livePaths_append_singleton] at hn'
  dsimp only at h
  rw [accept_plain hn' hp, Building.ofChecked_ok] at h
  cases h
  exact ⟨hn', rfl⟩

theorem insert_ofLiveStrings {t : Trie} {p : Bytes} (hn : Numbering (livePaths patterns))
    (h : (ofLiveStrings patterns).insert c patterns.length p = .ok t) :
    Numbering (livePaths (patterns ++ [p])) ∧ t = ofLiveStrings (patterns ++ [p]) := by
  obtain ⟨hn', rfl⟩ := insert_plain hn (fun _ ↦ idxsOf_eq_nil_of_notMem) h
  rw [update_idxsOf]
  exact ⟨hn', rfl⟩

theorem insertFrom_ofLiveStrings {t : Trie} {more : List Bytes}
    (hn : Numbering (livePaths patterns))
    (h : (ofLiveStrings patterns).insertFrom c patterns.length more = .ok t) :
    Numbering (livePaths (patterns ++ more)) ∧ t = ofLiveStrings (patterns ++ more) := by
  induction more generalizing patterns with
  | nil =>
    cases h
    rw [List.append_nil]
    exact ⟨hn, rfl⟩
  | cons p more ih =>
    obtain ⟨u, hinsert, h⟩ := bind_eq_ok_iff.mp h
    obtain ⟨hn', rfl⟩ := insert_ofLiveStrings hn hinsert
    rw [List.append_cons]
    refine ih hn' ?_
    rwa [List.length_append, List.length_singleton]

theorem addNode_empty (c : Config) : empty.addNode c 0 = (do
    c.admitState 0
    .ok (ofLiveStrings [], .root)) := by
  have hedges : branches [[]] [] = [] := by
    rw [branches, List.map_eq_nil_iff, growing, List.filter_eq_nil_iff]
    simp
  have hroot : (⟨empty.nodes.push { depth := 0 }⟩ : Trie) = ofLiveStrings [] := by
    rw [ofLiveStrings, plain, ofPaths, livePaths_nil, List.map_singleton, plainNode, hedges]
    rfl
  rw [← hroot]
  rfl

theorem addNode_empty_eq_ok {t : Trie} {s : StateId} (h : empty.addNode c 0 = .ok (t, s)) :
    t = ofLiveStrings [] ∧ s = .root := by
  rw [addNode_empty] at h
  obtain ⟨⟨⟩, -, h⟩ := bind_eq_ok_iff.mp h
  cases h
  exact ⟨rfl, rfl⟩

theorem numbering_livePaths_nil : Numbering (livePaths []) := by
  refine ⟨List.nodup_singleton [], by decide, rfl, fun {w b} h ↦ ?_⟩
  exact absurd (List.mem_singleton.mp h) (by simp)

/-- **Insertion in closed form.** The trie of a list of patterns is that of their live strings, and
identifiers suffice for these. -/
theorem ofPatterns_eq_ofLiveStrings {t : Trie} (h : ofPatterns c patterns = .ok t) :
    Numbering (livePaths patterns) ∧ t = ofLiveStrings patterns := by
  obtain ⟨⟨rooted, s⟩, hadd, h⟩ := bind_eq_ok_iff.mp h
  obtain ⟨rfl, -⟩ := addNode_empty_eq_ok hadd
  exact insertFrom_ofLiveStrings numbering_livePaths_nil h

end Trie

end FirstHit
