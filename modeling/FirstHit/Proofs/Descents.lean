import FirstHit.Proofs.Limits
import FirstHit.Proofs.Paths

/-!
# Where an insertion stands

While a pattern is inserted there is a trie, a state that has been reached, and the bytes that are
still to be followed. `Trie.Descending` lists these situations for a list of patterns, by what the
program does: a pattern is let in and starts at the root, an edge is followed, or a node and the
edge to it are made. These are situations that the insertion of the patterns really passes through:
what is left to do from each of them (`Trie.finish`) comes to what the insertion comes to as a whole
(`Trie.Descending.ofPatterns_eq`).

A situation has a closed form as well. The bytes that have been followed spell the state, and the
trie has the strings of the patterns before and the prefixes of these bytes
(`Trie.Descending.exists_descended`). Conversely, every such situation is reached as long as its
states are let in (`Trie.descending_descended`).
-/

namespace FirstHit

variable {c : Config} {patterns done : List Bytes} {v rest : Bytes} {b : UInt8} {s next : StateId}
  {n : Node}

namespace Trie

variable {t grown joined : Trie}

/-- The situations in which an insertion of `patterns` follows bytes: the trie so far, the state
that has been reached, and the bytes that are left. -/
inductive Descending (c : Config) (patterns : List Bytes) : Trie → StateId → Bytes → Prop
  /-- A pattern is let in, and the descent starts at the root. -/
  | start {done more : List Bytes} {p : Bytes} {t : Trie} (hpatterns : patterns = done ++ p :: more)
    (hdone : ofPatterns c done = .ok t) (hp : c.admitPattern done.length p = .ok ()) :
    Descending c patterns t .root p
  /-- The edge on the next byte is there. -/
  | follow {t : Trie} {s next : StateId} {b : UInt8} {rest : Bytes} {n : Node}
    (h : Descending c patterns t s (b :: rest)) (hnode : t.node s = .ok n)
    (hedge : n.edge? b = some next) : Descending c patterns t next rest
  /-- The edge on the next byte is missing, and is made together with a node. -/
  | grow {t grown joined : Trie} {s next : StateId} {b : UInt8} {rest : Bytes} {n : Node}
    {depth : UInt32} (h : Descending c patterns t s (b :: rest)) (hnode : t.node s = .ok n)
    (hedge : n.edge? b = none) (hdepth : n.childDepth = .ok depth)
    (hadd : t.addNode c depth = .ok (grown, next))
    (hjoin : grown.update s (·.addEdge b next) = .ok joined) :
    Descending c patterns joined next rest

/-! ## What is left of an insertion -/

theorem extend_of_edge (hnode : t.node s = .ok n) (hedge : n.edge? b = some next) (rest : Bytes) :
    t.extend c s (b :: rest) = t.extend c next rest := by
  rw [extend, hnode, Building.ofChecked_ok, ok_bind, hedge]

theorem extend_of_no_edge {depth : UInt32} (hnode : t.node s = .ok n) (hedge : n.edge? b = none)
    (hdepth : n.childDepth = .ok depth) (hadd : t.addNode c depth = .ok (grown, next))
    (hjoin : grown.update s (·.addEdge b next) = .ok joined) (rest : Bytes) :
    t.extend c s (b :: rest) = joined.extend c next rest := by
  rw [extend, hnode, Building.ofChecked_ok, ok_bind, hedge]
  dsimp only
  rw [hdepth, Building.ofChecked_ok, ok_bind, hadd, ok_bind]
  dsimp only
  rw [hjoin, Building.ofChecked_ok, ok_bind]

/-- What is left to do from a situation in the insertion of the pattern with the given id: the rest
of it is followed, the pattern is accepted, and the patterns behind it are inserted. -/
def finish (c : Config) (t : Trie) (s : StateId) (rest : Bytes) (id : Nat) (more : List Bytes) :
    Building Trie := do
  let (extended, r) ← t.extend c s rest
  let inserted ← Building.ofChecked (extended.update r (·.accept id))
  inserted.insertFrom c (id + 1) more

theorem insertFrom_append (c : Config) (t : Trie) (id : Nat) (ps qs : List Bytes) :
    t.insertFrom c id (ps ++ qs)
      = t.insertFrom c id ps >>= fun u ↦ u.insertFrom c (id + ps.length) qs := by
  induction ps generalizing t id with
  | nil => rfl
  | cons p ps ih =>
    rw [List.cons_append, insertFrom, insertFrom, bind_assoc, List.length_cons,
      Nat.add_comm ps.length 1, ← Nat.add_assoc]
    exact congrArg _ (funext fun u ↦ ih u (id + 1))

theorem ofPatterns_append (c : Config) (ps qs : List Bytes) :
    ofPatterns c (ps ++ qs) = ofPatterns c ps >>= fun t ↦ t.insertFrom c ps.length qs := by
  rw [ofPatterns, ofPatterns, bind_assoc]
  refine congrArg _ (funext fun rooted ↦ ?_)
  dsimp only
  rw [insertFrom_append, Nat.zero_add]

theorem insertFrom_cons_eq_finish {p : Bytes} {id : Nat} (hp : c.admitPattern id p = .ok ())
    (t : Trie) (more : List Bytes) :
    t.insertFrom c id (p :: more) = t.finish c .root p id more := by
  rw [insertFrom, insert, hp, ok_bind, bind_assoc]
  rfl

/-- From every situation the insertion of the patterns comes to what it comes to as a whole. -/
theorem Descending.ofPatterns_eq (h : Descending c patterns t s rest) :
    ∃ done p more, patterns = done ++ p :: more ∧
      ofPatterns c patterns = t.finish c s rest done.length more := by
  induction h with
  | @start done more p t hpatterns hdone hp =>
    refine ⟨done, p, more, hpatterns, ?_⟩
    rw [hpatterns, ofPatterns_append, hdone, ok_bind, insertFrom_cons_eq_finish hp]
  | follow h hnode hedge ih =>
    obtain ⟨done, p, more, hpatterns, hrun⟩ := ih
    exact ⟨done, p, more, hpatterns, by rw [hrun, finish, finish, extend_of_edge hnode hedge]⟩
  | grow h hnode hedge hdepth hadd hjoin ih =>
    obtain ⟨done, p, more, hpatterns, hrun⟩ := ih
    refine ⟨done, p, more, hpatterns, ?_⟩
    rw [hrun, finish, finish, extend_of_no_edge hnode hedge hdepth hadd hjoin]

/-! ## The closed form -/

theorem addNode_eq_ok {depth : UInt32} (h : t.addNode c depth = .ok (grown, s)) :
    c.admitState t.size = .ok () ∧ t.size < StateId.capacity ∧
      StateId.ofIndex? t.size = some s ∧ grown = ⟨t.nodes.push { depth }⟩ := by
  obtain ⟨⟨⟩, hroom, h⟩ := bind_eq_ok_iff.mp h
  cases hid : StateId.ofIndex? t.size with
  | none =>
    rw [hid] at h
    cases h
  | some r =>
    rw [hid] at h
    cases h
    have hlt : ¬StateId.capacity ≤ t.size := fun hle ↦ by
      rw [StateId.ofIndex?_eq_none_iff.mpr hle] at hid
      cases hid
    exact ⟨hroom, Nat.not_le.mp hlt, rfl, rfl⟩

theorem addNode_of_room {depth : UInt32} (hroom : c.admitState t.size = .ok ())
    (hid : StateId.ofIndex? t.size = some s) :
    t.addNode c depth = .ok (⟨t.nodes.push { depth }⟩, s) := by
  rw [addNode, hroom, ok_bind, hid]

/-- The trie of the patterns before, and of the bytes that have been followed. -/
def descended (done : List Bytes) (v : Bytes) : Trie :=
  plain (livePaths (done ++ [v])) fun w ↦ done.idxsOf w

theorem descended_nil (done : List Bytes) : descended done [] = ofLiveStrings done := by
  rw [descended, livePaths_append_nil, ofLiveStrings]

theorem size_descended (done : List Bytes) (v : Bytes) :
    (descended done v).size = (livePaths (done ++ [v])).length := size_ofPaths _ _

theorem last_mem_livePaths (done : List Bytes) (v : Bytes) : v ∈ livePaths (done ++ [v]) :=
  mem_livePaths.mpr (isLive_of_mem (by simp))

theorem node_descended (hn : Numbering (livePaths (done ++ [v]))) :
    (descended done v).node (.ofPath (livePaths (done ++ [v])) v)
      = .ok (plainNode (livePaths (done ++ [v])) (fun w ↦ done.idxsOf w) v) :=
  node_ofPaths hn (last_mem_livePaths done v) _

theorem childDepth_descended (hn : Numbering (livePaths (done ++ [v])))
    (hlt : (descended done v).size < StateId.capacity) :
    (plainNode (livePaths (done ++ [v])) (fun w ↦ done.idxsOf w) v).childDepth
      = .ok (UInt32.ofNat (v.length + 1)) := by
  rw [size_descended] at hlt
  have hv := last_mem_livePaths done v
  exact (childDepth_plainNode hn hv _).trans (if_pos (Nat.lt_of_le_of_lt (hn.length_lt hv) hlt))

theorem edge?_descended (done : List Bytes) (v : Bytes) (b : UInt8) :
    (plainNode (livePaths (done ++ [v])) (fun w ↦ done.idxsOf w) v).edge? b
      = if v ++ [b] ∈ livePaths (done ++ [v]) then
          some (.ofPath (livePaths (done ++ [v ++ [b]])) (v ++ [b]))
        else none := by
  rw [edge?_plainNode]
  by_cases hb : v ++ [b] ∈ livePaths (done ++ [v])
  · rw [if_pos hb, if_pos hb, livePaths_append_concat, appendNew_of_mem hb]
  · rw [if_neg hb, if_neg hb]

theorem descended_append_of_mem (hb : v ++ [b] ∈ livePaths (done ++ [v])) :
    descended done (v ++ [b]) = descended done v := by
  rw [descended, descended, livePaths_append_concat, appendNew_of_mem hb]

theorem grow_descended (hn : Numbering (livePaths (done ++ [v])))
    (hlt : (descended done v).size < StateId.capacity)
    (hb : v ++ [b] ∉ livePaths (done ++ [v])) :
    Numbering (livePaths (done ++ [v ++ [b]])) ∧
      StateId.ofIndex? (descended done v).size
        = some (.ofPath (livePaths (done ++ [v ++ [b]])) (v ++ [b])) ∧
      (⟨(descended done v).nodes.push { depth := UInt32.ofNat (v.length + 1) }⟩ : Trie).update
          (.ofPath (livePaths (done ++ [v])) v)
          (·.addEdge b (.ofPath (livePaths (done ++ [v ++ [b]])) (v ++ [b])))
        = .ok (descended done (v ++ [b])) := by
  have hv := last_mem_livePaths done v
  have hids : done.idxsOf (v ++ [b]) = [] :=
    idxsOf_eq_nil_of_notMem fun h ↦ hb ((livePaths_prefix_append done [v]).subset h)
  rw [size_descended] at hlt ⊢
  rw [livePaths_append_concat, appendNew_of_notMem hb, descended, descended,
    livePaths_append_concat, appendNew_of_notMem hb]
  exact ⟨hn.append_singleton hlt hv hb, Numbering.ofIndex?_length hlt hb,
    grow_plain hn hlt hv hb hids⟩

/-- **Situations in closed form.** What has been followed spells the state that has been reached,
and the trie has the strings of the patterns before and the prefixes of what has been followed. -/
theorem Descending.exists_descended (h : Descending c patterns t s rest) :
    ∃ done v more, patterns = done ++ (v ++ rest) :: more ∧
      Numbering (livePaths (done ++ [v])) ∧ t = descended done v ∧
      s = .ofPath (livePaths (done ++ [v])) v := by
  induction h with
  | @start done more p t hpatterns hdone hp =>
    obtain ⟨hn, rfl⟩ := ofPatterns_eq_ofLiveStrings hdone
    refine ⟨done, [], more, hpatterns, ?_, (descended_nil done).symm, ?_⟩
    · rwa [livePaths_append_nil]
    · rw [livePaths_append_nil, hn.ofPath_nil]
  | @follow t s next b rest n h hnode hedge ih =>
    obtain ⟨done, v, more, hpatterns, hn, rfl, rfl⟩ := ih
    obtain rfl := Except.ok.inj (hnode.symm.trans (node_descended hn))
    rw [edge?_descended] at hedge
    by_cases hb : v ++ [b] ∈ livePaths (done ++ [v])
    · rw [if_pos hb] at hedge
      cases hedge
      refine ⟨done, v ++ [b], more, by rwa [← List.append_cons], ?_,
        (descended_append_of_mem hb).symm, rfl⟩
      rwa [livePaths_append_concat, appendNew_of_mem hb]
    · rw [if_neg hb] at hedge
      cases hedge
  | @grow t grown joined s next b rest n depth h hnode hedge hdepth hadd hjoin ih =>
    obtain ⟨done, v, more, hpatterns, hn, rfl, rfl⟩ := ih
    obtain rfl := Except.ok.inj (hnode.symm.trans (node_descended hn))
    have hb : v ++ [b] ∉ livePaths (done ++ [v]) := fun hb ↦ by
      rw [edge?_descended, if_pos hb] at hedge
      cases hedge
    obtain ⟨-, hlt, hid, rfl⟩ := addNode_eq_ok hadd
    obtain rfl := Except.ok.inj (hdepth.symm.trans (childDepth_descended hn hlt))
    obtain ⟨hn', hid', hgrow⟩ := grow_descended hn hlt hb
    obtain rfl := Option.some_inj.mp (hid.symm.trans hid')
    obtain rfl := Except.ok.inj (hjoin.symm.trans hgrow)
    exact ⟨done, v ++ [b], more, by rwa [← List.append_cons], hn', rfl, rfl⟩

/-- A situation is reached if the pattern and all states of the trie are let in. -/
theorem descending_descended (hdone : ofPatterns c done = .ok (ofLiveStrings done))
    (hp : c.admitPattern done.length (v ++ rest) = .ok ())
    (hn : Numbering (livePaths (done ++ [v])))
    (hroom : ∀ m < (livePaths (done ++ [v])).length, c.admitState m = .ok ()) (more : List Bytes) :
    Descending c (done ++ (v ++ rest) :: more) (descended done v)
      (.ofPath (livePaths (done ++ [v])) v) rest := by
  induction v using List.reverseRecOn generalizing rest with
  | nil =>
    rw [livePaths_append_nil] at hn
    rw [descended_nil, livePaths_append_nil, hn.ofPath_nil]
    exact .start rfl hdone hp
  | append_singleton v b ih =>
    rw [← List.append_cons] at hp ⊢
    have hprefix : livePaths (done ++ [v]) <+: livePaths (done ++ [v ++ [b]]) := by
      rw [livePaths_append_concat]
      exact prefix_appendNew _ _
    have hle := hprefix.length_le
    have hn' : Numbering (livePaths (done ++ [v])) := numbering_livePaths (hle.trans hn.length_le)
    have hbefore := ih hp hn' fun m hm ↦ hroom m (hm.trans_le hle)
    by_cases hb : v ++ [b] ∈ livePaths (done ++ [v])
    · rw [descended_append_of_mem hb]
      exact hbefore.follow (node_descended hn') (by rw [edge?_descended, if_pos hb])
    · -- the new state is the last of those that are let in
      have hlength : (livePaths (done ++ [v ++ [b]])).length = (descended done v).size + 1 := by
        rw [size_descended, livePaths_append_concat, appendNew_of_notMem hb, List.length_append,
          List.length_singleton]
      have hlt : (descended done v).size < StateId.capacity :=
        Nat.lt_of_lt_of_le (by rw [hlength]; exact Nat.lt_succ_self _) hn.length_le
      obtain ⟨-, hid, hgrow⟩ := grow_descended hn' hlt hb
      exact hbefore.grow (node_descended hn') (by rw [edge?_descended, if_neg hb])
        (childDepth_descended hn' hlt)
        (addNode_of_room (hroom _ (by rw [hlength]; exact Nat.lt_succ_self _)) hid) hgrow

end Trie

end FirstHit
