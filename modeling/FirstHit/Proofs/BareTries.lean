import FirstHit.Proofs.Linking

/-!
# Tries without accepted patterns

Linking copies lists of accepted patterns from state to state and never looks at what is in them. So
it may be compared with linking a trie whose states accept nothing (`Trie.linkArranged_bare`): links
and order are the same, and so is whether it succeeds.

This frees statements about links from the ids under which patterns are inserted. A build counts
them up, but insertion takes any id (`Trie.Grown`). Whatever the ids, what insertions make is, apart
from accepted patterns, the trie of the live strings of their patterns (`Trie.Grown.exists_bare`).
-/

namespace FirstHit

variable {c : Config} {patterns : List Bytes} {t u : Trie}

/-! ## Forgetting what is accepted -/

theorem Checked.entry_map {α β : Type} (f : α → β) (table : Array α) (index : Nat) :
    Checked.entry (table.map f) index = f <$> Checked.entry table index := by
  rw [Checked.entry, Checked.entry, Array.getElem?_map, Array.size_map]
  cases table[index]? <;> rfl

/-- The node without the patterns that it accepts. -/
def Node.bare (n : Node) : Node := { n with ids := [] }

@[simp] theorem Node.fail_bare (n : Node) : n.bare.fail = n.fail := rfl

@[simp] theorem Node.edges_bare (n : Node) : n.bare.edges = n.edges := rfl

@[simp] theorem Node.edge?_bare (n : Node) (b : UInt8) : n.bare.edge? b = n.edge? b := rfl

/-- The trie without the patterns that its nodes accept. -/
def Trie.bare (t : Trie) : Trie := ⟨t.nodes.map Node.bare⟩

/-- The linked trie without the patterns that its nodes accept. -/
def LinkedTrie.bare (l : LinkedTrie) : LinkedTrie := { l with trie := l.trie.bare }

namespace Trie

@[simp] theorem size_bare (t : Trie) : t.bare.size = t.size := Array.size_map

theorem size_eq_of_bare (h : t.bare = u.bare) : t.size = u.size := by
  rw [← size_bare t, h, size_bare]

theorem node_bare (t : Trie) (s : StateId) : t.bare.node s = Node.bare <$> t.node s :=
  Checked.entry_map Node.bare t.nodes s.index

theorem update_bare (t : Trie) (s : StateId) {f g : Node → Node}
    (hfg : ∀ n, g n.bare = (f n).bare) : t.bare.update s g = bare <$> t.update s f := by
  have hnodes : (t.nodes.map Node.bare).modify s.index g
      = (t.nodes.modify s.index f).map Node.bare := by
    refine Array.ext (by simp) fun i hi hi' ↦ ?_
    by_cases his : s.index = i <;> simp [Array.getElem_modify, his, hfg]
  rw [update, update, node_bare]
  cases t.node s with
  | error cause => rfl
  | ok n => exact congrArg (fun nodes ↦ Except.ok (Trie.mk nodes)) hnodes

theorem exists_node_of_bare (h : t.bare = u.bare) {n : Node} (hs : t.node s = .ok n) :
    ∃ m, u.node s = .ok m ∧ m.bare = n.bare := by
  have hnode : Node.bare <$> u.node s = .ok n.bare := by
    rw [← node_bare, ← h, node_bare, hs]
    rfl
  cases hu : u.node s with
  | error cause => rw [hu] at hnode; cases hnode
  | ok m => rw [hu] at hnode; exact ⟨m, rfl, Except.ok.inj hnode⟩

/-! ## Linking bare tries -/

theorem closeRoot_bare (t : Trie) : t.bare.closeRoot = bare <$> t.closeRoot :=
  update_bare t .root fun _ ↦ by rfl

theorem chase_bare (t : Trie) (b : UInt8) (bound : Nat) (s : StateId) :
    t.bare.chase b bound s = t.chase b bound s := by
  induction bound generalizing s with
  | zero => rfl
  | succ bound ih =>
    rw [chase, chase, node_bare, bind_map_left]
    refine congrArg _ (funext fun n ↦ ?_)
    rw [Node.bare, node_bare, bind_map_left]
    refine congrArg _ (funext fun fallback ↦ ?_)
    rw [Node.edge?_bare]
    cases fallback.edge? b with
    | some target => rfl
    | none => exact ih n.fail

theorem setFail_bare (inherit : Bool) (t : Trie) (s target : StateId) :
    t.bare.setFail inherit s target = bare <$> t.setFail inherit s target := by
  have hpointed : t.bare.update s (fun n ↦ { n with fail := target })
      = bare <$> t.update s fun n ↦ { n with fail := target } := update_bare t s fun _ ↦ by rfl
  rw [setFail, setFail, hpointed, bind_map_left, map_bind]
  refine congrArg _ (funext fun pointed ↦ ?_)
  by_cases hinherit : inherit ∧ target ≠ s
  · rw [if_pos hinherit, if_pos hinherit, node_bare, bind_map_left, map_bind]
    exact congrArg _ (funext fun suffix ↦ update_bare pointed s fun _ ↦ by rfl)
  · rw [if_neg hinherit, if_neg hinherit]
    rfl

theorem linkChild_bare (inherit : Bool) (s : StateId) (t : Trie) (e : Edge) :
    linkChild inherit s t.bare e = bare <$> linkChild inherit s t e := by
  rw [linkChild, linkChild, node_bare, bind_map_left, map_bind]
  refine congrArg _ (funext fun parent ↦ ?_)
  rw [chase_bare, map_bind]
  exact congrArg _ (funext fun target ↦ setFail_bare inherit t e.2 target)

/-- A loop over bare tries, from one of its steps. -/
theorem foldlM_bare {α : Type} (step : Trie → α → Checked Trie)
    (hstep : ∀ t x, step t.bare x = bare <$> step t x) (xs : List α) (t : Trie) :
    xs.foldlM step t.bare = bare <$> xs.foldlM step t := by
  induction xs generalizing t with
  | nil => rfl
  | cons x xs ih =>
    rw [List.foldlM_cons, List.foldlM_cons, hstep, bind_map_left, map_bind]
    exact congrArg _ (funext ih)

theorem visit_bare (inherit : Bool) (arrange : Arrangement) (bound : Nat) (t : Trie)
    (queue : List StateId) :
    visit inherit arrange bound t.bare queue
      = LinkedTrie.bare <$> visit inherit arrange bound t queue := by
  induction bound generalizing t queue with
  | zero => cases queue <;> rfl
  | succ bound ih =>
    cases queue with
    | nil => rfl
    | cons s queue =>
      rw [visit, visit, node_bare, bind_map_left, map_bind]
      refine congrArg _ (funext fun n ↦ ?_)
      dsimp only [Node.bare]
      rw [foldlM_bare _ (linkChild_bare inherit s), bind_map_left, map_bind]
      refine congrArg _ (funext fun linked ↦ ?_)
      rw [ih, bind_map_left, map_bind]
      rfl

/-- **Linking does not look at accepted patterns.** -/
theorem linkArranged_bare (inherit : Bool) (arrange : Arrangement) (t : Trie) :
    t.bare.linkArranged inherit arrange = LinkedTrie.bare <$> t.linkArranged inherit arrange := by
  rw [linkArranged, linkArranged, node_bare, bind_map_left, map_bind]
  refine congrArg _ (funext fun root ↦ ?_)
  rw [closeRoot_bare, bind_map_left, map_bind]
  refine congrArg _ (funext fun closed ↦ ?_)
  dsimp only [Node.bare]
  rw [foldlM_bare _ fun t s ↦ setFail_bare inherit t s .root, bind_map_left, map_bind]
  refine congrArg _ (funext fun linked ↦ ?_)
  rw [size_bare, visit_bare, bind_map_left, map_bind]
  rfl

/-! ## Grown tries -/

/-- The tries that insertion can make: a root, and then any patterns, each under any id. -/
inductive Grown (c : Config) : Trie → Prop
  /-- The root alone. -/
  | start {t : Trie} {s : StateId} (h : empty.addNode c 0 = .ok (t, s)) : Grown c t
  /-- One more pattern that is let in. -/
  | insert {t u : Trie} {id : Nat} {p : Bytes} (ht : Grown c t) (h : t.insert c id p = .ok u) :
    Grown c u

/-- A grown trie is the trie of the live strings of its patterns, whatever its states accept. -/
theorem Grown.exists_plain (h : Grown c t) :
    ∃ patterns ids, Numbering (livePaths patterns) ∧
      (∀ v, v ∉ livePaths patterns → ids v = []) ∧ t = plain (livePaths patterns) ids := by
  induction h with
  | start h =>
    obtain ⟨rfl, -⟩ := addNode_empty_eq_ok h
    exact ⟨[], _, numbering_livePaths_nil, fun _ ↦ idxsOf_eq_nil_of_notMem, rfl⟩
  | @insert t u id p ht h ih =>
    obtain ⟨patterns, ids, hn, hids, rfl⟩ := ih
    obtain ⟨hn', rfl⟩ := insert_plain hn hids h
    refine ⟨patterns ++ [p], _, hn', fun v hv ↦ ?_, rfl⟩
    have hp : p ∈ livePaths (patterns ++ [p]) := mem_livePaths.mpr (isLive_of_mem (by simp))
    rw [Function.update_of_ne (ne_of_mem_of_not_mem hp hv).symm]
    exact hids v fun hold ↦ hv ((livePaths_prefix_append patterns [p]).subset hold)

theorem bare_plain (paths : List Bytes) (ids : Bytes → List Nat) :
    (plain paths ids).bare = plain paths fun _ ↦ [] := by
  rw [plain, plain, ofPaths, ofPaths, bare, List.map_toArray, List.map_map]
  rfl

theorem Grown.exists_bare (h : Grown c t) :
    ∃ patterns, Numbering (livePaths patterns) ∧ t.bare = (ofLiveStrings patterns).bare := by
  obtain ⟨patterns, ids, hn, -, rfl⟩ := h.exists_plain
  exact ⟨patterns, hn, by rw [ofLiveStrings, bare_plain, bare_plain]⟩

/-- **Links of a grown trie.** Whatever the ids under which patterns were inserted, the pass comes
to its end, visits all states breadth first, and gives them the links of the closed form. -/
theorem linkArranged_of_bare (hn : Numbering (livePaths patterns))
    (ht : t.bare = (ofLiveStrings patterns).bare) (inherit : Bool) (arrange : Arrangement)
    (harrange : ∀ s edges, (arrange s edges).Perm edges) :
    ∃ order u, Frontier patterns order [] ∧ u.bare = (linkedTrie inherit patterns).bare ∧
      t.linkArranged inherit arrange
        = .ok { trie := u, order := order.map (.ofPath (livePaths patterns)) } := by
  obtain ⟨order, hf, hlink⟩ := linkArranged_ofLiveStrings hn inherit arrange harrange
  have hbare : LinkedTrie.bare <$> t.linkArranged inherit arrange
      = LinkedTrie.bare <$> (ofLiveStrings patterns).linkArranged inherit arrange := by
    rw [← linkArranged_bare, ht, linkArranged_bare]
  rw [hlink] at hbare
  cases h : t.linkArranged inherit arrange with
  | error cause => rw [h] at hbare; cases hbare
  | ok l =>
    rw [h] at hbare
    obtain ⟨u, visited⟩ := l
    obtain ⟨htrie, rfl⟩ := LinkedTrie.mk.inj (Except.ok.inj hbare)
    exact ⟨order, u, hf, htrie, rfl⟩

end Trie

end FirstHit
