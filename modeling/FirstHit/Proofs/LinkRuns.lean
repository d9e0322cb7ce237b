import FirstHit.Proofs.BareTries

/-!
# Linking as a loop without bounds

A chase is given the depth of its state as a bound, and a visit the number of states. The bounds
make the recursions structural. That they are never what stops a run has to be proved, and here the
loops are stated without them: a chase goes on until it finds an edge (`Trie.Chases`), and the visit
until its queue is empty (`Trie.Visits`). For an arbitrary trie neither has to end.

For a trie that insertions have made both do. The run is finite and there is no other
(`Trie.link_of_grown`). Each turn takes a state from the queue and puts its children behind the
others, so the states are taken in the order in which they were put in, which is the order of the
visit. It has every state once. The root comes first and before the loop, so it is never put into
the queue, although edges lead to it.
-/

namespace FirstHit

variable {c : Config} {patterns : List Bytes} {inherit : Bool} {t u : Trie} {s target : StateId}
  {b : UInt8} {d : UInt32} {n : Node} {edges : List Edge} {queue : List StateId}

/-- One turn of the visit. -/
@[ext] structure Turn where
  /-- The state that is taken from the queue. -/
  state : StateId
  /-- Its children, each with the number of links that the chase for it follows. -/
  children : List (StateId × Nat)

/-- The states that the turn puts into the queue. -/
def Turn.queued (turn : Turn) : List StateId := turn.children.map Prod.fst

namespace Trie

/-! ## Loops without bounds -/

/-- A chase for `b` from `s` follows `links` links before it meets an edge, and ends at `target`. -/
inductive Chases (t : Trie) (b : UInt8) : StateId → Nat → StateId → Prop
  /-- The next link leads to a state with an edge on `b`. -/
  | found {s target : StateId} {n fallback : Node} (hs : t.node s = .ok n)
      (hfail : t.node n.fail = .ok fallback) (hedge : fallback.edge? b = some target) :
    Chases t b s 1 target
  /-- The next link leads to a state from which the chase goes on. -/
  | onward {s target : StateId} {n fallback : Node} {links : Nat} (hs : t.node s = .ok n)
      (hfail : t.node n.fail = .ok fallback) (hedge : fallback.edge? b = none)
      (hrest : Chases t b n.fail links target) :
    Chases t b s (links + 1) target

/-- The children of `s` on the edges are linked in turn, each after a chase of its own. -/
inductive LinksChildren (inherit : Bool) (s : StateId) :
    Trie → List Edge → List (StateId × Nat) → Trie → Prop
  | nil {t : Trie} : LinksChildren inherit s t [] [] t
  | cons {t u v : Trie} {e : Edge} {edges : List Edge} {target : StateId} {links : Nat}
      {children : List (StateId × Nat)} (hchase : Chases t e.1 s links target)
      (hset : t.setFail inherit e.2 target = .ok u)
      (hrest : LinksChildren inherit s u edges children v) :
    LinksChildren inherit s t (e :: edges) ((e.2, links) :: children) v

/-- The turns that a visit takes until its queue is empty. -/
inductive Visits (inherit : Bool) : Trie → List StateId → List Turn → Trie → Prop
  | done {t : Trie} : Visits inherit t [] [] t
  | turn {t u v : Trie} {s : StateId} {n : Node} {queue : List StateId} {turn : Turn}
      {turns : List Turn} (hs : t.node s = .ok n) (hstate : turn.state = s)
      (hchildren : LinksChildren inherit s t n.edges turn.children u)
      (hrest : Visits inherit u (queue ++ turn.queued) turns v) :
    Visits inherit t (s :: queue) (turn :: turns) v

/-- A run of the pass that links all states. The children `queued` of the root are linked to it and
put into the queue, and the visit takes `turns`. -/
inductive LinkRun (inherit : Bool) (t : Trie) : List StateId → List Turn → LinkedTrie → Prop
  | run {root : Node} {closed linked u : Trie} {turns : List Turn}
      (hroot : t.node .root = .ok root) (hclosed : t.closeRoot = .ok closed)
      (hlinked : (root.edges.map (·.2)).foldlM (setFail inherit · · .root) closed = .ok linked)
      (hvisits : Visits inherit linked (root.edges.map (·.2)) turns u) :
    LinkRun inherit t (root.edges.map (·.2)) turns
      { trie := u, order := .root :: turns.map Turn.state }

/-! ## Chases -/

/-- A bounded chase succeeds if a chase without bound follows no more links than that. -/
theorem chase_eq_ok_iff {bound : Nat} :
    t.chase b bound s = .ok target ↔ ∃ links ≤ bound, Chases t b s links target := by
  induction bound generalizing s with
  | zero =>
    constructor
    · intro h
      cases h
    · -- every chase follows a link
      rintro ⟨links, hle, hchase⟩
      cases hchase <;> omega
  | succ bound ih =>
    constructor
    · intro h
      obtain ⟨n, hs, h⟩ := bind_eq_ok_iff.mp h
      obtain ⟨fallback, hfail, h⟩ := bind_eq_ok_iff.mp h
      cases hedge : fallback.edge? b with
      | some next =>
        rw [hedge] at h
        obtain rfl : next = target := Except.ok.inj h
        exact ⟨1, Nat.le_add_left 1 bound, .found hs hfail hedge⟩
      | none =>
        rw [hedge] at h
        obtain ⟨links, hle, hrest⟩ := ih.mp h
        exact ⟨links + 1, Nat.succ_le_succ hle, .onward hs hfail hedge hrest⟩
    · rintro ⟨links, hle, hchase⟩
      cases hchase with
      | found hs hfail hedge => rw [chase, hs, ok_bind, hfail, ok_bind, hedge]
      | onward hs hfail hedge hrest =>
        rw [chase, hs, ok_bind, hfail, ok_bind, hedge]
        exact ih.mpr ⟨_, Nat.le_of_succ_le_succ hle, hrest⟩

/-! ## A run is determined -/

theorem Chases.unique {links links' : Nat} {target' : StateId} (h : Chases t b s links target)
    (h' : Chases t b s links' target') : links = links' ∧ target = target' := by
  induction h generalizing links' with
  | found hs hfail hedge =>
    cases h' with
    | found hs' hfail' hedge' =>
      obtain rfl := Except.ok.inj (hs.symm.trans hs')
      obtain rfl := Except.ok.inj (hfail.symm.trans hfail')
      exact ⟨rfl, Option.some_inj.mp (hedge.symm.trans hedge')⟩
    | onward hs' hfail' hedge' hrest' =>
      obtain rfl := Except.ok.inj (hs.symm.trans hs')
      obtain rfl := Except.ok.inj (hfail.symm.trans hfail')
      rw [hedge] at hedge'
      cases hedge'
  | onward hs hfail hedge hrest ih =>
    cases h' with
    | found hs' hfail' hedge' =>
      obtain rfl := Except.ok.inj (hs.symm.trans hs')
      obtain rfl := Except.ok.inj (hfail.symm.trans hfail')
      rw [hedge] at hedge'
      cases hedge'
    | onward hs' hfail' hedge' hrest' =>
      obtain rfl := Except.ok.inj (hs.symm.trans hs')
      obtain ⟨rfl, rfl⟩ := ih hrest'
      exact ⟨rfl, rfl⟩

theorem LinksChildren.unique {children children' : List (StateId × Nat)} {u' : Trie}
    (h : LinksChildren inherit s t edges children u)
    (h' : LinksChildren inherit s t edges children' u') : children = children' ∧ u = u' := by
  induction h generalizing children' with
  | nil =>
    cases h'
    exact ⟨rfl, rfl⟩
  | cons hchase hset hrest ih =>
    cases h' with
    | cons hchase' hset' hrest' =>
      obtain ⟨rfl, rfl⟩ := hchase.unique hchase'
      obtain rfl := Except.ok.inj (hset.symm.trans hset')
      obtain ⟨rfl, rfl⟩ := ih hrest'
      exact ⟨rfl, rfl⟩

theorem Visits.unique {turns turns' : List Turn} {u' : Trie} (h : Visits inherit t queue turns u)
    (h' : Visits inherit t queue turns' u') : turns = turns' ∧ u = u' := by
  induction h generalizing turns' with
  | done =>
    cases h'
    exact ⟨rfl, rfl⟩
  | @turn t u v s n queue turn turns hs hstate hchildren hrest ih =>
    cases h' with
    | @turn _ _ _ _ _ _ turn' turns' hs' hstate' hchildren' hrest' =>
      obtain rfl := Except.ok.inj (hs.symm.trans hs')
      obtain ⟨hsame, rfl⟩ := hchildren.unique hchildren'
      obtain rfl : turn = turn' := Turn.ext (hstate.trans hstate'.symm) hsame
      obtain ⟨rfl, rfl⟩ := ih hrest'
      exact ⟨rfl, rfl⟩

theorem LinkRun.unique {queued queued' : List StateId} {turns turns' : List Turn}
    {l l' : LinkedTrie} (h : LinkRun inherit t queued turns l)
    (h' : LinkRun inherit t queued' turns' l') : queued' = queued ∧ turns' = turns ∧ l' = l := by
  obtain ⟨hroot, hclosed, hlinked, hvisits⟩ := h
  obtain ⟨hroot', hclosed', hlinked', hvisits'⟩ := h'
  obtain rfl := Except.ok.inj (hroot.symm.trans hroot')
  obtain rfl := Except.ok.inj (hclosed.symm.trans hclosed')
  obtain rfl := Except.ok.inj (hlinked.symm.trans hlinked')
  obtain ⟨rfl, rfl⟩ := hvisits.unique hvisits'
  exact ⟨rfl, rfl, rfl⟩

/-! ## The queue -/

theorem LinksChildren.map_fst {children : List (StateId × Nat)}
    (h : LinksChildren inherit s t edges children u) :
    children.map Prod.fst = edges.map Prod.snd := by
  induction h with
  | nil => rfl
  | cons hchase hset hrest ih => rw [List.map_cons, List.map_cons, ih]

/-- First in, first out: what is in the queue and what the turns put there is what they take. -/
theorem Visits.map_state {turns : List Turn} (h : Visits inherit t queue turns u) :
    turns.map Turn.state = queue ++ turns.flatMap Turn.queued := by
  induction h with
  | done => rfl
  | turn hs hstate hchildren hrest ih =>
    rw [List.map_cons, List.flatMap_cons, ih, hstate, List.cons_append, List.append_assoc]

/-! ## Depths -/

/-- The depth of the state `s`, if there is one. -/
def depth? (t : Trie) (s : StateId) : Option UInt32 := t.nodes[s.index]?.map Node.depth

theorem depth?_of_node (h : t.node s = .ok n) : t.depth? s = some n.depth := by
  rw [depth?, Checked.entry_eq_ok_iff.mp h, Option.map_some]

theorem depth?_of_update {f : Node → Node} (h : t.update s f = .ok u)
    (hf : ∀ n, (f n).depth = n.depth) : u.depth? = t.depth? := by
  obtain ⟨n, -, h⟩ := bind_eq_ok_iff.mp h
  cases h
  funext r
  rw [depth?, depth?, Array.getElem?_modify]
  by_cases hsr : s.index = r.index
  · rw [if_pos hsr, Option.map_map]
    exact congrArg (Option.map · _) (funext hf)
  · rw [if_neg hsr]

theorem depth?_of_setFail (h : t.setFail inherit s target = .ok u) : u.depth? = t.depth? := by
  obtain ⟨pointed, hpointed, h⟩ := bind_eq_ok_iff.mp h
  have hdepth : pointed.depth? = t.depth? := depth?_of_update hpointed fun _ ↦ rfl
  by_cases hinherit : inherit ∧ target ≠ s
  · rw [if_pos hinherit] at h
    obtain ⟨suffix, -, h⟩ := bind_eq_ok_iff.mp h
    rw [depth?_of_update h fun _ ↦ rfl, hdepth]
  · rw [if_neg hinherit] at h
    cases h
    exact hdepth

theorem LinksChildren.depth? {children : List (StateId × Nat)}
    (h : LinksChildren inherit s t edges children u) : u.depth? = t.depth? := by
  induction h with
  | nil => rfl
  | cons hchase hset hrest ih => rw [ih, depth?_of_setFail hset]

theorem depth?_of_foldlM_setFail {states : List StateId}
    (h : states.foldlM (setFail inherit · · target) t = .ok u) : u.depth? = t.depth? := by
  induction states generalizing t with
  | nil =>
    cases h
    rfl
  | cons s states ih =>
    rw [List.foldlM_cons] at h
    obtain ⟨v, hset, h⟩ := bind_eq_ok_iff.mp h
    rw [ih h, depth?_of_setFail hset]

end Trie

/-- No chase of the turn follows more links than its state is deep in `t`. -/
def Turn.WithinDepth (t : Trie) (turn : Turn) : Prop :=
  ∃ d, t.depth? turn.state = some d ∧ ∀ child ∈ turn.children, child.2 ≤ d.toNat

namespace Trie

/-! ## From bounded loops to runs -/

theorem exists_linksChildren (hd : t.depth? s = some d)
    (h : edges.foldlM (linkChild inherit s) t = .ok u) :
    ∃ children, LinksChildren inherit s t edges children u ∧
      ∀ child ∈ children, child.2 ≤ d.toNat := by
  induction edges generalizing t with
  | nil =>
    cases h
    exact ⟨[], .nil, by simp⟩
  | cons e edges ih =>
    rw [List.foldlM_cons] at h
    obtain ⟨v, hlink, h⟩ := bind_eq_ok_iff.mp h
    obtain ⟨parent, hparent, hlink⟩ := bind_eq_ok_iff.mp hlink
    obtain ⟨target, hchase, hset⟩ := bind_eq_ok_iff.mp hlink
    obtain ⟨links, hle, hchase⟩ := chase_eq_ok_iff.mp hchase
    obtain rfl : parent.depth = d := Option.some_inj.mp ((depth?_of_node hparent).symm.trans hd)
    have hkept : v.depth? s = some parent.depth := by rw [depth?_of_setFail hset, hd]
    obtain ⟨children, hrest, hbound⟩ := ih hkept h
    refine ⟨(e.2, links) :: children, .cons hchase hset hrest, ?_⟩
    exact List.forall_mem_cons.mpr ⟨hle, hbound⟩

theorem exists_visits {bound : Nat} {l : LinkedTrie}
    (h : visit inherit (fun _ edges ↦ edges) bound t queue = .ok l) :
    ∃ turns, Visits inherit t queue turns l.trie ∧ l.order = turns.map Turn.state ∧
      ∀ turn ∈ turns, turn.WithinDepth t := by
  induction bound generalizing t queue l with
  | zero =>
    cases queue with
    | nil =>
      cases h
      exact ⟨[], .done, rfl, by simp⟩
    | cons s queue => cases h
  | succ bound ih =>
    cases queue with
    | nil =>
      cases h
      exact ⟨[], .done, rfl, by simp⟩
    | cons s queue =>
      obtain ⟨n, hs, h⟩ := bind_eq_ok_iff.mp h
      obtain ⟨u, hlinked, h⟩ := bind_eq_ok_iff.mp h
      obtain ⟨below, hbelow, h⟩ := bind_eq_ok_iff.mp h
      cases h
      have hd := depth?_of_node hs
      obtain ⟨children, hchildren, hbound⟩ := exists_linksChildren hd hlinked
      rw [← hchildren.map_fst] at hbelow
      obtain ⟨turns, hvisits, horder, hwithin⟩ := ih hbelow
      refine ⟨⟨s, children⟩ :: turns, .turn hs rfl hchildren hvisits, ?_, ?_⟩
      · rw [List.map_cons, ← horder]
      · -- the depths that the later turns compare with are those from before this turn
        simp only [Turn.WithinDepth, hchildren.depth?] at hwithin
        exact List.forall_mem_cons.mpr ⟨⟨n.depth, hd, hbound⟩, hwithin⟩

theorem exists_linkRun {l : LinkedTrie} (h : t.link inherit = .ok l) :
    ∃ queued turns, LinkRun inherit t queued turns l ∧
      turns.map Turn.state = queued ++ turns.flatMap Turn.queued ∧
      l.order = .root :: turns.map Turn.state ∧ ∀ turn ∈ turns, turn.WithinDepth t := by
  obtain ⟨root, hroot, h⟩ := bind_eq_ok_iff.mp h
  obtain ⟨closed, hclosed, h⟩ := bind_eq_ok_iff.mp h
  obtain ⟨linked, hlinked, h⟩ := bind_eq_ok_iff.mp h
  obtain ⟨below, hbelow, h⟩ := bind_eq_ok_iff.mp h
  cases h
  obtain ⟨turns, hvisits, horder, hwithin⟩ := exists_visits hbelow
  refine ⟨root.edges.map (·.2), turns, ?_, hvisits.map_state, ?_, ?_⟩
  · rw [horder]
    exact .run hroot hclosed hlinked hvisits
  · rw [horder]
  · have hdepth : closed.depth? = t.depth? := depth?_of_update hclosed fun _ ↦ rfl
    simp only [Turn.WithinDepth, depth?_of_foldlM_setFail hlinked, hdepth] at hwithin
    exact hwithin

/-! ## Grown tries -/

/-- Links and edges lead to states of the trie. -/
def InRange (t : Trie) : Prop :=
  ∀ s n, t.node s = .ok n → n.fail.index < t.size ∧ ∀ e ∈ n.edges, e.2.index < t.size

theorem inRange_linkedTrie (inherit : Bool) (hn : Numbering (livePaths patterns)) :
    (linkedTrie inherit patterns).InRange := by
  intro s n hs
  obtain ⟨w, hw, rfl, rfl⟩ := exists_of_getElem?_ofPaths hn (Checked.entry_eq_ok_iff.mp hs)
  rw [linkedTrie, size_ofPaths]
  have hsuffix := fun x ↦ hn.index_ofPath_lt (mem_livePaths.mpr (isLive_liveSuffix patterns x))
  refine ⟨hsuffix w.tail, fun e he ↦ ?_⟩
  rw [linkedNode, closedEdges] at he
  by_cases hnil : w = []
  · rw [if_pos hnil] at he
    obtain ⟨b, -, rfl⟩ := List.mem_map.mp he
    exact hsuffix [b]
  · rw [if_neg hnil] at he
    obtain ⟨b, hb, rfl⟩ := List.mem_map.mp he
    exact hn.index_ofPath_lt (mem_growing.mp hb)

theorem InRange.of_bare (hu : u.InRange) (h : t.bare = u.bare) : t.InRange := by
  intro s n hs
  obtain ⟨m, hm, hmn⟩ := exists_node_of_bare h hs
  rw [size_eq_of_bare h, ← n.fail_bare, ← n.edges_bare, ← hmn]
  exact hu s m hm

theorem exists_root_of_bare (hn : Numbering (livePaths patterns))
    (h : t.bare = (linkedTrie inherit patterns).bare) :
    ∃ root, t.node .root = .ok root ∧ ∀ b, (root.edge? b).isSome = true := by
  have hroot : (linkedTrie inherit patterns).node .root = .ok (linkedNode inherit patterns []) := by
    rw [← hn.ofPath_nil]
    exact node_ofPaths hn hn.nil_mem _
  obtain ⟨root, hnode, hbare⟩ := exists_node_of_bare h.symm hroot
  refine ⟨root, hnode, fun b ↦ ?_⟩
  rw [← root.edge?_bare, hbare, Node.edge?_bare, edge?_root, Option.isSome_some]

/-- **Linking ends, for every trie that insertions have made.** The run of the loops without bounds
exists, there is no other, and it is what `link` computes: every state that is looked up is there.
States are taken from the queue in the order in which they were put in, and these are all states
but the root, each of them once. The chase for a child of a state follows at most as many links as
the state is deep. In the end the root has an edge on every byte, and all links and edges lead to
states. -/
theorem link_of_grown (h : Grown c t) (inherit : Bool) :
    ∃ queued turns l, t.link inherit = .ok l ∧
      (∀ queued' turns' l', LinkRun inherit t queued' turns' l' ↔
        queued' = queued ∧ turns' = turns ∧ l' = l) ∧
      turns.map Turn.state = queued ++ turns.flatMap Turn.queued ∧
      .root ∉ queued ++ turns.flatMap Turn.queued ∧
      (turns.map Turn.state).Nodup ∧
      (∀ s, s ∈ turns.map Turn.state ↔ s ≠ .root ∧ s.index < t.size) ∧
      (∀ turn ∈ turns, turn.WithinDepth t) ∧
      (∃ root, l.trie.node .root = .ok root ∧ ∀ b, (root.edge? b).isSome = true) ∧
      l.trie.InRange := by
  obtain ⟨patterns, hn, hbare⟩ := h.exists_bare
  obtain ⟨order, u, hf, hu, hlink⟩ :=
    linkArranged_of_bare hn hbare inherit (fun _ edges ↦ edges) fun _ edges ↦ .refl edges
  obtain ⟨queued, turns, hrun, hqueue, horder, hwithin⟩ := exists_linkRun hlink
  have hsize : t.size = (livePaths patterns).length := by
    rw [size_eq_of_bare hbare, ofLiveStrings, plain, size_ofPaths]
  have hmem : ∀ s, s ∈ StateId.root :: turns.map Turn.state ↔ s.index < t.size := by
    intro s
    rw [hsize, ← horder]
    exact hf.mem_map_ofPath_iff hn
  -- the order of the visit is the root and then what the turns take
  have hnodup : (StateId.root :: turns.map Turn.state).Nodup := by
    rw [← horder]
    exact hf.nodup_map_ofPath hn
  obtain ⟨hroot, hnodup⟩ := List.nodup_cons.mp hnodup
  refine ⟨queued, turns, _, hlink, fun queued' turns' l' ↦ ⟨hrun.unique, ?_⟩, hqueue,
    hqueue ▸ hroot, hnodup, fun s ↦ ⟨fun hs ↦ ⟨?_, ?_⟩, ?_⟩, hwithin,
    exists_root_of_bare hn hu, (inRange_linkedTrie inherit hn).of_bare hu⟩
  · rintro ⟨rfl, rfl, rfl⟩
    exact hrun
  · exact ne_of_mem_of_not_mem hs hroot
  · exact (hmem s).mp (List.mem_cons_of_mem _ hs)
  · rintro ⟨hs, hlt⟩
    exact (List.mem_cons.mp ((hmem s).mpr hlt)).resolve_left hs

/-- The patterns `ab` and `b`, inserted under ids that do not count up. -/
theorem link_of_grown_anyIds :
    ∃ t queued turns l, Grown .default t ∧ t.size = 4 ∧ t.link true = .ok l ∧
      LinkRun true t queued turns l ∧ ⟨3⟩ ∈ turns.map Turn.state ∧
      ∀ turn ∈ turns, turn.WithinDepth t := by
  obtain ⟨t, hgrown, hsize⟩ : ∃ t, Grown .default t ∧ t.size = 4 :=
    ⟨_, @Grown.insert _ _ _ 3 [98] (@Grown.insert _ _ _ 7 [97, 98] (.start rfl) rfl) rfl, rfl⟩
  obtain ⟨queued, turns, l, hlink, hrun, -, -, -, hmem, hwithin, -⟩ := link_of_grown hgrown true
  refine ⟨t, queued, turns, l, hgrown, hsize, hlink, (hrun _ _ _).mpr ⟨rfl, rfl, rfl⟩, ?_, hwithin⟩
  rw [hmem, hsize]
  decide

end Trie

end FirstHit
