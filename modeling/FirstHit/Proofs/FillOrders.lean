import FirstHit.Proofs.FirstAppearance
import FirstHit.Proofs.LinkRuns

/-!
# The order in which rows are filled

The visit that sets links returns the states in the order in which it met them, and the table is
filled row by row in this order. Where a state has no edge on a byte, the fill copies from the row
of the state's link, and it does so without asking whether that row is finished. What makes this
right is a property of the order alone (`LinkedTrie.FillOrder`): every state comes behind its parent
and behind the target of its link.

The other half is a property of the fill alone. Filling a row writes to no other row
(`LinkedTrie.getElem?_of_foldlM_fillRow`), so a row keeps what it got when its own turn has passed.
Together they say what is read: at every moment of the fill (`LinkedTrie.tableAt`), if the next cell
is to be copied, the row that it is copied from is as it will be in the end
(`Trie.fillOrder_of_grown`).
-/

namespace FirstHit

open Automaton (cell)

variable {c : Config} {patterns order : List Bytes} {inherit : Bool} {t u : Trie} {l : LinkedTrie}
  {n : Node} {s r : StateId} {b d : UInt8} {v w : Bytes} {table filled : Array StateId}
  {rows before after : List StateId} {bytes : List UInt8}

/-! ## Orders -/

/-- The order of `l` is an order in which the rows of the table can be filled, where `l` comes from
linking the trie `t`. -/
structure LinkedTrie.FillOrder (t : Trie) (l : LinkedTrie) : Prop where
  /-- The root comes first. -/
  head : l.order.head? = some .root
  /-- No state comes twice. -/
  nodup : l.order.Nodup
  /-- Every state comes, and nothing else does. -/
  mem_iff : ∀ s, s ∈ l.order ↔ s.index < t.size
  /-- Depths never decrease. -/
  sorted : l.order.Pairwise fun s r ↦
    ∀ m n, l.trie.node s = .ok m → l.trie.node r = .ok n → m.depth ≤ n.depth
  /-- A state that is not the root has a parent, and comes behind it. -/
  parent : ∀ before r after, l.order = before ++ r :: after → r ≠ .root →
    (∃ s b, t.child? s b = some r) ∧ ∀ s b, t.child? s b = some r → s ∈ before
  /-- A state that is not the root comes behind the target of its link. -/
  link : ∀ before r after, l.order = before ++ r :: after → r ≠ .root →
    ∀ n, l.trie.node r = .ok n → n.fail ∈ before

theorem Frontier.exists_ofPath_of_split (hf : Frontier patterns order [])
    (horder : order.map (StateId.ofPath (livePaths patterns)) = before ++ r :: after) :
    ∃ w, isLive patterns w = true ∧ r = .ofPath (livePaths patterns) w ∧
      ∀ v, isLive patterns v = true → v.length < w.length →
        StateId.ofPath (livePaths patterns) v ∈ before := by
  obtain ⟨visited, queue, rfl, rfl, hqueue⟩ := List.map_eq_append_iff.mp horder
  obtain ⟨w, queue, rfl, rfl, -⟩ := List.map_eq_cons_iff.mp hqueue
  refine ⟨w, hf.mem_iff.mp (List.mem_append_right _ List.mem_cons_self), rfl, fun v hv hlt ↦ ?_⟩
  exact List.mem_map_of_mem (hf.mem_of_length_lt hv hlt)

namespace Trie

theorem child?_bare (t : Trie) (s : StateId) (b : UInt8) : t.bare.child? s b = t.child? s b := by
  rw [child?, child?, bare, Array.getElem?_map, Option.bind_map]
  rfl

theorem node_of_linkedTrie (hn : Numbering (livePaths patterns))
    (hu : u.bare = (linkedTrie inherit patterns).bare) (hw : isLive patterns w = true)
    (hnode : u.node (.ofPath (livePaths patterns) w) = .ok n) :
    n.depth.toNat = w.length ∧
      n.fail = .ofPath (livePaths patterns) (liveSuffix patterns w.tail) := by
  obtain ⟨m, hm, hbare⟩ := exists_node_of_bare hu hnode
  have hlinked : (linkedTrie inherit patterns).node (.ofPath (livePaths patterns) w)
      = .ok (linkedNode inherit patterns w) := node_ofPaths hn (mem_livePaths.mpr hw) _
  obtain rfl := Except.ok.inj (hlinked.symm.trans hm)
  have hdepth : n.bare.depth = (linkedNode inherit patterns w).bare.depth :=
    congrArg Node.depth hbare.symm
  have hfail : n.bare.fail = (linkedNode inherit patterns w).bare.fail :=
    congrArg Node.fail hbare.symm
  exact ⟨(congrArg UInt32.toNat hdepth).trans (toNat_depth_linkedNode inherit hn hw), hfail⟩

/-- **The visit returns an order to fill rows in.** Parents and the targets of links have shorter
strings than the state, and the visit takes shorter strings first. -/
theorem fillOrder_of_frontier (hn : Numbering (livePaths patterns))
    (ht : t.bare = (ofLiveStrings patterns).bare) (hf : Frontier patterns order [])
    (hu : l.trie.bare = (linkedTrie inherit patterns).bare)
    (horder : l.order = order.map (.ofPath (livePaths patterns)))
    (hroot : l.order.head? = some .root) : l.FillOrder t where
  head := hroot
  nodup := horder ▸ hf.nodup_map_ofPath hn
  mem_iff := by
    intro s
    rw [size_eq_of_bare ht, ofLiveStrings, plain, size_ofPaths, horder]
    exact hf.mem_map_ofPath_iff hn
  sorted := by
    have hsorted := hf.sorted
    rw [List.append_nil] at hsorted
    rw [horder]
    refine List.pairwise_map.mpr (hsorted.imp_of_mem fun hv hw hle m n hm hnode ↦ ?_)
    rw [UInt32.le_iff_toNat_le, (node_of_linkedTrie hn hu (hf.mem_iff.mp hv) hm).1,
      (node_of_linkedTrie hn hu (hf.mem_iff.mp hw) hnode).1]
    exact hle
  parent := by
    intro before r after hsplit hr
    obtain ⟨w, hw, rfl, hbefore⟩ := hf.exists_ofPath_of_split (horder.symm.trans hsplit)
    simp only [← child?_bare t, ht]
    simp only [child?_bare, child?_eq_some_iff hn]
    constructor
    · obtain rfl | ⟨v, b, rfl⟩ := List.eq_nil_or_concat' w
      · exact absurd hn.ofPath_nil hr
      · exact ⟨_, b, v, hw, rfl, rfl⟩
    · rintro s b ⟨v, hgrow, rfl, hpath⟩
      obtain rfl := (hn.ofPath_inj (mem_livePaths.mpr hw) (mem_livePaths.mpr hgrow)).mp hpath
      exact hbefore v (isLive_of_append hgrow) (by simp)
  link := by
    intro before r after hsplit hr n hnode
    obtain ⟨w, hw, rfl, hbefore⟩ := hf.exists_ofPath_of_split (horder.symm.trans hsplit)
    have hne : w ≠ [] := fun h ↦ hr (h ▸ hn.ofPath_nil)
    rw [(node_of_linkedTrie hn hu hw hnode).2]
    exact hbefore _ (isLive_liveSuffix patterns _) (length_liveSuffix_tail_lt patterns hne)

end Trie

/-! ## Filling writes to one row at a time -/

namespace LinkedTrie

theorem exists_of_fillCell (h : fillCell n s table b = .ok filled) :
    ∃ target, filled = table.setIfInBounds (cell s b) target := by
  have hwrite : ∀ target : StateId, (do
      let _ ← Checked.entry table (cell s b)
      .ok (table.setIfInBounds (cell s b) target) : Checked (Array StateId)) = .ok filled →
      filled = table.setIfInBounds (cell s b) target := by
    intro target hwritten
    obtain ⟨old, -, hset⟩ := bind_eq_ok_iff.mp hwritten
    exact (Except.ok.inj hset).symm
  rw [fillCell] at h
  cases hedge : n.edge? b with
  | some target =>
    rw [hedge] at h
    exact ⟨target, hwrite target h⟩
  | none =>
    rw [hedge] at h
    obtain ⟨target, -, h⟩ := bind_eq_ok_iff.mp h
    exact ⟨target, hwrite target h⟩

theorem getElem?_of_foldlM_fillCell (h : bytes.foldlM (fillCell n s) table = .ok filled)
    (hne : s ≠ r) (d : UInt8) : filled[cell r d]? = table[cell r d]? := by
  induction bytes generalizing table with
  | nil =>
    cases h
    rfl
  | cons b bytes ih =>
    rw [List.foldlM_cons] at h
    obtain ⟨first, hfirst, h⟩ := bind_eq_ok_iff.mp h
    obtain ⟨target, rfl⟩ := exists_of_fillCell hfirst
    have hcell : cell s b ≠ cell r d := fun hcell ↦ hne (Automaton.cell_inj.mp hcell).1
    rw [ih h, Array.getElem?_setIfInBounds_ne hcell]

theorem getElem?_of_foldlM_fillRow (h : rows.foldlM (fillRow t) table = .ok filled)
    (hr : r ∉ rows) (d : UInt8) : filled[cell r d]? = table[cell r d]? := by
  induction rows generalizing table with
  | nil =>
    cases h
    rfl
  | cons s rows ih =>
    rw [List.mem_cons, not_or] at hr
    rw [List.foldlM_cons] at h
    obtain ⟨first, hfirst, h⟩ := bind_eq_ok_iff.mp h
    obtain ⟨n, -, hcells⟩ := bind_eq_ok_iff.mp hfirst
    rw [ih h hr.2, getElem?_of_foldlM_fillCell hcells (Ne.symm hr.1)]

/-! ## Moments of the fill -/

/-- The table at the moment when the rows of `rows` have been filled and, of the row of `s`, the
cells of `bytes`. -/
def tableAt (l : LinkedTrie) (rows : List StateId) (s : StateId) (bytes : List UInt8) :
    Checked (Array StateId) := do
  let table ← rows.foldlM (fillRow l.trie)
    (Array.replicate (l.trie.size * Byte.count) StateId.root)
  let node ← l.trie.node s
  bytes.foldlM (fillCell node s) table

theorem table_eq_of_moment {more : List UInt8} (horder : l.order = rows ++ s :: after)
    (hbytes : Byte.all = bytes ++ more) :
    l.table = (do
      let now ← l.tableAt rows s bytes
      let node ← l.trie.node s
      let row ← more.foldlM (fillCell node s) now
      after.foldlM (fillRow l.trie) row) := by
  rw [table, horder, List.foldlM_append, tableAt, bind_assoc]
  refine congrArg _ (funext fun table ↦ ?_)
  rw [List.foldlM_cons, fillRow, bind_assoc, bind_assoc]
  cases l.trie.node s with
  | error cause => rfl
  | ok node => rw [ok_bind, ok_bind, hbytes, List.foldlM_append, bind_assoc]; rfl

/-- At every moment, the rows whose turn has passed are as they will be in the end. -/
theorem exists_tableAt (htable : l.table = .ok table) (hnodup : l.order.Nodup)
    (horder : l.order = rows ++ s :: after) {more : List UInt8}
    (hbytes : Byte.all = bytes ++ more) :
    ∃ now node, l.tableAt rows s bytes = .ok now ∧ l.trie.node s = .ok node ∧
      ∀ r ∈ rows, ∀ d, now[cell r d]? = table[cell r d]? := by
  rw [table_eq_of_moment horder hbytes] at htable
  obtain ⟨now, hnow, htable⟩ := bind_eq_ok_iff.mp htable
  obtain ⟨node, hnode, htable⟩ := bind_eq_ok_iff.mp htable
  obtain ⟨row, hrow, hrest⟩ := bind_eq_ok_iff.mp htable
  refine ⟨now, node, hnow, hnode, fun r hr d ↦ ?_⟩
  -- the row of `r` is neither the one that is being filled nor among those that follow
  have hlater : r ∉ s :: after := fun h ↦
    (List.nodup_append.mp (horder ▸ hnodup)).2.2 r hr r h rfl
  rw [List.mem_cons, not_or] at hlater
  rw [getElem?_of_foldlM_fillRow hrest hlater.2,
    getElem?_of_foldlM_fillCell hrow (Ne.symm hlater.1)]

/-! ## Tables of bare tries -/

theorem fillRow_bare (t : Trie) : fillRow t.bare = fillRow t := by
  funext table s
  rw [fillRow, fillRow, Trie.node_bare, bind_map_left]
  rfl

theorem table_bare (l : LinkedTrie) : l.bare.table = l.table := by
  rw [table, table, bare, fillRow_bare, Trie.size_bare]

theorem table_of_bare (hn : Numbering (livePaths patterns)) (hf : Frontier patterns order [])
    (hu : l.trie.bare = (Trie.linkedTrie inherit patterns).bare)
    (horder : l.order = order.map (.ofPath (livePaths patterns))) :
    l.table = .ok (liveTable patterns) := by
  rw [← table_linkedTrie hn hf inherit, ← table_bare,
    ← table_bare (LinkedTrie.mk (Trie.linkedTrie inherit patterns) _), bare, bare, hu, horder]

end LinkedTrie

/-! ## Grown tries -/

namespace Trie

theorem ne_root_of_edge?_eq_none (hn : Numbering (livePaths patterns))
    (hu : u.bare = (linkedTrie inherit patterns).bare) (hnode : u.node s = .ok n)
    (hedge : n.edge? b = none) : s ≠ .root := by
  rintro rfl
  obtain ⟨root, hroot, hedges⟩ := exists_root_of_bare hn hu
  obtain rfl := Except.ok.inj (hnode.symm.trans hroot)
  have hsome := hedges b
  rw [hedge] at hsome
  cases hsome

/-- **The order of the visit is right for the fill.** For every trie that insertions have made,
linking returns the root first, every state once, with depths that do not decrease, and every state
but the root behind its parent and behind the target of its link. At every moment of the fill, if
the next cell is to be copied, then it does not belong to the root, and the row that it is copied
from has had its turn and holds what it holds in the end, in all of its cells. -/
theorem fillOrder_of_grown (h : Grown c t) (inherit : Bool) :
    ∃ l table, t.link inherit = .ok l ∧ l.FillOrder t ∧ l.table = .ok table ∧
      ∀ rows s after bytes b more, l.order = rows ++ s :: after → Byte.all = bytes ++ b :: more →
        ∃ now node, l.tableAt rows s bytes = .ok now ∧ l.trie.node s = .ok node ∧
          (node.edge? b = none → s ≠ .root ∧ node.fail ∈ rows ∧
            ∀ d, ∃ target, now[cell node.fail d]? = some target ∧
              table[cell node.fail d]? = some target) := by
  obtain ⟨patterns, hn, hbare⟩ := h.exists_bare
  obtain ⟨order, u, hf, hu, hlink⟩ :=
    linkArranged_of_bare hn hbare inherit (fun _ edges ↦ edges) fun _ edges ↦ .refl edges
  obtain ⟨queued, turns, -, -, horder, -⟩ := exists_linkRun hlink
  generalize hl : LinkedTrie.mk u (order.map (.ofPath (livePaths patterns))) = l at hlink horder
  have htrie : l.trie.bare = (linkedTrie inherit patterns).bare := by rw [← hl, hu]
  have hpaths : l.order = order.map (.ofPath (livePaths patterns)) := by rw [← hl]
  have hfill : l.FillOrder t :=
    fillOrder_of_frontier hn hbare hf htrie hpaths (by rw [horder, List.head?_cons])
  have htable : l.table = .ok (liveTable patterns) :=
    LinkedTrie.table_of_bare hn hf htrie hpaths
  refine ⟨_, _, hlink, hfill, htable, fun rows s after bytes b more hrows hbytes ↦ ?_⟩
  obtain ⟨now, node, hnow, hnode, hpassed⟩ :=
    LinkedTrie.exists_tableAt htable hfill.nodup hrows hbytes
  refine ⟨now, node, hnow, hnode, fun hedge ↦ ?_⟩
  have hs := ne_root_of_edge?_eq_none hn htrie hnode hedge
  have hfail := hfill.link rows s after hrows hs node hnode
  refine ⟨hs, hfail, fun d ↦ ?_⟩
  have hmem : node.fail ∈ l.order := hrows ▸ List.mem_append_left _ hfail
  rw [hpaths] at hmem
  obtain ⟨x, hx, hxfail⟩ := List.mem_map.mp hmem
  have hentry := getElem?_liveTable hn (hf.mem_iff.mp hx) d
  rw [hxfail] at hentry
  exact ⟨_, (hpassed _ hfail d).trans hentry, hentry⟩

/-- The patterns `ab` and `b`, inserted under ids that do not count up. The state of `b` has the
last number, but its row is filled before the row of `ab`, which copies from it. -/
theorem fillOrder_of_grown_lateNumber :
    ∃ t l table now, Grown .default t ∧ t.link true = .ok l ∧ l.FillOrder t ∧
      l.order = [⟨0⟩, ⟨1⟩, ⟨3⟩, ⟨2⟩] ∧ l.table = .ok table ∧
      l.tableAt [⟨0⟩, ⟨1⟩, ⟨3⟩] ⟨2⟩ [] = .ok now ∧
      ∀ d, ∃ target, now[cell ⟨3⟩ d]? = some target ∧ table[cell ⟨3⟩ d]? = some target := by
  obtain ⟨t, hgrown, horder, hlast⟩ : ∃ t, Grown .default t ∧
      LinkedTrie.order <$> t.link true = .ok [⟨0⟩, ⟨1⟩, ⟨3⟩, ⟨2⟩] ∧
      (t.link true >>= fun l ↦ l.trie.node ⟨2⟩)
        = .ok { fail := ⟨3⟩, depth := 2, ids := [3, 7] } :=
    ⟨_, @Grown.insert _ _ _ 7 [98] (@Grown.insert _ _ _ 3 [97, 98] (.start rfl) rfl) rfl, rfl, rfl⟩
  obtain ⟨l, table, hlink, hfill, htable, hmoments⟩ := fillOrder_of_grown hgrown true
  rw [hlink] at horder hlast
  have hsplit : l.order = [⟨0⟩, ⟨1⟩, ⟨3⟩] ++ ⟨2⟩ :: [] := Except.ok.inj horder
  obtain ⟨now, node, hnow, hnode, hcopied⟩ :=
    hmoments _ _ _ [] 0 (Byte.all.drop 1) hsplit rfl
  obtain rfl := Except.ok.inj (hnode.symm.trans hlast)
  obtain ⟨-, -, hrow⟩ := hcopied rfl
  exact ⟨t, l, table, now, hgrown, hlink, hfill, hsplit, htable, hnow, hrow⟩

end Trie

end FirstHit
