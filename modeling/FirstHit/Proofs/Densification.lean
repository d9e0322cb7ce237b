import FirstHit.Automaton.Table
import FirstHit.Proofs.Linking

/-!
# The transition table in closed form

The entry of a string and a byte is to be the longest live suffix of the string grown by the byte.
Where the grown string is live there is an edge to it. Where it is not, the entry equals that of the
longest proper live suffix, and this one is read off the table while the table is being filled.

A table is therefore compared with the cells that have been filled so far (`Filled`). Filling a cell
enlarges their list by one, and what it reads is a cell of a shorter string. In a breadth-first
order these come first (`Frontier.mem_of_length_lt`), so the fill never reads what it has not
written.
-/

namespace FirstHit

variable {patterns visited queue : List Bytes} {cells : List (Bytes × UInt8)}
  {table : Array StateId} {v w : Bytes} {b d : UInt8}

/-! ## Filling -/

/-- A table of full size in which the cells in `cells` hold what they are to hold. -/
structure Filled (patterns : List Bytes) (cells : List (Bytes × UInt8))
    (table : Array StateId) : Prop where
  /-- There is a row for each live string. -/
  size : table.size = (livePaths patterns).length * Byte.count
  /-- The entry is the longest live suffix. -/
  entry : ∀ {w b}, (w, b) ∈ cells → isLive patterns w = true →
    table[Automaton.cell (.ofPath (livePaths patterns) w) b]?
      = some (.ofPath (livePaths patterns) (liveSuffix patterns (w ++ [b])))

/-- The cells of the row of a string. -/
def rowCells (w : Bytes) : List (Bytes × UInt8) := Byte.all.map fun b ↦ (w, b)

namespace Filled

theorem start (patterns : List Bytes) :
    Filled patterns []
      (Array.replicate ((livePaths patterns).length * Byte.count) StateId.root) where
  size := Array.size_replicate
  entry := fun h ↦ absurd h List.not_mem_nil

theorem set (hn : Numbering (livePaths patterns)) (hf : Filled patterns cells table)
    (hw : isLive patterns w = true) :
    Filled patterns (cells ++ [(w, b)])
      (table.setIfInBounds (Automaton.cell (.ofPath (livePaths patterns) w) b)
        (.ofPath (livePaths patterns) (liveSuffix patterns (w ++ [b])))) where
  size := by rw [Array.size_setIfInBounds, hf.size]
  entry := by
    intro v d hmem hv
    have hlt := Automaton.cell_lt (hn.index_ofPath_lt (mem_livePaths.mpr hw)) b
    rw [← hf.size] at hlt
    by_cases hcell : Automaton.cell (.ofPath (livePaths patterns) w) b
        = Automaton.cell (.ofPath (livePaths patterns) v) d
    · obtain ⟨hwv, rfl⟩ := Automaton.cell_inj.mp hcell
      obtain rfl := (hn.ofPath_inj (mem_livePaths.mpr hw) (mem_livePaths.mpr hv)).mp hwv
      exact Array.getElem?_setIfInBounds_self_of_lt hlt
    · -- a cell that is left alone is not the new one, so it was filled before
      rw [Array.getElem?_setIfInBounds_ne hcell]
      refine hf.entry ((List.mem_append.mp hmem).resolve_right fun h ↦ hcell ?_) hv
      obtain ⟨rfl, rfl⟩ := Prod.mk.inj (List.mem_singleton.mp h)
      rfl

/-- One cell. Unless the string is empty, the cell of its longest proper live suffix has to be
filled. -/
theorem fillCell (inherit : Bool) (hn : Numbering (livePaths patterns))
    (hf : Filled patterns cells table) (hw : isLive patterns w = true)
    (hfall : w ≠ [] → (liveSuffix patterns w.tail, b) ∈ cells) :
    ∃ filled, LinkedTrie.fillCell (linkedNode inherit patterns w)
        (.ofPath (livePaths patterns) w) table b = .ok filled ∧
      Filled patterns (cells ++ [(w, b)]) filled := by
  refine ⟨_, ?_, hf.set hn hw⟩
  have hlt := Automaton.cell_lt (hn.index_ofPath_lt (mem_livePaths.mpr hw)) b
  rw [← hf.size] at hlt
  rw [LinkedTrie.fillCell, Checked.entry_of_lt hlt]
  by_cases hne : w = []
  · subst hne
    rw [edge?_root, List.nil_append]
    rfl
  · rw [edge?_linkedNode hne]
    by_cases hgrow : isLive patterns (w ++ [b]) = true
    · rw [if_pos hgrow, liveSuffix_eq_self hgrow]
      rfl
    · have hentry := hf.entry (hfall hne) (isLive_liveSuffix patterns _)
      rw [← liveSuffix_append_of_not_isLive hne hgrow] at hentry
      rw [if_neg hgrow, linkedNode, Checked.entry_eq_ok_iff.mpr hentry]
      rfl

theorem foldlM_fillCell (inherit : Bool) (hn : Numbering (livePaths patterns))
    (hf : Filled patterns cells table) (hw : isLive patterns w = true)
    (hfall : w ≠ [] → ∀ b, (liveSuffix patterns w.tail, b) ∈ cells) (bs : List UInt8) :
    ∃ filled, bs.foldlM (LinkedTrie.fillCell (linkedNode inherit patterns w)
        (.ofPath (livePaths patterns) w)) table = .ok filled ∧
      Filled patterns (cells ++ bs.map fun b ↦ (w, b)) filled := by
  induction bs generalizing cells table with
  | nil => exact ⟨table, rfl, by rwa [List.map_nil, List.append_nil]⟩
  | cons b bs ih =>
    obtain ⟨first, hfirst, hf'⟩ := hf.fillCell inherit hn hw (hfall · b)
    obtain ⟨filled, hfilled, hrow⟩ := ih hf' fun hne d ↦
      List.mem_append_left _ (hfall hne d)
    refine ⟨filled, ?_, ?_⟩
    · rw [List.foldlM_cons, hfirst, ok_bind, hfilled]
    · rwa [List.map_cons, List.append_cons]

theorem fillRow (inherit : Bool) (hn : Numbering (livePaths patterns))
    (hf : Filled patterns cells table) (hw : isLive patterns w = true)
    (hfall : w ≠ [] → ∀ b, (liveSuffix patterns w.tail, b) ∈ cells) :
    ∃ filled, LinkedTrie.fillRow (Trie.linkedTrie inherit patterns) table
        (.ofPath (livePaths patterns) w) = .ok filled ∧
      Filled patterns (cells ++ rowCells w) filled := by
  have hnode : (Trie.linkedTrie inherit patterns).node (.ofPath (livePaths patterns) w)
      = .ok (linkedNode inherit patterns w) := Trie.node_ofPaths hn (mem_livePaths.mpr hw) _
  rw [LinkedTrie.fillRow, hnode, ok_bind]
  exact hf.foldlM_fillCell inherit hn hw hfall Byte.all

/-- The rows in a breadth-first order. -/
theorem foldlM_fillRow (inherit : Bool) (hn : Numbering (livePaths patterns))
    (hf : Filled patterns (visited.flatMap rowCells) table)
    (horder : Frontier patterns (visited ++ queue) []) :
    ∃ filled, (queue.map (.ofPath (livePaths patterns))).foldlM
        (LinkedTrie.fillRow (Trie.linkedTrie inherit patterns)) table = .ok filled ∧
      Filled patterns ((visited ++ queue).flatMap rowCells) filled := by
  induction queue generalizing visited table with
  | nil => exact ⟨table, rfl, by rwa [List.append_nil]⟩
  | cons w queue ih =>
    have hw : isLive patterns w = true :=
      horder.mem_iff.mp (List.mem_append_right _ List.mem_cons_self)
    -- the link of `w` leads to a shorter string, whose row has been filled
    obtain ⟨first, hfirst, hf'⟩ := hf.fillRow inherit hn hw fun hne b ↦ by
      have hmem := horder.mem_of_length_lt (isLive_liveSuffix patterns _)
        (length_liveSuffix_tail_lt patterns hne)
      exact List.mem_flatMap.mpr ⟨_, hmem, List.mem_map_of_mem (Byte.mem_all b)⟩
    rw [List.append_cons] at horder ⊢
    obtain ⟨filled, hfilled, hrows⟩ := ih (by rwa [List.flatMap_append, List.flatMap_singleton])
      horder
    refine ⟨filled, ?_, hrows⟩
    rw [List.map_cons, List.foldlM_cons, hfirst, ok_bind, hfilled]

end Filled

/-! ## The whole table -/

/-- The table whose entries are the longest live suffixes. -/
def liveTable (patterns : List Bytes) : Array StateId :=
  Array.ofFn fun i : Fin ((livePaths patterns).length * Byte.count) ↦
    .ofPath (livePaths patterns) (liveSuffix patterns
      ((livePaths patterns).getD (i.val / Byte.count) [] ++ [UInt8.ofNat (i.val % Byte.count)]))

theorem getElem?_liveTable (hn : Numbering (livePaths patterns)) (hw : isLive patterns w = true)
    (b : UInt8) :
    (liveTable patterns)[Automaton.cell (.ofPath (livePaths patterns) w) b]?
      = some (.ofPath (livePaths patterns) (liveSuffix patterns (w ++ [b]))) := by
  have hmem := mem_livePaths.mpr hw
  have hlt := Automaton.cell_lt (hn.index_ofPath_lt hmem) b
  have hb := b.toNat_lt
  have hrow : Automaton.cell (.ofPath (livePaths patterns) w) b / Byte.count
      = (livePaths patterns).idxOf w := by
    rw [Automaton.cell, hn.index_ofPath hmem, Byte.count]
    omega
  have hcolumn : Automaton.cell (.ofPath (livePaths patterns) w) b % Byte.count = b.toNat := by
    rw [Automaton.cell, Byte.count]
    omega
  rw [liveTable, Array.getElem?_ofFn, dif_pos hlt, hrow, hcolumn, UInt8.ofNat_toNat,
    List.getD_eq_getElem?_getD, List.getElem?_idxOf hmem, Option.getD_some]

theorem Numbering.exists_cell {paths : List Bytes} {i : Nat} (hn : Numbering paths)
    (hi : i < paths.length * Byte.count) :
    ∃ w ∈ paths, ∃ b, Automaton.cell (.ofPath paths w) b = i := by
  rw [Byte.count] at hi
  have hrow : i / 256 < paths.length := by omega
  have hcolumn : i % 256 < 256 := Nat.mod_lt i (by decide)
  refine ⟨paths[i / 256], List.getElem_mem hrow, UInt8.ofNat (i % 256), ?_⟩
  rw [Automaton.cell, hn.index_ofPath (List.getElem_mem hrow), hn.nodup.idxOf_getElem,
    UInt8.toNat_ofNat_of_lt' hcolumn, Byte.count]
  omega

theorem Filled.eq_liveTable (hn : Numbering (livePaths patterns))
    (hf : Filled patterns cells table)
    (hall : ∀ w b, isLive patterns w = true → (w, b) ∈ cells) : table = liveTable patterns := by
  have hsize : (liveTable patterns).size = (livePaths patterns).length * Byte.count :=
    Array.size_ofFn
  refine Array.ext (hf.size.trans hsize.symm) fun i hi hi' ↦ Option.some_inj.mp ?_
  obtain ⟨w, hw, b, rfl⟩ := hn.exists_cell (hf.size ▸ hi)
  have hlive := mem_livePaths.mp hw
  rw [← Array.getElem?_eq_getElem hi, ← Array.getElem?_eq_getElem hi',
    hf.entry (hall w b hlive) hlive, getElem?_liveTable hn hlive]

/-- **The table in closed form.** The fill succeeds, and every entry is the longest live suffix. -/
theorem LinkedTrie.table_linkedTrie (hn : Numbering (livePaths patterns)) {order : List Bytes}
    (horder : Frontier patterns order []) (inherit : Bool) :
    LinkedTrie.table { trie := Trie.linkedTrie inherit patterns
                       order := order.map (.ofPath (livePaths patterns)) }
      = .ok (liveTable patterns) := by
  have hstart : Filled patterns (([] : List Bytes).flatMap rowCells) _ := Filled.start patterns
  obtain ⟨table, htable, hfilled⟩ := hstart.foldlM_fillRow inherit hn horder
  rw [LinkedTrie.table, Trie.linkedTrie, Trie.size_ofPaths, ← Trie.linkedTrie, htable]
  refine congrArg Except.ok (hfilled.eq_liveTable hn fun w b hw ↦ ?_)
  exact List.mem_flatMap.mpr ⟨w, horder.mem_iff.mpr hw, List.mem_map_of_mem (Byte.mem_all b)⟩

end FirstHit
