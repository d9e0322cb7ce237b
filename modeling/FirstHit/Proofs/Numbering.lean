import FirstHit.Trie
import Mathlib.Data.List.Nodup
import Mathlib.Logic.Function.Basic

/-!
# Numbered strings

States are numbered, and each stands for a string. This module fixes the translation between the
two: a list of distinct strings numbers its members by their positions (`StateId.ofPath`), and an
arena of nodes is a function from strings to nodes, tabulated along the list (`Trie.ofPaths`).

Every pass over an arena is from here on a statement about functions of strings. Reading the node of
a string is application (`Trie.node_ofPaths`), changing it is a change of the function at one string
(`Trie.update_ofPaths`), and a new node extends the list (`Trie.push_ofPaths`). Positions are not
mentioned again.
-/

namespace FirstHit

/-- A list of distinct strings, few enough for identifiers, that forms a tree: the empty string
comes first, and no member lacks a prefix. -/
structure Numbering (paths : List Bytes) : Prop where
  /-- No string has two numbers. -/
  nodup : paths.Nodup
  /-- Identifiers suffice. -/
  length_le : paths.length ≤ StateId.capacity
  /-- The empty string has the number of the root. -/
  head : paths.head? = some []
  /-- The strings form a tree. -/
  parent : ∀ {w b}, w ++ [b] ∈ paths → w ∈ paths

/-- The identifier of a string, which is its position in the list. -/
def StateId.ofPath (paths : List Bytes) (w : Bytes) : StateId := ⟨UInt32.ofNat (paths.idxOf w)⟩

variable {paths : List Bytes} {v w : Bytes} {f g : Bytes → Node}

/-! ## Identifiers of strings -/

namespace Numbering

theorem nil_mem (hn : Numbering paths) : [] ∈ paths := List.mem_of_head? hn.head

theorem index_ofPath (hn : Numbering paths) (hw : w ∈ paths) :
    (StateId.ofPath paths w).index = paths.idxOf w := by
  have hlt : paths.idxOf w < StateId.capacity :=
    Nat.lt_of_lt_of_le (List.idxOf_lt_length_iff.mpr hw) hn.length_le
  exact Nat.mod_eq_of_lt hlt

theorem index_ofPath_lt (hn : Numbering paths) (hw : w ∈ paths) :
    (StateId.ofPath paths w).index < paths.length := by
  rw [hn.index_ofPath hw]
  exact List.idxOf_lt_length_iff.mpr hw

theorem ofPath_nil (hn : Numbering paths) : StateId.ofPath paths [] = .root := by
  obtain ⟨rest, rfl⟩ : ∃ rest, paths = [] :: rest := List.head?_eq_some_iff.mp hn.head
  rw [StateId.ofPath, List.idxOf_cons_self]
  rfl

theorem ofPath_inj (hn : Numbering paths) (hv : v ∈ paths) (hw : w ∈ paths) :
    StateId.ofPath paths v = StateId.ofPath paths w ↔ v = w := by
  refine ⟨fun h ↦ ?_, fun h ↦ h ▸ rfl⟩
  have hidx := congrArg StateId.index h
  rw [hn.index_ofPath hv, hn.index_ofPath hw] at hidx
  exact (List.idxOf_inj hv).mp hidx

theorem ofPath_ne_root (hn : Numbering paths) (hw : w ∈ paths) (hne : w ≠ []) :
    StateId.ofPath paths w ≠ .root := by
  rw [← hn.ofPath_nil]
  exact fun h ↦ hne ((hn.ofPath_inj hw hn.nil_mem).mp h)

/-- Every number below the length of the list belongs to a string. -/
theorem exists_ofPath (hn : Numbering paths) {s : StateId} (hs : s.index < paths.length) :
    ∃ w ∈ paths, StateId.ofPath paths w = s := by
  refine ⟨paths[s.index], List.getElem_mem hs, StateId.index_injective ?_⟩
  rw [hn.index_ofPath (List.getElem_mem hs), hn.nodup.idxOf_getElem]

/-- A list that grows at its end keeps its numbers. -/
theorem ofPath_append (hw : w ∈ paths) (more : List Bytes) :
    StateId.ofPath (paths ++ more) w = StateId.ofPath paths w := by
  rw [StateId.ofPath, StateId.ofPath, List.idxOf_append_of_mem hw]

theorem ofIndex?_length (hlt : paths.length < StateId.capacity) (hv : v ∉ paths) :
    StateId.ofIndex? paths.length = some (StateId.ofPath (paths ++ [v]) v) := by
  rw [StateId.ofIndex?, if_pos hlt, StateId.ofPath, List.idxOf_append_of_notMem hv,
    List.idxOf_cons_self, Nat.add_zero]

theorem append_singleton {b : UInt8} (hn : Numbering paths) (hlt : paths.length < StateId.capacity)
    (hw : w ∈ paths) (hv : w ++ [b] ∉ paths) : Numbering (paths ++ [w ++ [b]]) where
  nodup := by
    rw [← List.concat_eq_append]
    exact hn.nodup.concat hv
  length_le := by
    rw [List.length_append, List.length_singleton]
    exact hlt
  head := by rw [List.head?_append_of_ne_nil _ (List.ne_nil_of_mem hw), hn.head]
  parent := by
    intro u c hu
    rw [List.mem_append, List.mem_singleton] at hu ⊢
    rcases hu with hu | hu
    · exact Or.inl (hn.parent hu)
    · exact Or.inl ((List.append_inj_left' hu rfl).symm ▸ hw)

end Numbering

/-! ## Arenas as functions of strings -/

namespace Trie

/-- The arena that has the node `g w` in the place of each string `w`. -/
def ofPaths (paths : List Bytes) (g : Bytes → Node) : Trie := ⟨(paths.map g).toArray⟩

@[simp] theorem size_ofPaths (paths : List Bytes) (g : Bytes → Node) :
    (ofPaths paths g).size = paths.length := by
  rw [size, ofPaths, List.size_toArray, List.length_map]

theorem ofPaths_congr (h : ∀ w ∈ paths, f w = g w) : ofPaths paths f = ofPaths paths g := by
  rw [ofPaths, ofPaths, List.map_congr_left h]

theorem getElem?_ofPaths (hn : Numbering paths) (hw : w ∈ paths) (g : Bytes → Node) :
    (ofPaths paths g).nodes[(StateId.ofPath paths w).index]? = some (g w) := by
  rw [ofPaths, hn.index_ofPath hw, List.getElem?_toArray, List.getElem?_map,
    List.getElem?_idxOf hw, Option.map_some]

theorem node_ofPaths (hn : Numbering paths) (hw : w ∈ paths) (g : Bytes → Node) :
    (ofPaths paths g).node (.ofPath paths w) = .ok (g w) :=
  Checked.entry_eq_ok_iff.mpr (getElem?_ofPaths hn hw g)

theorem exists_of_getElem?_ofPaths {s : StateId} {n : Node} (hn : Numbering paths)
    (h : (ofPaths paths g).nodes[s.index]? = some n) :
    ∃ w ∈ paths, s = .ofPath paths w ∧ n = g w := by
  have hlt : s.index < (ofPaths paths g).size := (Array.getElem?_eq_some_iff.mp h).1
  rw [size_ofPaths] at hlt
  obtain ⟨w, hw, rfl⟩ := hn.exists_ofPath hlt
  rw [getElem?_ofPaths hn hw] at h
  exact ⟨w, hw, rfl, (Option.some_inj.mp h).symm⟩

theorem push_ofPaths (hv : v ∉ paths) (g : Bytes → Node) (n : Node) :
    (⟨(ofPaths paths g).nodes.push n⟩ : Trie)
      = ofPaths (paths ++ [v]) (Function.update g v n) := by
  have hold : paths.map (Function.update g v n) = paths.map g := by
    refine List.map_congr_left fun w hw ↦ ?_
    exact Function.update_of_ne (ne_of_mem_of_not_mem hw hv) n g
  rw [ofPaths, ofPaths, List.push_toArray, List.map_append, hold, List.map_singleton,
    Function.update_self]

theorem update_ofPaths (hn : Numbering paths) (hw : w ∈ paths) (g : Bytes → Node)
    (change : Node → Node) :
    (ofPaths paths g).update (.ofPath paths w) change
      = .ok (ofPaths paths (Function.update g w (change (g w)))) := by
  have hlt : paths.idxOf w < paths.length := List.idxOf_lt_length_iff.mpr hw
  have hindex := hn.index_ofPath hw
  rw [update_of_lt (by rw [size_ofPaths, hindex]; exact hlt), hindex, ofPaths, ofPaths,
    List.modify_toArray]
  congr 3
  refine List.ext_getElem (by simp) fun i _ hi ↦ ?_
  have hlen : i < paths.length := by rwa [List.length_map] at hi
  rw [List.getElem_modify, List.getElem_map, List.getElem_map]
  by_cases hiw : paths.idxOf w = i
  · subst hiw
    rw [if_pos rfl, List.getElem_idxOf hlt, Function.update_self]
  · have hne : paths[i] ≠ w := by
      rintro rfl
      exact hiw (hn.nodup.idxOf_getElem i hlen)
    rw [if_neg hiw, Function.update_of_ne hne]

end Trie

end FirstHit
