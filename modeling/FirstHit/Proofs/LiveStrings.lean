import FirstHit.Live
import Mathlib.Data.List.Nodup
import Mathlib.Data.List.Perm.Subperm

/-!
# The combinatorics of live strings

Everything that the construction computes is a statement about which suffixes of a string are live.
Two facts carry the rest. Prefixes of live strings are live, so the live strings form a tree. And
the longest live suffix of a string that grows at its end depends only on the longest live suffix
so far (`liveSuffix_append`), which is why a scan may forget everything else.

The list `livePaths` enumerates the live strings without repetition. It is the numbering of the
states, and its length bounds the length of every live string.
-/

namespace FirstHit

variable {patterns : List Bytes} {v w x y : Bytes} {b : UInt8}

/-! ## Live strings -/

theorem isLive_of_isPrefix (h : v <+: w) (hw : isLive patterns w = true) :
    isLive patterns v = true := by
  rw [isLive_iff] at hw ⊢
  rcases hw with rfl | ⟨p, hp, hwp⟩
  · exact Or.inl (List.prefix_nil.mp h)
  · exact Or.inr ⟨p, hp, h.trans hwp⟩

theorem isLive_of_append (h : isLive patterns (w ++ y) = true) : isLive patterns w = true :=
  isLive_of_isPrefix (List.prefix_append w y) h

theorem isLive_of_mem {p : Bytes} (hp : p ∈ patterns) : isLive patterns p = true :=
  isLive_iff.mpr (Or.inr ⟨p, hp, List.prefix_refl p⟩)

/-- Live strings are proved things about from the root down: the induction follows their prefixes,
all of which are live. -/
theorem isLive_induction {motive : Bytes → Prop} (nil : motive [])
    (append_singleton : ∀ w b, isLive patterns (w ++ [b]) = true → motive w → motive (w ++ [b])) :
    ∀ w, isLive patterns w = true → motive w := by
  intro w
  induction w using List.reverseRecOn with
  | nil => exact fun _ ↦ nil
  | append_singleton w b ih => exact fun h ↦ append_singleton w b h (ih (isLive_of_append h))

/-! ## The longest live suffix -/

@[simp] theorem liveSuffix_nil (patterns : List Bytes) : liveSuffix patterns [] = [] := rfl

theorem liveSuffix_eq_self (h : isLive patterns w = true) : liveSuffix patterns w = w := by
  cases w with
  | nil => rfl
  | cons b w => rw [liveSuffix, if_pos h]

theorem liveSuffix_cons_of_not_isLive (h : ¬isLive patterns (b :: x) = true) :
    liveSuffix patterns (b :: x) = liveSuffix patterns x := by
  rw [liveSuffix, if_neg h]

/-- A string that grows at its end may forget what lies before its longest live suffix. -/
theorem liveSuffix_append (patterns : List Bytes) (x y : Bytes) :
    liveSuffix patterns (x ++ y) = liveSuffix patterns (liveSuffix patterns x ++ y) := by
  induction x with
  | nil => rfl
  | cons b x ih =>
    by_cases hx : isLive patterns (b :: x) = true
    · rw [liveSuffix_eq_self hx]
    · have hxy : ¬isLive patterns (b :: (x ++ y)) = true := fun h ↦ hx (isLive_of_append h)
      rw [List.cons_append, liveSuffix_cons_of_not_isLive hxy, liveSuffix_cons_of_not_isLive hx, ih]

theorem length_liveSuffix_le (patterns : List Bytes) (x : Bytes) :
    (liveSuffix patterns x).length ≤ x.length :=
  (liveSuffix_suffix patterns x).length_le

theorem length_liveSuffix_tail_lt (patterns : List Bytes) (hw : w ≠ []) :
    (liveSuffix patterns w.tail).length < w.length := by
  have hle := length_liveSuffix_le patterns w.tail
  have hpos := List.length_pos_iff.mpr hw
  rw [List.length_tail] at hle
  omega

/-- Where a live string cannot grow by a byte, the answer is that of its longest proper live
suffix. -/
theorem liveSuffix_append_of_not_isLive (hw : w ≠ [])
    (h : ¬isLive patterns (w ++ y) = true) :
    liveSuffix patterns (w ++ y) = liveSuffix patterns (liveSuffix patterns w.tail ++ y) := by
  obtain ⟨b, v, rfl⟩ := List.exists_cons_of_ne_nil hw
  rw [List.cons_append] at h ⊢
  rw [liveSuffix_cons_of_not_isLive h, liveSuffix_append, List.tail_cons]

theorem filter_tails_liveSuffix (patterns : List Bytes) (x : Bytes) :
    (liveSuffix patterns x).tails.filter (isLive patterns)
      = x.tails.filter (isLive patterns) := by
  induction x with
  | nil => rfl
  | cons b x ih =>
    by_cases hx : isLive patterns (b :: x) = true
    · rw [liveSuffix_eq_self hx]
    · rw [liveSuffix_cons_of_not_isLive hx, ih, List.tails_cons, List.filter_cons_of_neg hx]

/-- Below a live string, the next live suffix is the longest proper one. -/
theorem filter_tails_of_isLive (hw : w ≠ []) (h : isLive patterns w = true) :
    w.tails.filter (isLive patterns)
      = w :: (liveSuffix patterns w.tail).tails.filter (isLive patterns) := by
  obtain ⟨b, v, rfl⟩ := List.exists_cons_of_ne_nil hw
  rw [List.tails_cons, List.filter_cons_of_pos h, List.tail_cons, filter_tails_liveSuffix]

theorem pairwise_length_tails (x : Bytes) :
    x.tails.Pairwise fun u v ↦ v.length < u.length := by
  induction x with
  | nil => exact List.pairwise_singleton _ _
  | cons b x ih =>
    rw [List.tails_cons, List.pairwise_cons]
    refine ⟨fun v hv ↦ ?_, ih⟩
    exact Nat.lt_succ_of_le ((List.mem_tails v x).mp hv).length_le

/-! ## The enumeration -/

theorem appendNew_of_mem {known : List Bytes} (h : w ∈ known) : appendNew known w = known := by
  rw [appendNew, if_pos (List.contains_iff_mem.mpr h)]

theorem appendNew_of_notMem {known : List Bytes} (h : w ∉ known) :
    appendNew known w = known ++ [w] := by
  rw [appendNew, if_neg fun hc ↦ h (List.contains_iff_mem.mp hc)]

theorem mem_appendNew {known : List Bytes} : v ∈ appendNew known w ↔ v ∈ known ∨ v = w := by
  by_cases h : w ∈ known
  · rw [appendNew_of_mem h]
    exact ⟨Or.inl, fun hv ↦ hv.elim id fun hvw ↦ hvw ▸ h⟩
  · rw [appendNew_of_notMem h, List.mem_append, List.mem_singleton]

theorem nodup_appendNew {known : List Bytes} (h : known.Nodup) : (appendNew known w).Nodup := by
  by_cases hw : w ∈ known
  · rwa [appendNew_of_mem hw]
  · rw [appendNew_of_notMem hw, ← List.concat_eq_append]
    exact h.concat hw

theorem prefix_appendNew (known : List Bytes) (w : Bytes) : known <+: appendNew known w := by
  by_cases hw : w ∈ known
  · rw [appendNew_of_mem hw]
  · rw [appendNew_of_notMem hw]
    exact List.prefix_append known [w]

theorem prefix_foldl_appendNew (ws known : List Bytes) : known <+: ws.foldl appendNew known := by
  induction ws generalizing known with
  | nil => exact List.prefix_refl known
  | cons v ws ih => exact (prefix_appendNew known v).trans (ih (appendNew known v))

theorem mem_foldl_appendNew {ws known : List Bytes} :
    w ∈ ws.foldl appendNew known ↔ w ∈ known ∨ w ∈ ws := by
  induction ws generalizing known with
  | nil => simp
  | cons v ws ih => rw [List.foldl_cons, ih, mem_appendNew, List.mem_cons, or_assoc]

theorem nodup_foldl_appendNew {ws known : List Bytes} (h : known.Nodup) :
    (ws.foldl appendNew known).Nodup := by
  induction ws generalizing known with
  | nil => exact h
  | cons v ws ih => exact ih (nodup_appendNew h)

theorem mem_livePaths : w ∈ livePaths patterns ↔ isLive patterns w = true := by
  rw [livePaths, mem_foldl_appendNew, List.mem_singleton, List.mem_flatMap, isLive_iff]
  simp only [List.mem_inits]

theorem nodup_livePaths (patterns : List Bytes) : (livePaths patterns).Nodup :=
  nodup_foldl_appendNew (List.nodup_singleton [])

@[simp] theorem livePaths_nil : livePaths [] = [[]] := rfl

theorem livePaths_append_singleton (patterns : List Bytes) (p : Bytes) :
    livePaths (patterns ++ [p]) = p.inits.foldl appendNew (livePaths patterns) := by
  rw [livePaths, livePaths, List.flatMap_append, List.foldl_append, List.flatMap_singleton]

theorem livePaths_append_nil (patterns : List Bytes) :
    livePaths (patterns ++ [[]]) = livePaths patterns := by
  rw [livePaths_append_singleton]
  exact appendNew_of_mem (mem_livePaths.mpr (isLive_nil patterns))

theorem livePaths_append_concat (patterns : List Bytes) (w : Bytes) (b : UInt8) :
    livePaths (patterns ++ [w ++ [b]]) = appendNew (livePaths (patterns ++ [w])) (w ++ [b]) := by
  rw [livePaths_append_singleton, livePaths_append_singleton, List.inits_append, List.foldl_append]
  rfl

theorem livePaths_prefix_append (patterns more : List Bytes) :
    livePaths patterns <+: livePaths (patterns ++ more) := by
  rw [livePaths, livePaths, List.flatMap_append, List.foldl_append]
  exact prefix_foldl_appendNew _ _

/-- The enumeration counts the distinct prefixes of the patterns. -/
theorem length_livePaths (patterns : List Bytes) :
    (livePaths patterns).length = prefixCount patterns := by
  refine List.Perm.length_eq ?_
  refine (List.perm_ext_iff_of_nodup (nodup_livePaths patterns) (List.nodup_dedup _)).mpr fun w ↦ ?_
  rw [mem_livePaths, isLive_iff, List.mem_dedup, List.mem_cons, List.mem_flatMap]
  simp only [List.mem_inits]

theorem length_lt_of_prefixes {paths : List Bytes} (h : ∀ v, v <+: w → v ∈ paths) :
    w.length < paths.length := by
  have hsub : ((List.range (w.length + 1)).map w.take) ⊆ paths := by
    intro v hv
    obtain ⟨n, -, rfl⟩ := List.mem_map.mp hv
    exact h _ (List.take_prefix n w)
  -- prefixes of different lengths differ
  have hnodup : ((List.range (w.length + 1)).map w.take).Nodup := by
    refine List.nodup_range.map_on fun m hm n hn hmn ↦ ?_
    have hlen := congrArg List.length hmn
    rw [List.length_take, List.length_take] at hlen
    rw [List.mem_range] at hm hn
    omega
  have hle := (hnodup.subperm hsub).length_le
  rw [List.length_map, List.length_range] at hle
  exact hle

theorem length_lt_length_livePaths (h : isLive patterns w = true) :
    w.length < (livePaths patterns).length :=
  length_lt_of_prefixes fun _ hv ↦ mem_livePaths.mpr (isLive_of_isPrefix hv h)

end FirstHit
