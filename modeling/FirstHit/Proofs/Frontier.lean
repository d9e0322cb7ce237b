import FirstHit.Proofs.LiveStrings

/-!
# Breadth-first visits of the live strings

A breadth-first visit keeps a queue. What it relies on has nothing to do with arenas and links: it
is a statement about the strings visited so far and the strings in the queue, in their order
(`Frontier`). Visiting the head of the queue and queueing the strings that are longer by one byte
leads from one frontier to the next (`Frontier.advance`), whatever the order of the latter.

Two consequences are what the construction needs. Every live string that is no longer than the head
of the queue has been met (`Frontier.mem_of_length_le`), so whatever was computed for shorter
strings can be used. And when the queue is empty every live string has been visited, shorter strings
first.
-/

namespace FirstHit

/-- A stage of a breadth-first visit of the live strings: `visited` has been visited in this order,
and `queue` is waiting in this order. -/
structure Frontier (patterns visited queue : List Bytes) : Prop where
  /-- The visit starts at the empty string. -/
  nil_mem : [] ∈ visited ++ queue
  /-- Only live strings are met. -/
  live : ∀ {w}, w ∈ visited ++ queue → isLive patterns w = true
  /-- No string is met twice. -/
  nodup : (visited ++ queue).Nodup
  /-- What grows out of a visited string has been met. -/
  met : ∀ {w b}, w ∈ visited → isLive patterns (w ++ [b]) = true → w ++ [b] ∈ visited ++ queue
  /-- Nothing else has been met. -/
  grown : ∀ {w b}, w ++ [b] ∈ visited ++ queue → w ∈ visited
  /-- Shorter strings come first. -/
  sorted : (visited ++ queue).Pairwise (List.length · ≤ List.length ·)
  /-- The queue never holds more than two lengths. -/
  near : ∀ {v w}, v ∈ queue → w ∈ queue → v.length ≤ w.length + 1

namespace Frontier

variable {patterns visited queue : List Bytes} {v w : Bytes} {bs : List UInt8}

theorem start (patterns : List Bytes) : Frontier patterns [] [[]] where
  nil_mem := List.mem_singleton_self []
  live := by
    intro w hw
    rw [List.mem_singleton.mp hw]
    exact isLive_nil patterns
  nodup := List.nodup_singleton []
  met := fun hw ↦ absurd hw List.not_mem_nil
  grown := fun h ↦ absurd (List.mem_singleton.mp h) (by simp)
  sorted := List.pairwise_singleton _ _
  near := by
    intro v w hv hw
    rw [List.mem_singleton.mp hv, List.mem_singleton.mp hw]
    exact Nat.zero_le _

/-- Nothing that is met is shorter than the head of the queue unless it was visited. -/
theorem length_head_le (hf : Frontier patterns visited (w :: queue)) (hv : v ∈ w :: queue) :
    w.length ≤ v.length := by
  rcases List.mem_cons.mp hv with rfl | hv
  · exact Nat.le_refl _
  · exact (List.pairwise_cons.mp (List.pairwise_append.mp hf.sorted).2.1).1 v hv

theorem length_le_head_succ (hf : Frontier patterns visited (w :: queue))
    (hv : v ∈ visited ++ w :: queue) : v.length ≤ w.length + 1 := by
  rcases List.mem_append.mp hv with hv | hv
  · have hle := (List.pairwise_append.mp hf.sorted).2.2 v hv w List.mem_cons_self
    omega
  · exact hf.near hv List.mem_cons_self

theorem mem_of_length_le (hf : Frontier patterns visited (w :: queue))
    (hv : isLive patterns v = true) (hle : v.length ≤ w.length) : v ∈ visited ++ w :: queue := by
  revert hle
  refine isLive_induction (motive := fun v ↦ v.length ≤ w.length → v ∈ visited ++ w :: queue)
    (fun _ ↦ hf.nil_mem) (fun u b hu ih hle ↦ ?_) v hv
  rw [List.length_append, List.length_singleton] at hle
  rcases List.mem_append.mp (ih (by omega)) with hmem | hmem
  · exact hf.met hmem hu
  · have := hf.length_head_le hmem
    omega

theorem append_visit (visited queue more : List Bytes) (w : Bytes) :
    visited ++ [w] ++ (queue ++ more) = visited ++ w :: queue ++ more := by
  simp

/-- **One visit.** The head of the queue is visited, and what grows out of it is queued, in any
order. -/
theorem advance (hf : Frontier patterns visited (w :: queue)) (hnodup : bs.Nodup)
    (hbs : ∀ b, b ∈ bs ↔ isLive patterns (w ++ [b]) = true) :
    Frontier patterns (visited ++ [w]) (queue ++ bs.map fun b ↦ w ++ [b]) := by
  have hrow := append_visit visited queue (bs.map fun b ↦ w ++ [b]) w
  have hchild : ∀ {v}, (v ∈ bs.map fun b ↦ w ++ [b]) ↔ ∃ b ∈ bs, w ++ [b] = v := List.mem_map
  have hlen : ∀ {v}, (v ∈ bs.map fun b ↦ w ++ [b]) → v.length = w.length + 1 := by
    intro v hv
    obtain ⟨b, -, rfl⟩ := hchild.mp hv
    rw [List.length_append, List.length_singleton]
  have hw : w ∉ visited := fun h ↦
    (List.nodup_append.mp hf.nodup).2.2 w h w List.mem_cons_self rfl
  constructor
  case nil_mem => rw [hrow]; exact List.mem_append_left _ hf.nil_mem
  case live =>
    intro v hv
    rw [hrow] at hv
    rcases List.mem_append.mp hv with hv | hv
    · exact hf.live hv
    · obtain ⟨b, hb, rfl⟩ := hchild.mp hv
      exact (hbs b).mp hb
  case nodup =>
    rw [hrow]
    refine List.nodup_append.mpr ⟨hf.nodup, hnodup.map fun b d hbd ↦ ?_, fun v hv u hu hvu ↦ ?_⟩
    · simpa using hbd
    · obtain ⟨b, -, rfl⟩ := hchild.mp hu
      exact hw (hf.grown (hvu ▸ hv))
  case met =>
    intro v b hv hlive
    rw [hrow]
    rcases List.mem_append.mp hv with hv | hv
    · exact List.mem_append_left _ (hf.met hv hlive)
    · rw [List.mem_singleton] at hv
      subst hv
      exact List.mem_append_right _ (hchild.mpr ⟨b, (hbs b).mpr hlive, rfl⟩)
  case grown =>
    intro v b hv
    rw [hrow] at hv
    rcases List.mem_append.mp hv with hv | hv
    · exact List.mem_append_left _ (hf.grown hv)
    · obtain ⟨d, -, hd⟩ := hchild.mp hv
      rw [List.append_inj_left' hd rfl]
      exact List.mem_append_right _ (List.mem_singleton_self v)
  case sorted =>
    rw [hrow]
    refine List.pairwise_append.mpr ⟨hf.sorted, ?_, fun v hv u hu ↦ ?_⟩
    · exact List.pairwise_of_forall_mem_list fun v hv u hu ↦ by rw [hlen hv, hlen hu]
    · rw [hlen hu]
      exact hf.length_le_head_succ hv
  case near =>
    -- what was queued is no longer than a byte more than `w`, and what is queued now exactly that
    intro v u hv hu
    rcases List.mem_append.mp hv with hv | hv
    · have hvw := hf.near (List.mem_cons_of_mem w hv) List.mem_cons_self
      rcases List.mem_append.mp hu with hu | hu
      · exact hf.near (List.mem_cons_of_mem w hv) (List.mem_cons_of_mem w hu)
      · rw [hlen hu]
        omega
    · rw [hlen hv]
      rcases List.mem_append.mp hu with hu | hu
      · have := hf.length_head_le (List.mem_cons_of_mem w hu)
        omega
      · rw [hlen hu]
        omega

theorem mem_iff (hf : Frontier patterns visited []) :
    w ∈ visited ↔ isLive patterns w = true := by
  have hnil := List.append_nil visited
  constructor
  · exact fun hw ↦ hf.live (List.mem_append_left _ hw)
  · refine isLive_induction (motive := (· ∈ visited)) (hnil ▸ hf.nil_mem) (fun v b hv ih ↦ ?_) w
    exact hnil ▸ hf.met ih hv

theorem mem_of_length_lt (hf : Frontier patterns (visited ++ w :: queue) [])
    (hv : isLive patterns v = true) (hlt : v.length < w.length) : v ∈ visited := by
  rcases List.mem_append.mp (hf.mem_iff.mpr hv) with hmem | hmem
  · exact hmem
  · have hsorted := hf.sorted
    rw [List.append_nil] at hsorted
    rcases List.mem_cons.mp hmem with rfl | hmem
    · exact absurd hlt (Nat.lt_irrefl _)
    · have hle := (List.pairwise_cons.mp (List.pairwise_append.mp hsorted).2.1).1 v hmem
      omega

theorem length_le (hf : Frontier patterns visited queue) :
    visited.length + queue.length ≤ (livePaths patterns).length := by
  rw [← List.length_append]
  exact (hf.nodup.subperm fun w hw ↦ mem_livePaths.mpr (hf.live hw)).length_le

end Frontier

end FirstHit
