/-!
# State identifiers

A state is identified by its position in the arena of states, and an identifier has 32 bits. The
positions that an identifier can hold are therefore bounded, and `StateId.ofIndex?` is where a
position beyond them is refused.
-/

namespace FirstHit

/-- The position of a state, in 32 bits. -/
@[ext] structure StateId where
  /-- The 32 bits. -/
  word : UInt32
deriving DecidableEq, Inhabited

namespace StateId

/-- The state where every scan starts. -/
def root : StateId := ⟨0⟩

/-- The position that an identifier holds. -/
def index (s : StateId) : Nat := s.word.toNat

/-- The number of positions that identifiers can hold. -/
def capacity : Nat := UInt32.size

/-- The identifier of a position, if there is one. -/
def ofIndex? (i : Nat) : Option StateId :=
  if i < capacity then some ⟨UInt32.ofNat i⟩ else none

@[simp] theorem index_root : root.index = 0 := rfl

theorem index_lt_capacity (s : StateId) : s.index < capacity := s.word.toNat_lt_size

theorem index_injective {s t : StateId} (h : s.index = t.index) : s = t :=
  StateId.ext (UInt32.toNat_inj.mp h)

theorem index_of_ofIndex? {i : Nat} {s : StateId} (h : ofIndex? i = some s) : s.index = i := by
  rw [ofIndex?] at h
  split at h
  case isTrue hi =>
    cases h
    exact Nat.mod_eq_of_lt hi
  case isFalse => cases h

@[simp] theorem ofIndex?_index (s : StateId) : ofIndex? s.index = some s := by
  rw [ofIndex?, if_pos s.index_lt_capacity, index, UInt32.ofNat_toNat]

theorem ofIndex?_eq_none_iff {i : Nat} : ofIndex? i = none ↔ capacity ≤ i := by
  rw [ofIndex?]
  split <;> simp <;> omega

end StateId

end FirstHit
