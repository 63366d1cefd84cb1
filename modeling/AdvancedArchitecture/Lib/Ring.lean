import Mathlib.Data.List.Nodup
import Mathlib.Data.List.Range
import Mathlib.Data.Nat.ModEq
import Mathlib.Tactic.Ring

/-!
# Circular queues

A queue in an array of `size` slots: `head` is its oldest slot, `tail` the slot the next element
goes to, `num` the number of elements. `slots` is the queue as a list of slots, oldest first. On
that list `push` appends, `pop` removes the first element, and `retract`, which steps the tail
back by `size - 1` slots modulo `size`, the last.
-/

namespace AdvancedArchitecture

/-- The indices of a circular queue. -/
structure Ring where
  size : ℕ
  head : ℕ
  tail : ℕ
  num : ℕ
deriving DecidableEq, Inhabited

namespace Ring

/-- The occupied slots, oldest first. -/
def slots (r : Ring) : List ℕ := (List.range r.num).map fun k => (r.head + k) % r.size

/-- The occupied slot number `k`. -/
def slot (r : Ring) (k : ℕ) : ℕ := (r.head + k) % r.size

/-- The slot after `i`. -/
def next (r : Ring) (i : ℕ) : ℕ := (i + 1) % r.size

/-- The slot before `i`, as the program computes it without a negative number. -/
def prev (r : Ring) (i : ℕ) : ℕ := (i + (r.size - 1)) % r.size

def push (r : Ring) : Ring := { r with tail := r.next r.tail, num := r.num + 1 }

def pop (r : Ring) : Ring := { r with head := r.next r.head, num := r.num - 1 }

def retract (r : Ring) : Ring := { r with tail := r.prev r.tail, num := r.num - 1 }

/-- The three indices agree. -/
structure Ok (r : Ring) : Prop where
  head_lt : r.head < r.size
  num_le : r.num ≤ r.size
  tail_eq : (r.head + r.num) % r.size = r.tail

variable {r : Ring} {i : ℕ}

@[simp]
theorem size_push : r.push.size = r.size := rfl

@[simp]
theorem size_pop : r.pop.size = r.size := rfl

@[simp]
theorem size_retract : r.retract.size = r.size := rfl

@[simp]
theorem num_push : r.push.num = r.num + 1 := rfl

@[simp]
theorem num_pop : r.pop.num = r.num - 1 := rfl

@[simp]
theorem num_retract : r.retract.num = r.num - 1 := rfl

@[simp]
theorem length_slots : r.slots.length = r.num := by simp [slots]

theorem slots_eq_map_slot : r.slots = (List.range r.num).map r.slot := rfl

theorem mem_slots : i ∈ r.slots ↔ ∃ k < r.num, r.slot k = i := by
  simp [slots_eq_map_slot]

/-- A relation that holds along the queue holds by position. -/
theorem rel_slot {R : ℕ → ℕ → Prop} (h : r.slots.Pairwise R) {j k : ℕ} (hjk : j < k)
    (hk : k < r.num) : R (r.slot j) (r.slot k) := by
  rw [slots_eq_map_slot, List.pairwise_map, List.pairwise_iff_getElem] at h
  have hrel := h j k (by rw [List.length_range]; omega) (by rwa [List.length_range]) hjk
  rwa [List.getElem_range, List.getElem_range] at hrel

theorem slots_eq_nil (h : r.num = 0) : r.slots = [] := by simp [slots, h]

theorem num_pos_of_mem (hi : i ∈ r.slots) : 0 < r.num := by
  obtain ⟨k, hk, -⟩ := List.mem_map.mp hi
  exact Nat.lt_of_le_of_lt (Nat.zero_le _) (List.mem_range.mp hk)

/-- The slot after an occupied slot is the next one. -/
theorem next_slot (k : ℕ) : r.next (r.slot k) = r.slot (k + 1) := by
  rw [next, slot, slot, Nat.mod_add_mod, Nat.add_assoc]

namespace Ok

theorem size_pos (h : r.Ok) : 0 < r.size := Nat.lt_of_le_of_lt (Nat.zero_le _) h.head_lt

theorem nodup_slots (h : r.Ok) : r.slots.Nodup := by
  refine List.Nodup.map_on (fun j hj k hk hjk => ?_) List.nodup_range
  have hj' : j < r.size := (List.mem_range.mp hj).trans_le h.num_le
  have hk' : k < r.size := (List.mem_range.mp hk).trans_le h.num_le
  have hmod : j % r.size = k % r.size := Nat.ModEq.add_left_cancel' r.head hjk
  rwa [Nat.mod_eq_of_lt hj', Nat.mod_eq_of_lt hk'] at hmod

/-- The first slot is the head. -/
theorem slots_pop (h : r.Ok) (hn : 0 < r.num) : r.slots = r.head :: r.pop.slots := by
  obtain ⟨m, hm⟩ : ∃ m, r.num = m + 1 := ⟨r.num - 1, by omega⟩
  have hstep : ∀ k, (r.next r.head + k) % r.size = (r.head + (k + 1)) % r.size := by
    intro k
    rw [next, Nat.mod_add_mod]
    congr 1
    ring
  simp only [slots, pop, hm, List.range_succ_eq_map, List.map_cons, List.map_map, Nat.add_zero,
    Nat.mod_eq_of_lt h.head_lt, Nat.add_sub_cancel, hstep]
  rfl

theorem head_mem (h : r.Ok) (hn : 0 < r.num) : r.head ∈ r.slots := by
  rw [h.slots_pop hn]
  exact List.mem_cons_self

theorem mem_slots_pop (h : r.Ok) (hn : 0 < r.num) :
    i ∈ r.pop.slots ↔ i ∈ r.slots ∧ i ≠ r.head := by
  have hnodup := h.nodup_slots
  rw [h.slots_pop hn] at hnodup ⊢
  rw [List.mem_cons]
  constructor
  · rintro hi
    refine ⟨Or.inr hi, ?_⟩
    rintro rfl
    exact (List.nodup_cons.mp hnodup).1 hi
  · rintro ⟨hi, hne⟩
    exact hi.resolve_left hne

theorem pop (h : r.Ok) (hn : 0 < r.num) : r.pop.Ok where
  head_lt := Nat.mod_lt _ h.size_pos
  num_le := (Nat.sub_le _ _).trans h.num_le
  tail_eq := by
    have hsum : r.head + 1 + (r.num - 1) = r.head + r.num := by omega
    change (r.next r.head + (r.num - 1)) % r.size = r.tail
    rw [next, Nat.mod_add_mod, hsum]
    exact h.tail_eq

/-- A push appends the tail. -/
theorem slots_push (h : r.Ok) : r.push.slots = r.slots ++ [r.tail] := by
  change (List.range (r.num + 1)).map _ = _
  rw [List.range_succ, List.map_append, List.map_singleton]
  exact congrArg (fun i => r.slots ++ [i]) h.tail_eq

theorem push (h : r.Ok) (hn : r.num < r.size) : r.push.Ok where
  head_lt := h.head_lt
  num_le := hn
  tail_eq := by
    change (r.head + (r.num + 1)) % r.size = r.next r.tail
    rw [next, ← h.tail_eq, Nat.mod_add_mod, Nat.add_assoc]

/-- The tail of a queue that is not full is free. -/
theorem tail_notMem (h : r.Ok) (hn : r.num < r.size) : r.tail ∉ r.slots := by
  have hnodup := (h.push hn).nodup_slots
  rw [h.slots_push, List.nodup_append] at hnodup
  exact fun ht => hnodup.2.2 _ ht _ (List.mem_singleton_self _) rfl

theorem prev_tail (h : r.Ok) (hn : 0 < r.num) :
    r.prev r.tail = (r.head + (r.num - 1)) % r.size := by
  have hsum : r.head + r.num + (r.size - 1) = r.head + (r.num - 1) + r.size := by
    have := h.size_pos
    omega
  rw [prev, ← h.tail_eq, Nat.mod_add_mod, hsum, Nat.add_mod_right]

theorem retract (h : r.Ok) (hn : 0 < r.num) : r.retract.Ok where
  head_lt := h.head_lt
  num_le := (Nat.sub_le _ _).trans h.num_le
  tail_eq := (h.prev_tail hn).symm

/-- A retraction removes the last slot, the one before the tail. -/
theorem slots_retract (h : r.Ok) (hn : 0 < r.num) :
    r.slots = r.retract.slots ++ [r.prev r.tail] := by
  obtain ⟨m, hm⟩ : ∃ m, r.num = m + 1 := ⟨r.num - 1, by omega⟩
  rw [h.prev_tail hn]
  simp only [slots, Ring.retract, hm, List.range_succ, List.map_append, List.map_singleton,
    Nat.add_sub_cancel]

theorem prev_tail_mem (h : r.Ok) (hn : 0 < r.num) : r.prev r.tail ∈ r.slots := by
  rw [h.slots_retract hn]
  exact List.mem_append_right _ (List.mem_singleton_self _)

theorem mem_slots_retract (h : r.Ok) (hn : 0 < r.num) :
    i ∈ r.retract.slots ↔ i ∈ r.slots ∧ i ≠ r.prev r.tail := by
  have hnodup := h.nodup_slots
  rw [h.slots_retract hn] at hnodup ⊢
  rw [List.mem_append, List.mem_singleton]
  constructor
  · intro hi
    refine ⟨Or.inl hi, ?_⟩
    rintro rfl
    exact (List.nodup_append.mp hnodup).2.2 _ hi _ (List.mem_singleton_self _) rfl
  · rintro ⟨hi, hne⟩
    exact hi.resolve_right hne

theorem slot_zero (h : r.Ok) : r.slot 0 = r.head := Nat.mod_eq_of_lt h.head_lt

end Ok

end Ring

end AdvancedArchitecture
