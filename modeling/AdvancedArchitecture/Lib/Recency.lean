import Mathlib.Data.List.Infix
import Mathlib.Data.List.Nodup

/-!
# Recency lists

Least recently used replacement, without the cache. A *recency list* holds the elements that
are present, the most recently used first, and at most `n` of them; `touch n a` uses `a`. A
longer list keeps more: if one list is a prefix of another, and the other may be longer, this
stays so when the same element is used in both (`touch_prefix`) or taken out of both
(`erase_prefix`).

An implementation keeps a list of all places, some of them empty. `Ranked l p r` says that the
places with the property `p` come first and are ranked by `r`; so the last place is empty if
any is, and the lowest in rank otherwise (`Ranked.getLast_empty`, `Ranked.getLast_least`). A
place may be moved to the front or, once it is empty, to the back.
-/

namespace AdvancedArchitecture

universe u v

/-! ### The stack property -/

section touch

variable {α : Type u} [DecidableEq α] {a : α} {l l' : List α} {m n : ℕ}

/-- The recency list of at most `n` elements after `a` is used. -/
def touch (n : ℕ) (a : α) (l : List α) : List α := (a :: l.erase a).take n

/-- Taking an element out of two lists. -/
theorem erase_prefix (h : l <+: l') (a : α) : l.erase a <+: l'.erase a := by
  obtain ⟨r, rfl⟩ := h
  by_cases ha : a ∈ l
  · rw [List.erase_append_left _ ha]
    exact List.prefix_append _ _
  · rw [List.erase_append_right _ ha, List.erase_of_not_mem ha]
    exact List.prefix_append _ _

/-- **The stack property**: the shorter recency list is a prefix of the longer one. -/
theorem touch_prefix (h : l <+: l') (hn : n ≤ m) (a : α) : touch n a l <+: touch m a l' := by
  have hcons : a :: l.erase a <+: a :: l'.erase a :=
    List.cons_prefix_cons.mpr ⟨rfl, erase_prefix h a⟩
  exact (List.IsPrefix.take hcons n).trans (List.take_prefix_take_left hn)

/-- An element that is present is moved to the front. -/
theorem touch_of_mem (ha : a ∈ l) (hl : l.length ≤ n) : touch n a l = a :: l.erase a := by
  have hpos := List.length_pos_of_mem ha
  refine List.take_of_length_le ?_
  rw [List.length_cons, List.length_erase_of_mem ha]
  omega

/-- An element that is not present enters, and the last one may leave. -/
theorem touch_of_not_mem (ha : a ∉ l) (n : ℕ) : touch (n + 1) a l = a :: l.take n := by
  rw [touch, List.erase_of_not_mem ha, List.take_succ_cons]

end touch

/-! ### Places -/

section ranked

variable {ι : Type u} {l : List ι} {p p' : ι → Prop} {r r' : ι → ι → Prop} {i : ι}

/-- The places of `l` with the property `p` come first, and `r` ranks them. -/
def Ranked (l : List ι) (p : ι → Prop) (r : ι → ι → Prop) : Prop :=
  l.Pairwise fun i j => p j → p i ∧ r i j

theorem Ranked.mono (h : Ranked l p r) (hp : ∀ i ∈ l, p' i ↔ p i)
    (hr : ∀ i ∈ l, ∀ j ∈ l, r i j → r' i j) : Ranked l p' r' := by
  refine List.Pairwise.imp_of_mem (fun {i j} hi hj hij hpj => ?_) h
  obtain ⟨hpi, hrij⟩ := hij ((hp j hj).mp hpj)
  exact ⟨(hp i hi).mpr hpi, hr i hi j hj hrij⟩

/-- Nothing is present. -/
theorem ranked_of_empty (hp : ∀ i ∈ l, ¬ p i) : Ranked l p r :=
  List.Pairwise.imp_of_mem (R := fun _ _ => True) (fun _ hj _ hpj => absurd hpj (hp _ hj))
    (List.pairwise_of_forall fun _ _ => trivial)

section getLast

variable (h : Ranked l p r) (hi : l.getLast? = some i)

include h hi

/-- The last place, compared with the others. -/
theorem Ranked.getLast {j : ι} (hj : j ∈ l) (hne : j ≠ i) (hpi : p i) : p j ∧ r j i := by
  obtain ⟨l', rfl⟩ := List.getLast?_eq_some_iff.mp hi
  have hj' : j ∈ l' := (List.mem_append.mp hj).resolve_right fun hm =>
    hne (List.mem_singleton.mp hm)
  exact (List.pairwise_append.mp h).2.2 j hj' i (List.mem_singleton_self i) hpi

/-- The last place is empty if any is. -/
theorem Ranked.getLast_empty {j : ι} (hj : j ∈ l) (hpj : ¬ p j) : ¬ p i := by
  intro hpi
  by_cases hne : j = i
  · exact hpj (hne ▸ hpi)
  · exact hpj (h.getLast hi hj hne hpi).1

/-- Without its last place a list keeps all that is present if that place is empty, and all but
the last otherwise. -/
theorem Ranked.filter_dropLast [DecidablePred p] :
    l.dropLast.filter p = (l.filter p).take (l.length - 1) := by
  obtain ⟨l', rfl⟩ := List.getLast?_eq_some_iff.mp hi
  rw [List.dropLast_concat, List.filter_append, List.length_append, List.length_singleton,
    Nat.add_sub_cancel]
  by_cases hpi : p i
  · have hall : ∀ j ∈ l', p j := fun j hj =>
      ((List.pairwise_append.mp h).2.2 j hj i (List.mem_singleton_self i) hpi).1
    have hfilter : l'.filter p = l' :=
      List.filter_eq_self.mpr fun j hj => decide_eq_true (hall j hj)
    rw [hfilter, List.take_left]
  · have hnil : [i].filter p = [] := List.filter_eq_nil_iff.mpr fun j hj => by
      rw [List.mem_singleton.mp hj]
      simpa using hpi
    rw [hnil, List.append_nil, List.take_of_length_le (List.length_filter_le _ _)]

end getLast

variable [DecidableEq ι]

/-- A place moved to the front: it is present, and of the highest rank. -/
theorem Ranked.front (h : Ranked l p r) (hnd : l.Nodup) (hi : p' i)
    (hp : ∀ j ∈ l, j ≠ i → (p' j ↔ p j)) (hri : ∀ j ∈ l, j ≠ i → r' i j)
    (hr : ∀ j ∈ l, ∀ k ∈ l, j ≠ i → k ≠ i → r j k → r' j k) : Ranked (i :: l.erase i) p' r' := by
  have hmem : ∀ {j}, j ∈ l.erase i → j ∈ l ∧ j ≠ i := fun hj =>
    ⟨List.mem_of_mem_erase hj, fun hji => hnd.not_mem_erase (hji ▸ hj)⟩
  refine List.pairwise_cons.mpr ⟨fun j hj _ => ⟨hi, hri j (hmem hj).1 (hmem hj).2⟩, ?_⟩
  refine Ranked.mono (List.Pairwise.sublist List.erase_sublist h) (fun j hj => ?_)
    fun j hj k hk => hr j (hmem hj).1 k (hmem hk).1 (hmem hj).2 (hmem hk).2
  exact hp j (hmem hj).1 (hmem hj).2

/-- A place that is emptied and moved to the back. -/
theorem Ranked.back (h : Ranked l p r) (hnd : l.Nodup) (hi : ¬ p' i)
    (hp : ∀ j ∈ l, j ≠ i → (p' j ↔ p j)) : Ranked (l.erase i ++ [i]) p' r := by
  refine List.pairwise_append.mpr ⟨?_, List.pairwise_singleton _ _, fun j _ k hk hpk => ?_⟩
  · refine Ranked.mono (List.Pairwise.sublist List.erase_sublist h) (fun j hj => ?_)
      fun _ _ _ _ hjk => hjk
    exact hp j (List.mem_of_mem_erase hj) fun hji => hnd.not_mem_erase (hji ▸ hj)
  · rw [List.mem_singleton.mp hk] at hpk
    exact absurd hpk hi

end ranked

end AdvancedArchitecture
