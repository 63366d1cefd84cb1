import Mathlib.Logic.Function.Basic
import Mathlib.Data.List.Basic
import Mathlib.Data.List.Find
import Mathlib.Data.List.Nodup
import Mathlib.Data.List.Perm.Subperm

/-!
# Linked lists

A linked structure is given by its pointers, functions from nodes to optional nodes. `Seg`
says that following `next` from a pointer visits the nodes of a list; a singly linked chain is
a segment that ends with a null pointer, and a loop along it is a loop over the list
(`searchFrom_eq`, `foldFrom_eq`).

A doubly linked list (`DList`) has pointers both ways and both ends. `d.Represents l` says that
it lists the nodes `l`. Reading a list backwards exchanges the two directions (`DList.flip`),
so that every operation has one proof for both; unlinking a node and linking it at an end are
erasing and adding it on the list (`Represents.unlink`, `Represents.pushFront`,
`Represents.pushBack`).
-/

namespace AdvancedArchitecture

universe u v

variable {ι : Type u}

/-! ### Segments -/

/-- Following `next` from `s` visits the nodes of the list, in order, and reaches `t`. -/
def Seg (next : ι → Option ι) : Option ι → List ι → Option ι → Prop
  | s, [], t => s = t
  | s, i :: l, t => s = some i ∧ Seg next (next i) l t

section Seg

variable {next next' : ι → Option ι} {s t : Option ι} {l l' : List ι} {i : ι}

theorem seg_append : Seg next s (l ++ l') t ↔ ∃ m, Seg next s l m ∧ Seg next m l' t := by
  induction l generalizing s with
  | nil => exact ⟨fun h => ⟨s, rfl, h⟩, fun ⟨m, hm, h⟩ => by rw [show s = m from hm]; exact h⟩
  | cons i l ih =>
    rw [List.cons_append, Seg, ih]
    exact ⟨fun ⟨hs, m, h₁, h₂⟩ => ⟨m, ⟨hs, h₁⟩, h₂⟩, fun ⟨m, ⟨hs, h₁⟩, h₂⟩ => ⟨hs, m, h₁, h₂⟩⟩

/-- A segment only depends on the pointers of its nodes. -/
theorem Seg.congr (h : Seg next s l t) (hn : ∀ i ∈ l, next' i = next i) : Seg next' s l t := by
  induction l generalizing s with
  | nil => exact h
  | cons i l ih =>
    refine ⟨h.1, ?_⟩
    rw [hn i List.mem_cons_self]
    exact ih h.2 fun j hj => hn j (List.mem_cons_of_mem i hj)

/-- Redirecting the last node of a segment. -/
theorem Seg.redirect [DecidableEq ι] (h : Seg next s (l ++ [i]) t) (hi : i ∉ l) (t' : Option ι) :
    Seg (Function.update next i t') s (l ++ [i]) t' := by
  obtain ⟨m, h₁, hm, -⟩ := seg_append.mp h
  refine seg_append.mpr ⟨m, h₁.congr fun j hj => ?_, hm, ?_⟩
  · have hji : j ≠ i := fun hji => hi (hji ▸ hj)
    exact Function.update_of_ne hji _ _
  · exact Function.update_self _ _ _

/-- The list of a chain is determined by its pointers. -/
theorem Seg.unique (h : Seg next s l none) (h' : Seg next s l' none) : l = l' := by
  induction l generalizing s l' with
  | nil =>
    obtain rfl : s = none := h
    cases l' with
    | nil => rfl
    | cons i l' => exact absurd h'.1 (by simp)
  | cons i l ih =>
    obtain ⟨rfl, h⟩ := h
    cases l' with
    | nil => exact absurd h' (by simp [Seg])
    | cons j l' =>
      obtain rfl := Option.some.inj h'.1
      rw [ih h h'.2]

theorem Seg.head?_eq (h : Seg next s l none) : l.head? = s := by
  cases l with
  | nil => exact h.symm
  | cons i l => exact h.1.symm

/-- The pointer of a node leads to the rest of the list. -/
theorem Seg.next_eq (h : Seg next s (l ++ i :: l') none) : next i = l'.head? := by
  obtain ⟨m, -, -, h₂⟩ := seg_append.mp h
  exact h₂.head?_eq.symm

end Seg

/-- Taking a node out of a chain, behind its predecessor. -/
theorem Seg.remove [DecidableEq ι] {p : ι} (h : Seg next s (l ++ p :: i :: l') none)
    (hnd : (l ++ p :: i :: l').Nodup) :
    Seg (Function.update next p (next i)) s (l ++ p :: l') none := by
  rw [List.append_cons] at h hnd ⊢
  obtain ⟨m, h₁, rfl, h₂⟩ := seg_append.mp h
  obtain ⟨hnd₁, -, hdisj⟩ := List.nodup_append.mp hnd
  have hp : p ∉ l := fun hp => (List.nodup_append.mp hnd₁).2.2 p hp p (by simp) rfl
  refine seg_append.mpr ⟨next i, h₁.redirect hp _, h₂.congr fun j hj => ?_⟩
  have hjp : j ≠ p := fun hjp => hdisj p (by simp) j (List.mem_cons_of_mem i hj) hjp.symm
  exact Function.update_of_ne hjp _ _

/-! ### Loops along a chain -/

/-- `for (i = s; i; i = next(i)) if (p(i)) break;`, for at most `fuel` nodes. -/
def searchFrom (next : ι → Option ι) (p : ι → Bool) : ℕ → Option ι → Option ι
  | 0, _ => none
  | _ + 1, none => none
  | fuel + 1, some i => if p i then some i else searchFrom next p fuel (next i)

/-- `for (i = s; i; i = next(i)) body(i)`, for at most `fuel` nodes; the pointers are read from
the state that the body leaves. -/
def foldFrom {σ : Type v} (next : σ → ι → Option ι) (body : σ → ι → σ) :
    ℕ → Option ι → σ → σ
  | 0, _, a => a
  | _ + 1, none, a => a
  | fuel + 1, some i, a => foldFrom next body fuel (next (body a i) i) (body a i)

section loops

variable {next : ι → Option ι} {s : Option ι} {l : List ι}

theorem searchFrom_eq (h : Seg next s l none) (p : ι → Bool) {fuel : ℕ}
    (hf : l.length ≤ fuel) : searchFrom next p fuel s = l.find? p := by
  induction l generalizing s fuel with
  | nil =>
    obtain rfl : s = none := h
    cases fuel <;> rfl
  | cons i l ih =>
    obtain ⟨rfl, h⟩ := h
    cases fuel with
    | zero => exact absurd hf (by simp)
    | succ fuel =>
      rw [searchFrom, List.find?_cons, ih h (by simpa using hf)]
      cases p i <;> rfl

/-- A list of different nodes below `n` has at most `n` nodes. -/
theorem length_le_of_nodup {l : List ℕ} {n : ℕ} (hnd : l.Nodup) (hlt : ∀ j ∈ l, j < n) :
    l.length ≤ n := by
  have hsub : l ⊆ List.range n := fun j hj => List.mem_range.mpr (hlt j hj)
  simpa using (List.subperm_of_subset hnd hsub).length_le

/-- Two searches agree if at most one node is found and it is on both lists or on none. -/
theorem find?_eq_of_unique {p : ι → Bool} {l' : List ι}
    (huniq : ∀ i j, p i = true → p j = true → i ∈ l → j ∈ l' → i = j)
    (hmem : ∀ i, p i = true → (i ∈ l ↔ i ∈ l')) : l.find? p = l'.find? p := by
  rcases hf : l.find? p with _ | i
  · refine (List.find?_eq_none.mpr fun j hj hp => ?_).symm
    exact List.find?_eq_none.mp hf j ((hmem j hp).mpr hj) hp
  · have hpi := List.find?_some hf
    have hi := List.mem_of_find?_eq_some hf
    rcases hf' : l'.find? p with _ | j
    · exact absurd hpi (List.find?_eq_none.mp hf' i ((hmem i hpi).mp hi))
    · rw [huniq i j hpi (List.find?_some hf') hi (List.mem_of_find?_eq_some hf')]

/-- **Loops along a chain.** If the body leaves the pointers of the chain alone, the loop is a
fold over its list. -/
theorem foldFrom_eq {σ : Type v} (next : σ → ι → Option ι) (body : σ → ι → σ) {a : σ}
    (hbody : ∀ a i j, next (body a i) j = next a j) (h : Seg (next a) s l none) {fuel : ℕ}
    (hf : l.length ≤ fuel) : foldFrom next body fuel s a = l.foldl body a := by
  induction l generalizing s a fuel with
  | nil =>
    obtain rfl : s = none := h
    cases fuel <;> rfl
  | cons i l ih =>
    obtain ⟨rfl, h⟩ := h
    cases fuel with
    | zero => exact absurd hf (by simp)
    | succ fuel =>
      rw [foldFrom, List.foldl_cons, hbody]
      refine ih ?_ (by simpa using hf)
      exact h.congr fun j _ => hbody a i j

end loops

/-! ### Doubly linked lists -/

/-- The pointers of a doubly linked list. -/
structure DList (ι : Type u) where
  next : ι → Option ι
  prev : ι → Option ι
  head : Option ι
  tail : Option ι

namespace DList

/-- `d` lists the nodes `l`, each once. -/
structure Represents (d : DList ι) (l : List ι) : Prop where
  fwd : Seg d.next d.head l none
  bwd : Seg d.prev d.tail l.reverse none
  nodup : l.Nodup

/-- The list read backwards. -/
def flip (d : DList ι) : DList ι := ⟨d.prev, d.next, d.tail, d.head⟩

/-- `i` taken out of the list: its neighbours, or the ends, skip it. -/
def unlink [DecidableEq ι] (d : DList ι) (i : ι) : DList ι where
  next := match d.prev i with
    | some p => Function.update d.next p (d.next i)
    | none => d.next
  prev := match d.next i with
    | some n => Function.update d.prev n (d.prev i)
    | none => d.prev
  head := match d.prev i with
    | some _ => d.head
    | none => d.next i
  tail := match d.next i with
    | some _ => d.tail
    | none => d.prev i

/-- `i` put in front of the list. -/
def pushFront [DecidableEq ι] (d : DList ι) (i : ι) : DList ι where
  next := Function.update d.next i d.head
  prev := Function.update
    (match d.head with
      | some h => Function.update d.prev h (some i)
      | none => d.prev) i none
  head := some i
  tail := match d.head with
    | some _ => d.tail
    | none => some i

/-- `i` put at the end of the list. -/
def pushBack [DecidableEq ι] (d : DList ι) (i : ι) : DList ι := (d.flip.pushFront i).flip

/-- Two structures with the same ends and the same pointers at the nodes of a list. -/
structure AgreesOn (d d' : DList ι) (l : List ι) : Prop where
  next : ∀ i ∈ l, d'.next i = d.next i
  prev : ∀ i ∈ l, d'.prev i = d.prev i
  head : d'.head = d.head
  tail : d'.tail = d.tail

namespace Represents

variable {d d' : DList ι} {l l' : List ι} {i : ι}

theorem congr (h : d.Represents l) (hd : d.AgreesOn d' l) : d'.Represents l where
  fwd := by
    rw [hd.head]
    exact h.fwd.congr hd.next
  bwd := by
    rw [hd.tail]
    exact h.bwd.congr fun i hi => hd.prev i (List.mem_reverse.mp hi)
  nodup := h.nodup

theorem flip (h : d.Represents l) : d.flip.Represents l.reverse where
  fwd := h.bwd
  bwd := by
    rw [List.reverse_reverse]
    exact h.fwd
  nodup := List.nodup_reverse.mpr h.nodup

theorem unique (h : d.Represents l) (h' : d.Represents l') : l = l' := h.fwd.unique h'.fwd

theorem head_eq (h : d.Represents l) : d.head = l.head? := h.fwd.head?_eq.symm

theorem tail_eq (h : d.Represents l) : d.tail = l.getLast? := by
  rw [← List.head?_reverse]
  exact h.bwd.head?_eq.symm

theorem next_eq (h : d.Represents (l ++ i :: l')) : d.next i = l'.head? := h.fwd.next_eq

theorem prev_eq (h : d.Represents (l ++ i :: l')) : d.prev i = l.getLast? := by
  have hb := h.bwd
  rw [List.reverse_append, List.reverse_cons, List.append_assoc, List.singleton_append] at hb
  rw [← List.head?_reverse]
  exact hb.next_eq

/-- The node that a node points to is on the list, and points back. -/
theorem prev_of_next {j : ι} (h : d.Represents l) (hi : i ∈ l) (hj : d.next i = some j) :
    j ∈ l ∧ d.prev j = some i := by
  obtain ⟨l₁, l₂, rfl⟩ := List.append_of_mem hi
  rw [h.next_eq] at hj
  obtain ⟨l₃, rfl⟩ : ∃ l₃, l₂ = j :: l₃ := by
    cases l₂ with
    | nil => cases hj
    | cons x l₂ => exact ⟨l₂, by rw [Option.some.inj hj]⟩
  refine ⟨by simp, ?_⟩
  rw [List.append_cons] at h
  rw [h.prev_eq, List.getLast?_append, List.getLast?_singleton, Option.some_or]

theorem next_of_prev {j : ι} (h : d.Represents l) (hj : j ∈ l) (hi : d.prev j = some i) :
    i ∈ l ∧ d.next i = some j := by
  obtain ⟨hmem, hnext⟩ := h.flip.prev_of_next (List.mem_reverse.mpr hj) hi
  exact ⟨List.mem_reverse.mp hmem, hnext⟩

section

variable [DecidableEq ι]

/-- Unlinking, in the forward direction. -/
theorem unlink_fwd (h : d.Represents (l ++ i :: l')) :
    Seg (d.unlink i).next (d.unlink i).head (l ++ l') none := by
  have hprev := h.prev_eq
  obtain ⟨m, h₁, rfl, h₂⟩ := seg_append.mp h.fwd
  rcases List.eq_nil_or_concat l with rfl | ⟨l₀, p, rfl⟩
  · rw [List.getLast?_nil] at hprev
    simp only [DList.unlink, hprev]
    exact h₂
  · rw [List.concat_eq_append] at h h₁ hprev ⊢
    rw [List.getLast?_append, List.getLast?_singleton, Option.some_or] at hprev
    simp only [DList.unlink, hprev]
    have hnd := h.nodup
    rw [List.nodup_append] at hnd
    obtain ⟨hnd₁, -, hdisj⟩ := hnd
    have hp : p ∉ l₀ := by
      intro hp
      rw [List.nodup_append] at hnd₁
      exact hnd₁.2.2 p hp p (by simp) rfl
    refine seg_append.mpr ⟨d.next i, h₁.redirect hp _, h₂.congr fun j hj => ?_⟩
    exact Function.update_of_ne
      (fun hjp => hdisj p (by simp) j (List.mem_cons_of_mem i hj) hjp.symm) _ _

/-- **Unlinking** a node erases it from the list. -/
theorem unlink (h : d.Represents l) (hi : i ∈ l) : (d.unlink i).Represents (l.erase i) := by
  obtain ⟨l₁, l₂, hn, rfl, he⟩ := List.exists_erase_eq hi
  rw [he]
  have hflip : d.flip.Represents (l₂.reverse ++ i :: l₁.reverse) := by
    have hf := h.flip
    rwa [List.reverse_append, List.reverse_cons, List.append_assoc, List.singleton_append] at hf
  refine ⟨h.unlink_fwd, ?_, ?_⟩
  · rw [List.reverse_append]
    exact hflip.unlink_fwd
  · exact h.nodup.sublist (List.Sublist.append_left (List.sublist_cons_self i l₂) l₁)

/-- **Linking in front** adds the node at the front of the list. -/
theorem pushFront (h : d.Represents l) (hi : i ∉ l) : (d.pushFront i).Represents (i :: l) := by
  have hhead := h.head_eq
  refine ⟨⟨rfl, ?_⟩, ?_, List.nodup_cons.mpr ⟨hi, h.nodup⟩⟩
  · have hnext : (d.pushFront i).next i = d.head := Function.update_self _ _ _
    rw [hnext]
    refine h.fwd.congr fun j hj => ?_
    have hji : j ≠ i := fun hji => hi (hji ▸ hj)
    exact Function.update_of_ne hji _ _
  · rw [List.reverse_cons]
    cases l with
    | nil =>
      rw [List.head?_nil] at hhead
      simp only [DList.pushFront, hhead]
      exact ⟨rfl, Function.update_self _ _ _⟩
    | cons x l =>
      rw [List.head?_cons] at hhead
      simp only [DList.pushFront, hhead]
      have hix : x ≠ i := fun hx => hi (hx ▸ List.mem_cons_self)
      -- the old head is redirected to `i`, and `i` to null
      have hb := h.bwd
      rw [List.reverse_cons] at hb ⊢
      have hx : x ∉ l.reverse := by
        rw [List.mem_reverse]
        exact (List.nodup_cons.mp h.nodup).1
      refine seg_append.mpr ⟨some i, ?_, rfl, Function.update_self _ _ _⟩
      refine (hb.redirect hx (some i)).congr fun j hj => ?_
      refine Function.update_of_ne (fun hji => hi ?_) _ _
      rw [← hji]
      simpa [or_comm] using hj

/-- **Linking at the end** adds the node at the end of the list. -/
theorem pushBack (h : d.Represents l) (hi : i ∉ l) : (d.pushBack i).Represents (l ++ [i]) := by
  have hf := (h.flip.pushFront (i := i) (by rwa [List.mem_reverse])).flip
  rwa [List.reverse_cons, List.reverse_reverse] at hf

end

end Represents

end DList

end AdvancedArchitecture
