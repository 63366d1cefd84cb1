import Mathlib.Data.List.Basic

/-!
# Tables and counting loops

A C array of `n` entries is a `Table α n`, a list that carries its length. It is indexed by
any natural number: a read out of bounds gives the default entry and a write out of bounds
does nothing, so that a definition written over tables is total and the bounds are proved
where they matter.

A loop `for (i = 0; i < n; i++)` is a fold along `List.range n`. Two kinds of loop body
occur: one that folds a state through the indices (`forRange`, whose rule is the loop
invariant), and one that rewrites entry `i` from entry `i` alone (`Table.mapRange`, which
is the pointwise map). Where a loop is run with every access checked (`guarded`), an invariant
that excludes the failures makes it the plain loop (`foldlM_guarded`).
-/

namespace AdvancedArchitecture

universe u

/-- An array of `n` entries. -/
structure Table (α : Type u) (n : ℕ) where
  entries : List α
  length_eq : entries.length = n
  deriving DecidableEq, Repr

namespace Table

variable {α : Type u} {n : ℕ}

/-- The array holding `a` at every index. -/
def replicate (n : ℕ) (a : α) : Table α n := ⟨List.replicate n a, List.length_replicate⟩

/-- The array holding `f i` at index `i`. -/
def ofFn (n : ℕ) (f : ℕ → α) : Table α n := ⟨(List.range n).map f, by simp⟩

/-- `t[i]`. -/
def get [Inhabited α] (t : Table α n) (i : ℕ) : α := t.entries.getD i default

/-- `t[i] = a`. -/
def set (t : Table α n) (i : ℕ) (a : α) : Table α n :=
  ⟨t.entries.set i a, by rw [List.length_set, t.length_eq]⟩

variable [Inhabited α]

/-- `t[i] = f(t[i])`. -/
def modify (t : Table α n) (i : ℕ) (f : α → α) : Table α n := t.set i (f (t.get i))

theorem get_replicate {i : ℕ} (h : i < n) (a : α) : (replicate n a).get i = a := by
  simp [replicate, get, h]

theorem get_ofFn {i : ℕ} (h : i < n) (f : ℕ → α) : (ofFn n f).get i = f i := by
  simp [ofFn, get, h]

theorem get_of_le (t : Table α n) {i : ℕ} (h : n ≤ i) : t.get i = default := by
  have hlen : t.entries.length ≤ i := by rw [t.length_eq]; exact h
  simp [get, List.getElem?_eq_none hlen]

theorem get_replicate_default (i : ℕ) : (replicate n (default : α)).get i = default := by
  by_cases h : i < n
  · exact get_replicate h _
  · exact get_of_le _ (by omega)

theorem get_set_self (t : Table α n) {i : ℕ} (h : i < n) (a : α) : (t.set i a).get i = a := by
  have hi : i < t.entries.length := by rw [t.length_eq]; exact h
  simp [set, get, hi]

theorem get_set_ne (t : Table α n) {i j : ℕ} (h : j ≠ i) (a : α) :
    (t.set i a).get j = t.get j := by
  simp [set, get, List.getElem?_set_ne (Ne.symm h)]

theorem get_set (t : Table α n) (i j : ℕ) (a : α) :
    (t.set i a).get j = if j = i ∧ i < n then a else t.get j := by
  by_cases hj : j = i
  · subst hj
    by_cases hn : j < n
    · rw [if_pos ⟨rfl, hn⟩, get_set_self t hn]
    · rw [if_neg fun h => hn h.2, get_of_le _ (by omega), get_of_le _ (by omega)]
  · rw [if_neg fun h => hj h.1, get_set_ne t hj]

/-- Two arrays with the same entries are equal. -/
theorem ext_get {t t' : Table α n} (h : ∀ i, i < n → t.get i = t'.get i) : t = t' := by
  obtain ⟨l, hl⟩ := t
  obtain ⟨l', hl'⟩ := t'
  have heq : l = l' := by
    refine List.ext_getElem (hl.trans hl'.symm) fun i hi hi' => ?_
    have hget := h i (hl ▸ hi)
    simpa [get, hi, hi'] using hget
  subst heq
  rfl

theorem get_modify_self (t : Table α n) {i : ℕ} (h : i < n) (f : α → α) :
    (t.modify i f).get i = f (t.get i) :=
  get_set_self t h _

theorem get_modify_ne (t : Table α n) {i j : ℕ} (h : j ≠ i) (f : α → α) :
    (t.modify i f).get j = t.get j :=
  get_set_ne t h _

end Table

/-! ### Counting loops -/

/-- `for (i = 0; i < n; i++) body`, folding the state `s` through the body. -/
def forRange {σ : Type u} (n : ℕ) (body : σ → ℕ → σ) (s : σ) : σ :=
  (List.range n).foldl body s

section forRange

variable {σ : Type u}

@[simp]
theorem forRange_zero (body : σ → ℕ → σ) (s : σ) : forRange 0 body s = s := rfl

@[simp]
theorem forRange_succ (n : ℕ) (body : σ → ℕ → σ) (s : σ) :
    forRange (n + 1) body s = body (forRange n body s) n := by
  simp [forRange, List.range_succ]

/-- **Loop rule.** An invariant that holds before the loop and that every iteration carries
from `i` to `i + 1` holds after the loop at its bound. -/
theorem forRange_induction {n : ℕ} {s : σ} (body : σ → ℕ → σ) (I : ℕ → σ → Prop)
    (h0 : I 0 s)
    (hstep : ∀ i t, i < n → I i t → I (i + 1) (body t i)) : I n (forRange n body s) := by
  induction n with
  | zero => exact h0
  | succ n ih =>
    rw [forRange_succ]
    exact hstep n _ (by omega) (ih fun i t hi => hstep i t (by omega))

/-- Two loops side by side. -/
theorem forRange_rel {τ : Type*} {n : ℕ} {body : σ → ℕ → σ} {body' : τ → ℕ → τ} {s : σ} {t : τ}
    {r : σ → τ → Prop} (h : r s t)
    (hstep : ∀ i < n, ∀ s t, r s t → r (body s i) (body' t i)) :
    r (forRange n body s) (forRange n body' t) :=
  List.foldl_rel h fun i hi => hstep i (List.mem_range.mp hi)

end forRange

/-! ### Checked loops -/

section guarded

variable {σ : Type u} {α : Type*}

/-- A step that is taken only where its accesses are in bounds. -/
def guarded (ok : Prop) [Decidable ok] (s : σ) : Option σ := if ok then some s else none

theorem guarded_of {ok : Prop} [Decidable ok] (h : ok) (s : σ) : guarded ok s = some s := if_pos h

/-- **Rule for checked loops.** If an invariant of the loop puts every access in bounds, the
checked loop does not fail, and does what the loop does. -/
theorem foldlM_guarded {I : σ → Prop} {ok : σ → α → Prop} [∀ s a, Decidable (ok s a)]
    {body : σ → α → σ} {l : List α} {s : σ} (hok : ∀ a ∈ l, ∀ s, I s → ok s a)
    (hstep : ∀ a ∈ l, ∀ s, I s → I (body s a)) (h : I s) :
    l.foldlM (fun s a => guarded (ok s a) (body s a)) s = some (l.foldl body s) := by
  induction l generalizing s with
  | nil => rfl
  | cons a l ih =>
    have ha : a ∈ a :: l := List.mem_cons_self
    rw [List.foldlM_cons, guarded_of (hok a ha s h), List.foldl_cons]
    exact ih (fun b hb => hok b (List.mem_cons_of_mem a hb))
      (fun b hb => hstep b (List.mem_cons_of_mem a hb)) (hstep a ha s h)

end guarded

/-- `for (i = 0; i < n; i++) t[i] = f(t[i])`. -/
def Table.mapRange {α : Type u} {n : ℕ} [Inhabited α] (f : α → α) (t : Table α n) :
    Table α n :=
  forRange n (fun t i => t.set i (f (t.get i))) t

/-- A loop that rewrites each entry from itself is the pointwise map. -/
theorem Table.get_mapRange {α : Type u} {n : ℕ} [Inhabited α] (f : α → α) (t : Table α n)
    {k : ℕ} (hk : k < n) : (t.mapRange f).get k = f (t.get k) := by
  -- entries below the counter are rewritten, the others are still those of `t`
  have hinv := forRange_induction (n := n) (s := t) (fun t i => t.set i (f (t.get i)))
    (fun i s => ∀ j, j < n → s.get j = if j < i then f (t.get j) else t.get j)
    (fun j _ => by rw [if_neg (by omega)])
    (fun i s hi ih j hj => by
      rw [Table.get_set]
      by_cases hji : j = i
      · subst hji
        rw [if_pos ⟨rfl, hi⟩, if_pos (by omega), ih j hj, if_neg (by omega)]
      · rw [if_neg fun h => hji h.1, ih j hj]
        by_cases hlt : j < i
        · rw [if_pos hlt, if_pos (by omega)]
        · rw [if_neg hlt, if_neg (by omega)])
  have hfin := hinv k hk
  rw [if_pos hk] at hfin
  exact hfin

end AdvancedArchitecture
