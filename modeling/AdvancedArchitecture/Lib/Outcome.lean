import Mathlib.Data.Nat.Notation
import Mathlib.Logic.Basic

/-!
# Outcomes of computations that can stop

A program written in C stops in the middle of a function when an assertion of its own fails.
`Except ε` is such a function: it returns a value, or stops with an error of `ε`. `Meets E Q x`
says that what `x` returns satisfies `Q`, and that if it stops, it is with an error that `E`
admits; with `E` false it says that `x` does not stop.

The rules follow the program text: a sequence (`Meets.bind`), a test (`Meets.ite`), a loop over a
list (`Meets.foldlM`), a loop that counts (`Meets.iterate`).
-/

namespace AdvancedArchitecture

universe u v w

variable {ε : Type u} {α : Type v} {β : Type v}

/-- What `x` returns satisfies `Q`, and it stops only with the errors of `E`. -/
def Meets (E : ε → Prop) (Q : α → Prop) : Except ε α → Prop
  | .ok a => Q a
  | .error e => E e

section Meets

variable {E : ε → Prop} {P Q : α → Prop} {R : β → Prop} {x : Except ε α}

@[simp]
theorem meets_ok {a : α} : Meets E Q (.ok a) ↔ Q a := Iff.rfl

@[simp]
theorem meets_pure {a : α} : Meets E Q (pure a) ↔ Q a := Iff.rfl

@[simp]
theorem meets_error {e : ε} : Meets E Q (.error e) ↔ E e := Iff.rfl

theorem Meets.mono (h : Meets E P x) (hPQ : ∀ a, P a → Q a) : Meets E Q x := by
  cases x with
  | ok a => exact hPQ a h
  | error e => exact h

/-- A sequence: what follows is judged from what the first part may return. -/
theorem Meets.bind {f : α → Except ε β} (h : Meets E P x) (hf : ∀ a, P a → Meets E R (f a)) :
    Meets E R (x >>= f) := by
  cases x with
  | ok a => exact hf a h
  | error e => exact h

theorem Meets.ite {c : Prop} [Decidable c] {y : Except ε α} (hx : c → Meets E Q x)
    (hy : ¬c → Meets E Q y) : Meets E Q (if c then x else y) := by
  split
  · exact hx ‹_›
  · exact hy ‹_›

/-- A test of the program's own: the error branch is not taken. -/
theorem Meets.guard {c : Prop} [Decidable c] {e : ε} (hc : ¬c) (h : Meets E Q x) :
    Meets E Q (if c then .error e else x) := by
  rw [if_neg hc]
  exact h

theorem Meets.of_eq_ok {a : α} (h : Meets E Q x) (hx : x = .ok a) : Q a := by
  rw [hx] at h
  exact h

theorem eq_ok_of_isSome {x : Except ε α} (h : x.toOption.isSome = true) (a : α) :
    x = .ok (x.toOption.getD a) := by
  cases x with
  | ok b => rfl
  | error e => exact absurd h (by simp [Except.toOption])

/-- A loop over a list. The invariant may speak of what is left of the list. -/
theorem Meets.foldlM {ι : Type w} {f : α → ι → Except ε α} (I : List ι → α → Prop)
    (hf : ∀ i l a, I (i :: l) a → Meets E (I l) (f a i)) (l : List ι) {a : α} (h : I l a) :
    Meets E (I []) (l.foldlM f a) := by
  induction l generalizing a with
  | nil => exact h
  | cons i l ih =>
    rw [List.foldlM_cons]
    exact (hf i l a h).bind fun b hb => ih hb

end Meets

/-! ### Loops that count -/

/-- `n` turns of a loop. -/
def iterate (f : α → Except ε α) : ℕ → α → Except ε α
  | 0, a => .ok a
  | n + 1, a => f a >>= iterate f n

/-- What every turn keeps holds after any number of turns. -/
theorem Meets.iterate {E : ε → Prop} {f : α → Except ε α} (I : α → Prop)
    (hf : ∀ a, I a → Meets E I (f a)) (n : ℕ) {a : α} (h : I a) :
    Meets E I (AdvancedArchitecture.iterate f n a) := by
  induction n generalizing a with
  | zero => exact h
  | succ n ih => exact (hf a h).bind fun b hb => ih hb

end AdvancedArchitecture
