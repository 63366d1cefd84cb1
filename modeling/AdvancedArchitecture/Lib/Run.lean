import Mathlib.Data.List.Forall2

/-!
# Runs of a partial step function

A component is used through a sequence of calls. `step s a` is what the call `a` answers in
the state `s` and the state it leaves, or `none` if the call does not return. `run` makes the
calls of a list one after the other; `EveryStep` says that a property of one call holds of
each call of a run, up to the first that does not return.

The rules: an invariant that every call preserves holds after a run (`run_invariant`), a run is
matched by another call by call (`run_match`) or by that of the calls that matter (`run_filter`),
and two properties of one call that agree wherever an invariant holds agree on runs, when the
first of them may be used to preserve the invariant (`EveryStep.iff_of_invariant`).
-/

namespace AdvancedArchitecture

universe u v w

variable {σ : Type u} {α : Type v} {β : Type w}

/-- The answers and the last state of a sequence of calls. -/
def run (step : σ → α → Option (β × σ)) : σ → List α → Option (List β × σ)
  | s, [] => some ([], s)
  | s, a :: as =>
    match step s a with
    | none => none
    | some (b, s') => (run step s' as).map fun r => (b :: r.1, r.2)

section run

variable (step : σ → α → Option (β × σ))

@[simp]
theorem run_nil (s : σ) : run step s [] = some ([], s) := rfl

theorem run_cons_eq_some {s : σ} {a : α} {as : List α} {bs : List β} {t : σ} :
    run step s (a :: as) = some (bs, t) ↔
      ∃ b s' bs', step s a = some (b, s') ∧ run step s' as = some (bs', t) ∧ bs = b :: bs' := by
  rw [run]
  rcases hs : step s a with _ | ⟨b, s'⟩
  · simp
  · refine ⟨fun h => ?_, ?_⟩
    · obtain ⟨⟨bs', t'⟩, hr, heq⟩ := Option.map_eq_some_iff.mp h
      obtain ⟨rfl, rfl⟩ := Prod.mk.inj heq
      exact ⟨b, s', bs', rfl, hr, rfl⟩
    · rintro ⟨b', s'', bs', heq, hr, rfl⟩
      obtain ⟨rfl, rfl⟩ := Prod.mk.inj (Option.some.inj heq)
      simp [hr]

theorem run_append {s t : σ} {as as' : List α} {bs : List β} :
    run step s (as ++ as') = some (bs, t) ↔
      ∃ m bs₁ bs₂, run step s as = some (bs₁, m) ∧ run step m as' = some (bs₂, t) ∧
        bs = bs₁ ++ bs₂ := by
  induction as generalizing s bs with
  | nil => simp
  | cons a as ih =>
    rw [List.cons_append, run_cons_eq_some]
    refine ⟨?_, ?_⟩
    · rintro ⟨b, s', bs', hs, hr, rfl⟩
      obtain ⟨m, bs₁, bs₂, h₁, h₂, rfl⟩ := ih.mp hr
      exact ⟨m, b :: bs₁, bs₂, (run_cons_eq_some step).mpr ⟨b, s', bs₁, hs, h₁, rfl⟩, h₂, rfl⟩
    · rintro ⟨m, bs₁, bs₂, h₁, h₂, rfl⟩
      obtain ⟨b, s', bs', hs, hr, rfl⟩ := (run_cons_eq_some step).mp h₁
      exact ⟨b, s', bs' ++ bs₂, hs, ih.mpr ⟨m, bs', bs₂, hr, h₂, rfl⟩, rfl⟩

/-- **Invariants.** What every call preserves holds after a run. -/
theorem run_invariant {I : σ → Prop}
    (hstep : ∀ s a b s', I s → step s a = some (b, s') → I s') {s t : σ} {as : List α}
    {bs : List β} (h : I s) (hr : run step s as = some (bs, t)) : I t := by
  induction as generalizing s bs with
  | nil =>
    obtain ⟨-, rfl⟩ := Prod.mk.inj (Option.some.inj hr)
    exact h
  | cons a as ih =>
    obtain ⟨b, s', bs', hs, hr', -⟩ := (run_cons_eq_some step).mp hr
    exact ih (hstep s a b s' h hs) hr'

/-- **Total runs.** If every call with the property `C` returns where the invariant `I` holds, and
keeps it, runs of such calls return. -/
theorem run_returns {I : σ → Prop} {C : α → Prop}
    (hstep : ∀ s a, I s → C a → ∃ b s', step s a = some (b, s') ∧ I s') {s : σ} {as : List α}
    (hC : ∀ a ∈ as, C a) (h : I s) : ∃ bs s', run step s as = some (bs, s') ∧ I s' := by
  induction as generalizing s with
  | nil => exact ⟨[], s, rfl, h⟩
  | cons a as ih =>
    obtain ⟨b, s₁, hs, h₁⟩ := hstep s a h (hC a List.mem_cons_self)
    obtain ⟨bs, s', hr, h'⟩ := ih (fun a' ha' => hC a' (List.mem_cons_of_mem a ha')) h₁
    exact ⟨b :: bs, s', (run_cons_eq_some step).mpr ⟨b, s₁, bs, hs, hr, rfl⟩, h'⟩

end run

/-! ### Two runs side by side -/

section rel

variable {γ : Type*} {δ : Type*} {r : α → β → Prop} {r' : γ → δ → Prop}

theorem rel_map {f : α → γ} {g : β → δ} {x : Option α} {y : Option β} (h : Option.Rel r x y)
    (hfg : ∀ a b, r a b → r' (f a) (g b)) : Option.Rel r' (x.map f) (y.map g) := by
  cases h with
  | none => exact Option.Rel.none
  | some h => exact Option.Rel.some (hfg _ _ h)

theorem rel_of_some {x : Option α} {b : β} (h : Option.Rel r x (some b)) :
    ∃ a, x = some a ∧ r a b := by
  cases h with
  | some h => exact ⟨_, rfl, h⟩

theorem rel_of_eq_some {x : Option α} {y : Option β} (h : Option.Rel r x y) {a : α}
    (ha : x = some a) : ∃ b, y = some b ∧ r a b := by
  cases h with
  | none => exact absurd ha (by simp)
  | some h =>
    obtain rfl := Option.some.inj ha
    exact ⟨_, rfl, h⟩

theorem rel_of_none {x : Option α} (h : Option.Rel r x none) : x = none := by
  cases h
  rfl

/-- **Matching runs.** If each call of `step` is matched by a call of `step'` whose answer is
related by `Q`, and the relation `R` is kept, runs are matched by runs. -/
theorem run_match {τ : Type*} {step : σ → α → Option (β × σ)} {step' : τ → α → Option (γ × τ)}
    {R : σ → τ → Prop} {Q : β → γ → Prop} {C : α → Prop}
    (hstep : ∀ s t a b s', R s t → C a → step s a = some (b, s') →
      ∃ b' t', step' t a = some (b', t') ∧ Q b b' ∧ R s' t')
    {s s' : σ} {t : τ} {as : List α} {bs : List β} (hC : ∀ a ∈ as, C a) (h : R s t)
    (hr : run step s as = some (bs, s')) :
    ∃ bs' t', run step' t as = some (bs', t') ∧ List.Forall₂ Q bs bs' ∧ R s' t' := by
  induction as generalizing s t bs with
  | nil =>
    obtain ⟨rfl, rfl⟩ := Prod.mk.inj (Option.some.inj hr)
    exact ⟨[], t, rfl, List.Forall₂.nil, h⟩
  | cons a as ih =>
    obtain ⟨b, s₁, bs₁, hs, hr', rfl⟩ := (run_cons_eq_some step).mp hr
    obtain ⟨b', t₁, ht, hb, h₁⟩ := hstep s t a b s₁ h (hC a List.mem_cons_self) hs
    obtain ⟨bs', t', hrun, hbs, h'⟩ := ih (fun a' ha' => hC a' (List.mem_cons_of_mem a ha')) h₁ hr'
    exact ⟨b' :: bs', t', (run_cons_eq_some step').mpr ⟨b', t₁, bs', ht, hrun, rfl⟩,
      List.Forall₂.cons hb hbs, h'⟩

/-- **Simulation.** If each call of `step` is matched by a call of `step'` that answers the same,
up to `f`, and the relation is kept, runs are matched by runs. -/
theorem run_simulation {τ : Type*} {step : σ → α → Option (β × σ)}
    {step' : τ → α → Option (γ × τ)} {f : β → γ} {R : σ → τ → Prop} {C : α → Prop}
    (hstep : ∀ s t a b s', R s t → C a → step s a = some (b, s') →
      ∃ t', step' t a = some (f b, t') ∧ R s' t')
    {s s' : σ} {t : τ} {as : List α} {bs : List β} (hC : ∀ a ∈ as, C a) (h : R s t)
    (hr : run step s as = some (bs, s')) :
    ∃ t', run step' t as = some (bs.map f, t') ∧ R s' t' := by
  have hmatch : ∀ s t a b s', R s t → C a → step s a = some (b, s') →
      ∃ b' t', step' t a = some (b', t') ∧ f b = b' ∧ R s' t' := by
    intro s t a b s' h ha hs
    obtain ⟨t', ht, h'⟩ := hstep s t a b s' h ha hs
    exact ⟨f b, t', ht, rfl, h'⟩
  obtain ⟨bs', t', hrun, hbs, h'⟩ := run_match hmatch hC h hr
  rw [← List.forall₂_map_left_iff, List.forall₂_eq_eq_eq] at hbs
  exact ⟨t', hbs ▸ hrun, h'⟩

/-- **Calls that do not matter.** If the calls that satisfy `p` are matched with the same answer
and the relation is kept, and the others keep the relation by themselves, a run is matched by the
run of the calls that satisfy `p`. -/
theorem run_filter {τ : Type*} {step : σ → α → Option (β × σ)} {step' : τ → α → Option (β × τ)}
    {R : σ → τ → Prop} {C : α → Prop} {p : α → Bool}
    (hkeep : ∀ s t a b s', R s t → C a → p a = true → step s a = some (b, s') →
      ∃ t', step' t a = some (b, t') ∧ R s' t')
    (hskip : ∀ s t a b s', R s t → C a → p a = false → step s a = some (b, s') → R s' t)
    {s s' : σ} {t : τ} {as : List α} {bs : List β} (hC : ∀ a ∈ as, C a) (h : R s t)
    (hr : run step s as = some (bs, s')) :
    ∃ t', run step' t (as.filter p) =
      some (((as.zip bs).filter fun x => p x.1).map Prod.snd, t') ∧ R s' t' := by
  induction as generalizing s t bs with
  | nil =>
    obtain ⟨-, rfl⟩ := Prod.mk.inj (Option.some.inj hr)
    exact ⟨t, rfl, h⟩
  | cons a as ih =>
    obtain ⟨b, s₁, bs', hs, hr', rfl⟩ := (run_cons_eq_some step).mp hr
    have ha := hC a List.mem_cons_self
    have hrest := fun t h => ih (t := t) (fun a' ha' => hC a' (List.mem_cons_of_mem a ha')) h hr'
    rcases hp : p a
    · obtain ⟨t', hrun, h'⟩ := hrest t (hskip s t a b s₁ h ha hp hs)
      refine ⟨t', ?_, h'⟩
      rw [List.filter_cons_of_neg (by simp [hp]), List.zip_cons_cons,
        List.filter_cons_of_neg (by simp [hp]), hrun]
    · obtain ⟨t₁, ht, h₁⟩ := hkeep s t a b s₁ h ha hp hs
      obtain ⟨t', hrun, h'⟩ := hrest t₁ h₁
      refine ⟨t', ?_, h'⟩
      have hzip : (((a :: as).zip (b :: bs')).filter fun x => p x.1) =
          (a, b) :: (as.zip bs').filter fun x => p x.1 := List.filter_cons_of_pos hp
      rw [List.filter_cons_of_pos hp, hzip, List.map_cons]
      exact (run_cons_eq_some step').mpr ⟨b, t₁, _, ht, hrun, rfl⟩

end rel

/-! ### Properties of every call of a run -/

/-- `P s a b s'` holds of each call `a` of a run, made in `s`, answering `b` and leaving `s'`. -/
def EveryStep (step : σ → α → Option (β × σ)) (P : σ → α → β → σ → Prop) : σ → List α → Prop
  | _, [] => True
  | s, a :: as =>
    match step s a with
    | none => True
    | some (b, s') => P s a b s' ∧ EveryStep step P s' as

section EveryStep

variable {step : σ → α → Option (β × σ)} {P Q : σ → α → β → σ → Prop}

instance EveryStep.decidable [∀ s a b s', Decidable (P s a b s')] :
    ∀ s as, Decidable (EveryStep step P s as)
  | _, [] => isTrue trivial
  | s, a :: as =>
    have : ∀ s', Decidable (EveryStep step P s' as) := fun s' => EveryStep.decidable s' as
    match h : step s a with
    | none => isTrue (by rw [EveryStep, h]; trivial)
    | some (b, s') => decidable_of_iff (P s a b s' ∧ EveryStep step P s' as)
        (by rw [EveryStep, h])

theorem everyStep_cons {s : σ} {a : α} {as : List α} :
    EveryStep step P s (a :: as) ↔
      ∀ b s', step s a = some (b, s') → P s a b s' ∧ EveryStep step P s' as := by
  rw [EveryStep]
  rcases step s a with _ | ⟨b, s'⟩
  · simp
  · refine ⟨fun h b' s'' heq => ?_, fun h => h b s' rfl⟩
    obtain ⟨rfl, rfl⟩ := Prod.mk.inj (Option.some.inj heq)
    exact h

theorem EveryStep.mono (h : ∀ s a b s', P s a b s' → Q s a b s') {s : σ} {as : List α}
    (hP : EveryStep step P s as) : EveryStep step Q s as := by
  induction as generalizing s with
  | nil => trivial
  | cons a as ih =>
    refine everyStep_cons.mpr fun b s' hs => ?_
    obtain ⟨hP₁, hP₂⟩ := everyStep_cons.mp hP b s' hs
    exact ⟨h s a b s' hP₁, ih hP₂⟩

/-- A property of every call that an invariant implies holds of every call of a run. The calls
may be restricted to those with the property `C`. -/
theorem EveryStep.of_invariant {I : σ → Prop} {C : α → Prop}
    (hstep : ∀ s a b s', I s → C a → step s a = some (b, s') → P s a b s' ∧ I s') {s : σ}
    {as : List α} (hC : ∀ a ∈ as, C a) (h : I s) : EveryStep step P s as := by
  induction as generalizing s with
  | nil => trivial
  | cons a as ih =>
    refine everyStep_cons.mpr fun b s' hs => ?_
    obtain ⟨hP, hI⟩ := hstep s a b s' h (hC a List.mem_cons_self) hs
    exact ⟨hP, ih (fun a' ha' => hC a' (List.mem_cons_of_mem a ha')) hI⟩

/-- An invariant that calls with the property `P` preserve holds after a run of such calls. -/
theorem EveryStep.run_invariant {I : σ → Prop}
    (hstep : ∀ s a b s', I s → step s a = some (b, s') → P s a b s' → I s') {s t : σ}
    {as : List α} {bs : List β} (hP : EveryStep step P s as) (h : I s)
    (hr : run step s as = some (bs, t)) : I t := by
  induction as generalizing s bs with
  | nil =>
    obtain ⟨-, rfl⟩ := Prod.mk.inj (Option.some.inj hr)
    exact h
  | cons a as ih =>
    obtain ⟨b, s', bs', hs, hr', -⟩ := (run_cons_eq_some step).mp hr
    obtain ⟨hP₁, hP₂⟩ := everyStep_cons.mp hP b s' hs
    exact ih hP₂ (hstep s a b s' h hs hP₁) hr'

/-- **Equivalent properties.** `P` and `Q` agree on runs if they agree on each call made in a
state where the invariant `I` holds, and calls with the property `P` preserve `I`. -/
theorem EveryStep.iff_of_invariant {I : σ → Prop} {C : α → Prop}
    (hPQ : ∀ s a b s', I s → C a → step s a = some (b, s') → (P s a b s' ↔ Q s a b s'))
    (hI : ∀ s a b s', I s → C a → step s a = some (b, s') → P s a b s' → I s') {s : σ}
    {as : List α} (hC : ∀ a ∈ as, C a) (h : I s) :
    EveryStep step P s as ↔ EveryStep step Q s as := by
  induction as generalizing s with
  | nil => exact Iff.rfl
  | cons a as ih =>
    have ha := hC a List.mem_cons_self
    rw [everyStep_cons, everyStep_cons]
    refine forall₃_congr fun b s' hs => ?_
    rw [hPQ s a b s' h ha hs]
    refine and_congr_right fun hQ => ?_
    exact ih (fun a' ha' => hC a' (List.mem_cons_of_mem a ha'))
      (hI s a b s' h ha hs ((hPQ s a b s' h ha hs).mpr hQ))

/-- **Reading a property of every call.** It holds of any call that some first calls of the
run lead to. -/
theorem EveryStep.of_run {s t t' : σ} {as as' : List α} {a : α} {b : β} {bs : List β}
    (h : EveryStep step P s (as ++ a :: as')) (hr : run step s as = some (bs, t))
    (hs : step t a = some (b, t')) : P t a b t' := by
  induction as generalizing s bs with
  | nil =>
    obtain ⟨-, rfl⟩ := Prod.mk.inj (Option.some.inj hr)
    exact (everyStep_cons.mp h b t' hs).1
  | cons a' as ih =>
    obtain ⟨b', s', bs', hs', hr', -⟩ := (run_cons_eq_some step).mp hr
    exact ih (everyStep_cons.mp h b' s' hs').2 hr'

end EveryStep

end AdvancedArchitecture
