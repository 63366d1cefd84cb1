import Mathlib.Data.Int.Notation
import Mathlib.Data.Nat.Notation
import Mathlib.Logic.Function.Basic
import Mathlib.Tactic.SplitIfs

/-!
# Write-back stores

A write-back store holds some of the blocks of a memory, each with a dirty bit. A block gets
into the store by a fetch from the memory (`fill`), is changed there (`touch`), and leaves it
with a write to the memory if it is dirty (`drop`). The memory is reached by a `Bus`, whose
transfers may depend on a time and on the data that is in the way.

* **Transparency.** If the bus moves blocks between the store and a memory (`Bus.Backs`), what a
  reader sees of a block (`view`) is changed by accesses only: dropping a block does not change
  the view, as long as the data of clean blocks is that of the memory (`Clean`).
* **Write-backs.** The number of writes of a block, plus one if the block is held and dirty,
  does not change when blocks are dropped (`Drops.writes_add_owed`).
-/

namespace AdvancedArchitecture

universe u v w x

variable {τ : Type u} {β : Type v} {δ : Type w} {ω : Type x}

/-- What a store holds of a block. -/
structure Entry (δ : Type w) where
  dirty : Bool
  data : δ

/-- Transfers between a store and the world behind it. A read is given the data it overwrites. -/
structure Bus (τ : Type u) (β : Type v) (δ : Type w) (ω : Type x) where
  write : τ → β → δ → ω → ω
  read : τ → β → δ → ω → δ × ω

/-- The bus moves blocks to and from the memory `mem`. -/
structure Bus.Backs [DecidableEq β] (bus : Bus τ β δ ω) (mem : ω → β → δ) : Prop where
  write : ∀ t b x w, mem (bus.write t b x w) = Function.update (mem w) b x
  read : ∀ t b x w, (bus.read t b x w).1 = mem w b
  read_mem : ∀ t b x w, mem (bus.read t b x w).2 = mem w

/-- `n` counts the transfers, a write of block `b` with weight `p b` and a read with `q b`. -/
structure Bus.Counts (bus : Bus τ β δ ω) (p q : β → ℕ) (n : ω → ℕ) : Prop where
  write : ∀ t b x w, n (bus.write t b x w) = n w + p b
  read : ∀ t b x w, n (bus.read t b x w).2 = n w + q b

theorem Bus.Counts.congr {bus : Bus τ β δ ω} {p p' q q' : β → ℕ} {n : ω → ℕ}
    (h : bus.Counts p q n) (hp : ∀ b, p b = p' b) (hq : ∀ b, q b = q' b) : bus.Counts p' q' n := by
  obtain rfl : p = p' := funext hp
  obtain rfl : q = q' := funext hq
  exact h

/-- A write-back store, and the world behind it. -/
structure WriteBack (β : Type v) (δ : Type w) (ω : Type x) where
  blocks : β → Option (Entry δ)
  writebacks : ℤ
  world : ω

namespace WriteBack

variable {bus : Bus τ β δ ω} {mem : ω → β → δ} {s s' : WriteBack β δ ω} {t : τ} {b b' : β}

/-- What a reader sees: the data of the blocks that are held, and the memory elsewhere. -/
def view (mem : ω → β → δ) (s : WriteBack β δ ω) (b : β) : δ :=
  match s.blocks b with
  | some e => e.data
  | none => mem s.world b

/-- The clean blocks have the data of the memory. -/
def Clean (mem : ω → β → δ) (s : WriteBack β δ ω) : Prop :=
  ∀ b e, s.blocks b = some e → e.dirty = false → e.data = mem s.world b

theorem view_of_some {e : Entry δ} (h : s.blocks b = some e) : s.view mem b = e.data := by
  rw [view, h]

theorem view_of_none (h : s.blocks b = none) : s.view mem b = mem s.world b := by
  rw [view, h]

/-- An empty store shows the memory. -/
theorem view_of_empty (h : ∀ b, s.blocks b = none) : s.view mem = mem s.world :=
  funext fun b => view_of_none (h b)

/-- Only the memory of the world is seen. -/
theorem view_world {z : ω} (h : mem z = mem s.world) :
    view mem { s with world := z } = s.view mem := by
  funext b
  rw [view, view, h]

theorem clean_world {z : ω} (h : mem z = mem s.world) (hc : s.Clean mem) :
    Clean mem { s with world := z } := by
  rw [Clean, h]
  exact hc

/-- The writes owed for a block: one if it is held and dirty. -/
def owed (s : WriteBack β δ ω) (b : β) : ℕ :=
  match s.blocks b with
  | some e => if e.dirty then 1 else 0
  | none => 0

theorem owed_of_some {e : Entry δ} (h : s.blocks b = some e) :
    s.owed b = if e.dirty then 1 else 0 := by
  rw [owed, h]

theorem owed_of_none (h : s.blocks b = none) : s.owed b = 0 := by
  rw [owed, h]

theorem owed_congr (h : s'.blocks b = s.blocks b) : s'.owed b = s.owed b := by
  rw [owed, owed, h]

/-! ### Blocks that come and go -/

variable [DecidableEq β]

/-- Block `b` leaves the store. -/
def drop (bus : Bus τ β δ ω) (t : τ) (b : β) (s : WriteBack β δ ω) : WriteBack β δ ω :=
  match s.blocks b with
  | none => s
  | some e =>
    { blocks := Function.update s.blocks b none
      writebacks := if e.dirty then s.writebacks + 1 else s.writebacks
      world := if e.dirty then bus.write t b e.data s.world else s.world }

/-- Block `b` is fetched, and an access makes an entry of its data. -/
def fill (bus : Bus τ β δ ω) (t : τ) (b : β) (old : δ) (f : δ → Entry δ)
    (s : WriteBack β δ ω) : WriteBack β δ ω :=
  { s with
    blocks := Function.update s.blocks b (some (f (bus.read t b old s.world).1))
    world := (bus.read t b old s.world).2 }

/-- An access to block `b`, which is held. -/
def touch (b : β) (f : Entry δ → Entry δ) (s : WriteBack β δ ω) : WriteBack β δ ω :=
  { s with blocks := Function.update s.blocks b ((s.blocks b).map f) }

/-- Some blocks leave the store, one after the other. -/
inductive Drops (bus : Bus τ β δ ω) : WriteBack β δ ω → WriteBack β δ ω → Prop
  | refl (s : WriteBack β δ ω) : Drops bus s s
  | drop {s s' : WriteBack β δ ω} (t : τ) (b : β) (h : Drops bus s s') :
      Drops bus s (s'.drop bus t b)

theorem Drops.trans {s'' : WriteBack β δ ω} (h : Drops bus s s') (h' : Drops bus s' s'') :
    Drops bus s s'' := by
  induction h' with
  | refl => exact h
  | drop t b _ ih => exact ih.drop t b

theorem drop_blocks (s : WriteBack β δ ω) :
    (s.drop bus t b).blocks = Function.update s.blocks b none := by
  rw [drop]
  rcases h : s.blocks b with _ | e
  · exact (Function.update_eq_self_iff.mpr h.symm).symm
  · rfl

/-- A block that stays is not changed. -/
theorem Drops.blocks (h : Drops bus s s') (b : β) :
    s'.blocks b = s.blocks b ∨ s'.blocks b = none := by
  induction h with
  | refl => exact Or.inl rfl
  | drop t b' _ ih =>
    rw [drop_blocks]
    by_cases hb : b = b'
    · rw [hb, Function.update_self]
      exact Or.inr rfl
    · rw [Function.update_of_ne hb]
      exact ih

theorem fill_blocks_self (old : δ) (f : δ → Entry δ) : (s.fill bus t b old f).blocks b =
    some (f (bus.read t b old s.world).1) :=
  Function.update_self _ _ _

theorem fill_blocks_ne (h : b' ≠ b) (old : δ) (f : δ → Entry δ) :
    (s.fill bus t b old f).blocks b' = s.blocks b' :=
  Function.update_of_ne h _ _

theorem touch_blocks_self (f : Entry δ → Entry δ) :
    (s.touch b f).blocks b = (s.blocks b).map f :=
  Function.update_self _ _ _

theorem touch_blocks_ne (h : b' ≠ b) (f : Entry δ → Entry δ) :
    (s.touch b f).blocks b' = s.blocks b' :=
  Function.update_of_ne h _ _

/-! ### Transparency -/

section view

/-- **Dropping a block** does not change what is seen: its data goes to the memory if it is not
there already. -/
theorem view_drop (hb : bus.Backs mem) (hc : s.Clean mem) :
    (s.drop bus t b).view mem = s.view mem ∧ (s.drop bus t b).Clean mem := by
  rcases h : s.blocks b with _ | e
  · have hdrop : s.drop bus t b = s := by rw [drop, h]
    rw [hdrop]
    exact ⟨rfl, hc⟩
  · have hmem : ∀ b', b' ≠ b → mem (s.drop bus t b).world b' = mem s.world b' := by
      intro b' hne
      simp only [drop, h]
      split_ifs
      · rw [hb.write, Function.update_of_ne hne]
      · rfl
    have hself : mem (s.drop bus t b).world b = e.data := by
      simp only [drop, h]
      split_ifs with hd
      · rw [hb.write, Function.update_self]
      · exact (hc b e h (by simpa using hd)).symm
    refine ⟨funext fun b' => ?_, fun b' e' he hd => ?_⟩
    · by_cases hne : b' = b
      · rw [hne, view_of_none (by rw [drop_blocks, Function.update_self]), hself, view_of_some h]
      · rw [view, view, drop_blocks, Function.update_of_ne hne, hmem b' hne]
    · rw [drop_blocks] at he
      have hne : b' ≠ b := by
        intro hne
        rw [hne, Function.update_self] at he
        exact absurd he (by simp)
      rw [Function.update_of_ne hne] at he
      rw [hmem b' hne]
      exact hc b' e' he hd

theorem Drops.view (hb : bus.Backs mem) (h : Drops bus s s') (hc : s.Clean mem) :
    s'.view mem = s.view mem ∧ s'.Clean mem := by
  induction h with
  | refl => exact ⟨rfl, hc⟩
  | drop t b _ ih =>
    obtain ⟨hv, hc'⟩ := view_drop hb ih.2
    exact ⟨hv.trans ih.1, hc'⟩

/-- **A fetch** gets the data that is seen, and the access changes what is seen of its block. -/
theorem view_fill (hb : bus.Backs mem) (hc : s.Clean mem) (hn : s.blocks b = none) (old : δ)
    {f : δ → Entry δ} (hf : ∀ x, (f x).dirty = false → (f x).data = x) :
    (s.fill bus t b old f).view mem =
        Function.update (s.view mem) b (f (s.view mem b)).data ∧
      (s.fill bus t b old f).Clean mem := by
  have hmem : mem (s.fill bus t b old f).world = mem s.world := hb.read_mem t b old s.world
  have hread : (bus.read t b old s.world).1 = s.view mem b := by
    rw [hb.read, view_of_none hn]
  refine ⟨funext fun b' => ?_, fun b' e he hd => ?_⟩
  · by_cases hne : b' = b
    · rw [hne, Function.update_self, view_of_some (fill_blocks_self old f), hread]
    · rw [Function.update_of_ne hne, WriteBack.view, WriteBack.view, fill_blocks_ne hne, hmem]
  · rw [hmem]
    by_cases hne : b' = b
    · rw [hne, fill_blocks_self] at he
      obtain rfl := Option.some.inj he
      rw [hf _ hd, hne, hread, view_of_none hn]
    · rw [fill_blocks_ne hne] at he
      exact hc b' e he hd

/-- **An access** to a block that is held changes what is seen of it. -/
theorem view_touch (hc : s.Clean mem) {e : Entry δ} (he : s.blocks b = some e)
    {f : Entry δ → Entry δ}
    (hf : ∀ e, (f e).dirty = false → e.dirty = false ∧ (f e).data = e.data) :
    (s.touch b f).view mem = Function.update (s.view mem) b (f e).data ∧
      (s.touch b f).Clean mem := by
  have hself : (s.touch b f).blocks b = some (f e) := by rw [touch_blocks_self, he]; rfl
  refine ⟨funext fun b' => ?_, fun b' e' he' hd => ?_⟩
  · by_cases hne : b' = b
    · rw [hne, Function.update_self, view_of_some hself]
    · rw [Function.update_of_ne hne, WriteBack.view, WriteBack.view, touch_blocks_ne hne]
      rfl
  · by_cases hne : b' = b
    · rw [hne] at he' ⊢
      obtain rfl := Option.some.inj (hself.symm.trans he')
      rw [(hf e hd).2]
      exact hc b e he (hf e hd).1
    · rw [touch_blocks_ne hne] at he'
      exact hc b' e' he' hd

end view

/-! ### Write-backs -/

section writes

variable {n : ω → ℕ} {p q : β → ℕ}

/-- **Dropping a block** writes it as often as is owed. -/
theorem drop_writes (hn : bus.Counts p q n) :
    n (s.drop bus t b).world = n s.world + p b * s.owed b := by
  rcases h : s.blocks b with _ | e
  · rw [owed_of_none h, drop, h]
    rfl
  · rw [owed_of_some h]
    simp only [drop, h]
    split_ifs
    · rw [hn.write, Nat.mul_one]
    · rfl

/-- **The writes of a block and the one owed for it** do not change when blocks are dropped. -/
theorem Drops.writes_add_owed (hn : bus.Counts (fun b' => if b' = b then 1 else 0) q n)
    (h : Drops bus s s') : n s'.world + s'.owed b = n s.world + s.owed b := by
  induction h with
  | refl => rfl
  | @drop s' t b' _ ih =>
    rw [drop_writes hn, ← ih]
    by_cases hb : b' = b
    · have hnone : (s'.drop bus t b).blocks b = none := by
        rw [drop_blocks, Function.update_self]
      rw [hb, owed_of_none hnone, if_pos rfl]
      omega
    · have hsame : (s'.drop bus t b').owed b = s'.owed b :=
        owed_congr (by rw [drop_blocks, Function.update_of_ne (Ne.symm hb)])
      rw [if_neg hb, hsame]
      omega

/-- Dropping blocks makes no transfers that do not count. -/
theorem Drops.of_zero (hn : bus.Counts (fun _ => 0) q n) (h : Drops bus s s') :
    n s'.world = n s.world := by
  induction h with
  | refl => rfl
  | drop t b _ ih => rw [drop_writes hn, ih, Nat.zero_mul, Nat.add_zero]

/-- A fetch is one read. -/
theorem fill_reads (hn : bus.Counts p q n) (old : δ) (f : δ → Entry δ) :
    n (s.fill bus t b old f).world = n s.world + q b :=
  hn.read t b old s.world

theorem drop_writebacks : (s.drop bus t b).writebacks = s.writebacks + s.owed b := by
  rcases h : s.blocks b with _ | e
  · rw [owed_of_none h, drop, h]
    simp
  · rw [owed_of_some h]
    simp only [drop, h]
    split_ifs <;> simp

/-- The counter of the store counts the writes. -/
theorem Drops.writebacks (hn : bus.Counts (fun _ => 1) q n) (h : Drops bus s s') :
    s'.writebacks - n s'.world = s.writebacks - n s.world := by
  induction h with
  | refl => rfl
  | @drop s' t b _ ih =>
    rw [drop_writes hn, drop_writebacks, ← ih]
    push_cast
    omega

end writes

end WriteBack

end AdvancedArchitecture
