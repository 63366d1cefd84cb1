import AdvancedArchitecture.Bpred.History

/-!
# The gshare configuration

A two-level predictor with one history register, `2 ^ shift_width` counters and the option to xor
is documented as gshare: the counter of a branch is at the index that its history xored with its
instruction number forms. `bpred_dir_lookup` does nothing where it should xor, and all branches
share the counter of their history. The index is that of gshare for the branches whose instruction
number is zero below the size of the table, and for no others (`gshare_iff`).
-/

namespace AdvancedArchitecture.Bpred

/-! ### Lookups of conditional branches -/

/-- A lookup of a conditional branch: the history it finds, its address, and its counter. -/
structure Looked where
  history : ℕ
  baddr : MdAddr
  counter : Option CounterPtr
  deriving DecidableEq, Repr

namespace Predictor

/-- The history that a lookup of a branch finds. -/
def history (pred : Predictor) (baddr : MdAddr) : ℕ :=
  match pred.dirpred.component .twolev with
  | some two => (two.shiftregs.get (two.l1index baddr)).toNat
  | none => 0

/-- The lookup of a conditional branch that a call is, if it is one. -/
def look (pred : Predictor) : PredCall → List Looked
  | .lookup baddr btarget op isCall isReturn upd idx =>
    if op.isCond then
      [⟨pred.history baddr, baddr,
        (bpredLookup pred baddr btarget op isCall isReturn upd idx).dirUpdate.recorded .twolev⟩]
    else []
  | .update .. => []

/-- The lookups of conditional branches among some calls. -/
def looked (pred : Predictor) : List PredCall → List Looked
  | [] => []
  | call :: calls => pred.look call ++
    match pred.step call with
    | none => []
    | some (_, pred') => pred'.looked calls

end Predictor

/-- **Lookups as in gshare**: the counter is at the history xored with the instruction number, and
under one history two branches whose numbers differ below the size do not share it. -/
def Gshare (w : ℕ) (ls : List Looked) : Prop :=
  (∀ l ∈ ls, l.counter = some ⟨.twolev, (l.history ^^^ (l.baddr.toNat / 4)) % 2 ^ w⟩) ∧
    ∀ l ∈ ls, ∀ l' ∈ ls, l.history = l'.history →
      l.baddr.toNat / 4 % 2 ^ w ≠ l'.baddr.toNat / 4 % 2 ^ w → l.counter ≠ l'.counter

/-! ### The index of the code -/

/-- A xor leaves a number below the size if it is with a multiple of the size. -/
theorem xor_mod_eq_self_iff {h w : ℕ} (hh : h < 2 ^ w) (n : ℕ) :
    (h ^^^ n) % 2 ^ w = h ↔ n % 2 ^ w = 0 := by
  rw [Nat.xor_mod_two_pow, Nat.mod_eq_of_lt hh]
  constructor
  · intro heq
    calc n % 2 ^ w = h ^^^ (h ^^^ n % 2 ^ w) := by
          rw [← Nat.xor_assoc, Nat.xor_self, Nat.zero_xor]
      _ = 0 := by rw [heq, Nat.xor_self]
  · intro hzero
    rw [hzero, Nat.xor_zero]

/-- With the option to xor the index is the history alone. -/
theorem TwoLevel.l2index_of_xor {two : TwoLevel} (hxor : two.xor = true)
    (hsize : two.l2size = 2 ^ two.shiftWidth) (baddr : MdAddr)
    (hh : (two.shiftregs.get (two.l1index baddr)).toNat < 2 ^ two.shiftWidth) :
    two.l2index baddr = (two.shiftregs.get (two.l1index baddr)).toNat := by
  have hle : two.l2size ≤ 2 ^ 32 := by
    rw [hsize]
    exact Nat.pow_le_pow_right (by decide) (two.width_ok.2.trans (by decide))
  rw [l2index, if_pos hxor, two.l2_ok.toNat_and hle, hsize, Nat.mod_eq_of_lt hh]

/-- What a lookup finds, and how it chooses the counter. -/
theorem Follows.look {two₀ two : TwoLevel} {calls : List PredCall} {pred : Predictor}
    (h : Follows .twolev two₀ calls pred two) (hxor : two₀.xor = true)
    (hsize : two₀.l2size = 2 ^ two₀.shiftWidth) (call : PredCall) :
    ∀ l ∈ pred.look call, l.history < 2 ^ two₀.shiftWidth ∧
      l.counter = some ⟨.twolev, l.history⟩ := by
  intro l hl
  cases call with
  | update => exact absurd hl List.not_mem_nil
  | lookup baddr btarget op isCall isReturn upd idx =>
    rw [Predictor.look] at hl
    split_ifs at hl with hop
    · obtain rfl := List.mem_singleton.mp hl
      have hhist : pred.history baddr = (two.shiftregs.get (two.l1index baddr)).toNat := by
        rw [Predictor.history, h.component]
      have hlt := h.history_lt (two.l1index baddr)
      dsimp only
      rw [recorded_bpredLookup h.component hop, hhist, TwoLevel.l2index_of_xor (h.xor.trans hxor)
        (by rw [h.l2size, h.shiftWidth, hsize]) baddr hlt, ← h.shiftWidth]
      exact ⟨hlt, rfl⟩
    · exact absurd hl List.not_mem_nil

/-- **Every lookup of a run** uses the counter of its history. -/
theorem Follows.looked {two₀ two : TwoLevel} {calls calls' : List PredCall} {pred : Predictor}
    (h : Follows .twolev two₀ calls pred two) (hxor : two₀.xor = true)
    (hsize : two₀.l2size = 2 ^ two₀.shiftWidth) (hl1 : two₀.l1size < 2 ^ 31) :
    ∀ l ∈ pred.looked calls', l.history < 2 ^ two₀.shiftWidth ∧
      l.counter = some ⟨.twolev, l.history⟩ := by
  induction calls' generalizing calls pred two with
  | nil => exact fun l hl => absurd hl List.not_mem_nil
  | cons call calls' ih =>
    intro l hl
    rw [Predictor.looked] at hl
    rcases List.mem_append.mp hl with hl | hl
    · exact h.look hxor hsize call l hl
    · rcases hs : pred.step call with _ | ⟨answer, pred'⟩
      · rw [hs] at hl
        exact absurd hl List.not_mem_nil
      · rw [hs] at hl
        obtain ⟨two', h'⟩ := h.step hl1 hs
        exact ih h' l hl

/-- The two-level predictor of a new predictor. -/
theorem component_bpredCreateTwoLevel {l1size l2size shiftWidth btbSets btbAssoc retstackSize : ℕ}
    {xor : Bool} {pred : Predictor}
    (h : bpredCreateTwoLevel l1size l2size shiftWidth xor btbSets btbAssoc retstackSize =
      some pred) :
    ∃ two, pred.dirpred.component .twolev = some two ∧ two.l1size = l1size ∧
      two.l2size = l2size ∧ two.shiftWidth = shiftWidth ∧ two.xor = xor := by
  simp only [bpredCreateTwoLevel, Option.bind_eq_bind, Option.bind_eq_some_iff] at h
  obtain ⟨two, ht, btb, -, retstack, -, h⟩ := h
  obtain rfl := Option.some.inj h
  rw [bpredDirCreateTwoLevel] at ht
  split_ifs at ht
  obtain rfl := Option.some.inj ht
  exact ⟨_, rfl, rfl, rfl, rfl, rfl⟩

/-- **gshare**: the lookups of a predictor created in the documented configuration are those of
gshare if and only if the instruction numbers of the conditional branches that are looked up are
all zero below the size of the table. -/
theorem gshare_iff {w btbSets btbAssoc retstackSize : ℕ} {pred : Predictor}
    (h : bpredCreateTwoLevel 1 (2 ^ w) w true btbSets btbAssoc retstackSize = some pred)
    (calls : List PredCall) :
    Gshare w (pred.looked calls) ↔
      ∀ l ∈ pred.looked calls, l.baddr.toNat / 4 % 2 ^ w = 0 := by
  obtain ⟨two, hc, hl1, hl2, hw, hxor⟩ := component_bpredCreateTwoLevel h
  have hnew : pred.NewTwoLevel := Or.inr ⟨_, _, _, _, _, _, _, h⟩
  have hlooked : ∀ l ∈ pred.looked calls, _ :=
    (hnew.follows hc).looked hxor (by rw [hl2, hw]) (by rw [hl1]; decide)
  rw [hw] at hlooked
  have hindex : ∀ l ∈ pred.looked calls,
      (l.counter = some ⟨.twolev, (l.history ^^^ (l.baddr.toNat / 4)) % 2 ^ w⟩ ↔
        l.baddr.toNat / 4 % 2 ^ w = 0) := by
    intro l hl
    obtain ⟨hlt, hcounter⟩ := hlooked l hl
    rw [hcounter, ← xor_mod_eq_self_iff hlt, Option.some.injEq, CounterPtr.mk.injEq]
    simp [eq_comm]
  constructor
  · exact fun hg l hl => (hindex l hl).mp (hg.1 l hl)
  · intro hall
    refine ⟨fun l hl => (hindex l hl).mpr (hall l hl), fun l hl l' hl' _ hne => ?_⟩
    rw [hall l hl, hall l' hl'] at hne
    exact absurd rfl hne

/-- A branch whose instruction number is a multiple of the size, taken and looked up again. -/
theorem gshare_sample : ∃ pred, bpredCreateTwoLevel 1 (2 ^ 2) 2 true 1 1 0 = some pred ∧
    (pred.looked [.lookup 16 64 .beq false false {} 0, .update 16 64 1 0 0 .beq {},
      .lookup 32 64 .bne false false {} 0]).map Looked.history = [0, 1] ∧
    Gshare 2 (pred.looked [.lookup 16 64 .beq false false {} 0, .update 16 64 1 0 0 .beq {},
      .lookup 32 64 .bne false false {} 0]) := by
  let pred := (bpredCreateTwoLevel 1 (2 ^ 2) 2 true 1 1 0).get (by decide)
  have hcreate : bpredCreateTwoLevel 1 (2 ^ 2) 2 true 1 1 0 = some pred := (Option.some_get _).symm
  exact ⟨pred, hcreate, by decide +kernel, (gshare_iff hcreate _).mpr (by decide +kernel)⟩

/-- Under the history zero the branches at 4 and 8 share counter 0; those of gshare are 1 and 2. -/
theorem gshare_shared : ∃ pred, bpredCreateTwoLevel 1 (2 ^ 2) 2 true 1 1 0 = some pred ∧
    pred.looked [.lookup 4 64 .beq false false {} 0, .lookup 8 64 .beq false false {} 0] =
      [⟨0, 4, some ⟨.twolev, 0⟩⟩, ⟨0, 8, some ⟨.twolev, 0⟩⟩] ∧
    ¬ Gshare 2 (pred.looked
      [.lookup 4 64 .beq false false {} 0, .lookup 8 64 .beq false false {} 0]) := by
  let pred := (bpredCreateTwoLevel 1 (2 ^ 2) 2 true 1 1 0).get (by decide)
  have hcreate : bpredCreateTwoLevel 1 (2 ^ 2) 2 true 1 1 0 = some pred := (Option.some_get _).symm
  have hlooked : pred.looked
      [.lookup 4 64 .beq false false {} 0, .lookup 8 64 .beq false false {} 0] =
      [⟨0, 4, some ⟨.twolev, 0⟩⟩, ⟨0, 8, some ⟨.twolev, 0⟩⟩] := by decide +kernel
  refine ⟨pred, hcreate, hlooked, fun hg => ?_⟩
  rw [hlooked] at hg
  exact absurd (hg.1 _ List.mem_cons_self) (by decide)

end AdvancedArchitecture.Bpred
