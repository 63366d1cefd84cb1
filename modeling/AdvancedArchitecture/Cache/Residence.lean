import AdvancedArchitecture.Cache.Transparency

/-!
# Residences of blocks and their write-backs

The cache is watched through a sequence of calls: the calls of `blk_access_fn` that each call
makes, and, for each block, whether a write access has hit or filled it since it entered the
cache. A block that leaves is written exactly once if this is so and not at all otherwise, to
its own address; a block that stays or was not there is not written; a block that enters is
read once (`accounted_run`).
-/

namespace AdvancedArchitecture.Cache

variable {W : Type} {cfg : Config} {E : Extern W cfg}

/-- A cache under observation: `written b` says that a write access hit or filled block `b`
during its residence. -/
structure Watched (W : Type) (cfg : Config) where
  cache : CacheT cfg
  world : W
  written : cfg.Block → Bool

/-- Whether a call is a write access to a block. -/
def Op.writes (op : Op) (b : cfg.Block) : Bool :=
  match op with
  | .access req => req.cmd = .write ∧ cfg.block req.addr = b
  | _ => false

theorem Op.writes_block (req : Request) :
    (Op.access req).writes (cfg.block req.addr) = decide (req.cmd = .write) := by
  simp [Op.writes]

theorem Op.writes_of_ne {req : Request} {b : cfg.Block} (h : b ≠ cfg.block req.addr) :
    (Op.access req).writes b = false := by
  simp [Op.writes, h.symm]

/-- One call of a cache under observation, with the calls of `blk_access_fn` that it makes. -/
def watch (E : Extern W cfg) (s : Watched W cfg) (op : Op) :
    Option ((Answer × List (MemCmd × MdAddr)) × Watched W cfg) :=
  (CacheT.step E.logged (s.cache, (s.world, [])) op).map fun r =>
    ((r.1, r.2.2.2),
      { cache := r.2.1
        world := r.2.2.1
        written := fun b => r.2.1.probe b && (op.writes b || s.written b) })

/-- **The account of one call**: what `blk_access_fn` is called for. -/
structure Accounted (s : Watched W cfg) (ans : Answer × List (MemCmd × MdAddr))
    (s' : Watched W cfg) : Prop where
  /-- A block that leaves is written once if it was written to, and no other block is. -/
  writes : ∀ b : cfg.Block, ans.2.count (.write, b.1) =
    if s.cache.probe b = true ∧ s'.cache.probe b = false ∧ s.written b = true then 1 else 0
  /-- A block that enters is read once, and no other block is. -/
  reads : ∀ b : cfg.Block, ans.2.count (.read, b.1) =
    if s.cache.probe b = false ∧ s'.cache.probe b = true then 1 else 0
  /-- Every call is for a block. -/
  aligned : ∀ p ∈ ans.2, cfg.baddr p.2 = p.2
  /-- `writebacks` counts the writes. -/
  writebacks : s'.cache.regs.writebacks =
    s.cache.regs.writebacks + ans.2.countP (fun p => p.1 = .write)
  /-- A block that leaves because of an access is the one of `*repl_addr`. -/
  replAddr : ∀ (r : Reply) (b : cfg.Block), ans.1 = .reply r → s.cache.probe b = true →
    s'.cache.probe b = false → r.replAddr = b

/-! ### Counting the calls -/

section counts

variable (E) (b : cfg.Block)

/-- The log counts the calls with a property. -/
theorem logged_counts (p : MemCmd × MdAddr → Bool) :
    E.logged.bus.Counts (fun b => if p (.write, b.1) then 1 else 0)
      (fun b => if p (.read, b.1) then 1 else 0) (fun w => w.2.countP p) where
  write t b x w := by
    show (w.2 ++ [(MemCmd.write, b.1)]).countP p = _
    rw [List.countP_append, List.countP_singleton]
  read t b x w := by
    show (w.2 ++ [(MemCmd.read, b.1)]).countP p = _
    rw [List.countP_append, List.countP_singleton]

theorem counts_writes : E.logged.bus.Counts (fun b' => if b' = b then 1 else 0) (fun _ => 0)
    (fun w => w.2.count (.write, b.1)) :=
  (logged_counts E _).congr (fun b' => by simp [Subtype.ext_iff]) (fun b' => by simp)

theorem counts_reads : E.logged.bus.Counts (fun _ => 0) (fun b' => if b' = b then 1 else 0)
    (fun w => w.2.count (.read, b.1)) :=
  (logged_counts E _).congr (fun b' => by simp) (fun b' => by simp [Subtype.ext_iff])

theorem counts_all : E.logged.bus.Counts (fun _ => 1) (fun _ => 0)
    (fun w => w.2.countP fun p => p.1 = .write) :=
  (logged_counts E _).congr (fun b' => by simp) (fun b' => by simp)

theorem counts_misaligned : E.logged.bus.Counts (fun _ => 0) (fun _ => 0)
    (fun w => w.2.countP fun p => cfg.baddr p.2 ≠ p.2) :=
  (logged_counts E _).congr (fun b' => by simp [b'.2]) (fun b' => by simp [b'.2])

end counts

/-! ### Blocks that leave -/

/-- The calls that are made while blocks leave a store. -/
structure DropLog (s s' : WriteBack cfg.Block cfg.Data (W × List (MemCmd × MdAddr))) : Prop where
  writes : ∀ b : cfg.Block, s'.world.2.count (.write, b.1) =
    if s.blocks b ≠ none ∧ s'.blocks b = none then s.owed b else 0
  reads : ∀ b : cfg.Block, s'.world.2.count (.read, b.1) = 0
  aligned : ∀ p ∈ s'.world.2, cfg.baddr p.2 = p.2
  writebacks : s'.writebacks =
    s.writebacks + s'.world.2.countP (fun p => p.1 = .write)

theorem dropLog {s s' : WriteBack cfg.Block cfg.Data (W × List (MemCmd × MdAddr))}
    (h : WriteBack.Drops E.logged.bus s s') (hlog : s.world.2 = []) : DropLog s s' := by
  refine ⟨fun b => ?_, fun b => ?_, fun p hp => ?_, ?_⟩
  · have hw := h.writes_add_owed (counts_writes E b)
    rw [hlog, List.count_nil, Nat.zero_add] at hw
    rcases h.blocks b with hb | hb
    · rw [WriteBack.owed_congr hb] at hw
      have hn : ¬ (s.blocks b ≠ none ∧ s'.blocks b = none) := fun hn => hn.1 (hb ▸ hn.2)
      rw [if_neg hn]
      omega
    · rw [WriteBack.owed_of_none hb, Nat.add_zero] at hw
      by_cases hs : s.blocks b = none
      · rw [if_neg fun hn => hn.1 hs, hw, WriteBack.owed_of_none hs]
      · rw [if_pos ⟨hs, hb⟩, hw]
  · rw [h.of_zero (counts_reads E b), hlog, List.count_nil]
  · have hz := h.of_zero (counts_misaligned (E := E))
    rw [hlog, List.countP_nil, List.countP_eq_zero] at hz
    simpa using hz p hp
  · have hw := h.writebacks (counts_all (E := E))
    rw [hlog, List.countP_nil] at hw
    omega

/-- A block that a miss drops is the one of its address. -/
theorem leaves_eq {s s' : WriteBack cfg.Block cfg.Data W} {addr : MdAddr}
    (h : Evicts E s s' addr) {b : cfg.Block} (hb : s.blocks b ≠ none) (hb' : s'.blocks b = none) :
    addr = b := by
  rcases h with _ | ⟨now, v, hv⟩
  · exact absurd hb' hb
  · rw [WriteBack.drop_blocks] at hb'
    by_cases hbv : b = v
    · rw [hbv]
    · exact absurd ((Function.update_of_ne hbv _ _).symm.trans hb') hb

/-! ### One call -/

section

variable {op : Op} {a : Answer} {st st' : WriteBack cfg.Block cfg.Data W}

/-- **A block is dirty** if it was, or a write access hit or filled it. -/
theorem StoreStep.owed (h : StoreStep E st op a st') (b : cfg.Block) :
    st'.owed b = if st'.blocks b = none then 0 else if op.writes b then 1 else st.owed b := by
  -- a block that is left alone, or leaves
  have hsame : op.writes b = false → (st'.blocks b = st.blocks b ∨ st'.blocks b = none) →
      st'.owed b = if st'.blocks b = none then 0 else if op.writes b then 1 else st.owed b := by
    intro hw hb
    rcases hb with hb | hb
    · rw [WriteBack.owed_congr hb, hw]
      by_cases hn : st.blocks b = none
      · rw [hb, if_pos hn, WriteBack.owed_of_none hn]
      · rw [hb, if_neg hn, if_neg (by decide)]
    · rw [if_pos hb, WriteBack.owed_of_none hb]
  cases h with
  | @hit req r e hok he hbuf hrepl =>
    by_cases hb : b = cfg.block req.addr
    · subst hb
      have hself : (st.touch (cfg.block req.addr) req.touch).blocks (cfg.block req.addr) =
          some (req.touch e) := by
        rw [WriteBack.touch_blocks_self, he]
        rfl
      have hdirty : (req.touch e).dirty = if req.cmd = .write then true else e.dirty := rfl
      rw [WriteBack.owed_of_some hself, hself, if_neg (Option.some_ne_none _),
        WriteBack.owed_of_some he, hdirty, Op.writes_block]
      by_cases hc : req.cmd = .write <;> simp [hc]
    · exact hsame (Op.writes_of_ne hb) (Or.inl (WriteBack.touch_blocks_ne hb _))
  | @miss req r w st₁ now old hok hn hw hev hbuf =>
    by_cases hb : b = cfg.block req.addr
    · subst hb
      have hdirty : ∀ data : cfg.Data, (req.enter data).dirty = decide (req.cmd = .write) :=
        fun _ => rfl
      rw [WriteBack.owed_of_none hn,
        WriteBack.owed_of_some (WriteBack.fill_blocks_self old req.enter), hdirty,
        WriteBack.fill_blocks_self, if_neg (Option.some_ne_none _), Op.writes_block]
    · refine hsame (Op.writes_of_ne hb) ?_
      rw [WriteBack.fill_blocks_ne hb]
      exact hev.drops.blocks b
  | probe addr f => exact hsame rfl (Or.inl rfl)
  | flush hd hn => exact hsame rfl (hd.blocks b)
  | flushAddr addr now lat t => exact hsame rfl (((WriteBack.Drops.refl st).drop t _).blocks b)

end

/-- The account of a call, read off the store. -/
structure StoreAccount (st : WriteBack cfg.Block cfg.Data (W × List (MemCmd × MdAddr)))
    (a : Answer) (st' : WriteBack cfg.Block cfg.Data (W × List (MemCmd × MdAddr))) : Prop where
  writes : ∀ b : cfg.Block, st'.world.2.count (.write, b.1) =
    if st.blocks b ≠ none ∧ st'.blocks b = none then st.owed b else 0
  reads : ∀ b : cfg.Block, st'.world.2.count (.read, b.1) =
    if st.blocks b = none ∧ st'.blocks b ≠ none then 1 else 0
  aligned : ∀ p ∈ st'.world.2, cfg.baddr p.2 = p.2
  writebacks : st'.writebacks =
    st.writebacks + st'.world.2.countP (fun p => p.1 = .write)
  replAddr : ∀ (r : Reply) (b : cfg.Block), a = .reply r → st.blocks b ≠ none →
    st'.blocks b = none → r.replAddr = b

section accounts

variable {st st₁ : WriteBack cfg.Block cfg.Data (W × List (MemCmd × MdAddr))} {a : Answer}

/-- A call that lets blocks leave, and says which. -/
theorem account_drops (hd : WriteBack.Drops E.logged.bus st st₁) (hlog : st.world.2 = [])
    (hr : ∀ (r : Reply) (b : cfg.Block), a = .reply r → st.blocks b ≠ none →
      st₁.blocks b = none → r.replAddr = b) : StoreAccount st a st₁ := by
  obtain ⟨hw, hrd, ha, hwb⟩ := dropLog hd hlog
  refine ⟨hw, fun b => ?_, ha, hwb, hr⟩
  rw [hrd, if_neg]
  rintro ⟨hn, hn'⟩
  rcases hd.blocks b with hb | hb
  · exact hn' (hb.trans hn)
  · exact hn' hb

/-- A call that changes a block which stays. -/
theorem account_touch (hlog : st.world.2 = []) (b : cfg.Block)
    (f : Entry cfg.Data → Entry cfg.Data) : StoreAccount st a (st.touch b f) := by
  have hnone : ∀ b', (st.touch b f).blocks b' = none ↔ st.blocks b' = none := by
    intro b'
    by_cases hb : b' = b
    · rw [hb, WriteBack.touch_blocks_self, Option.map_eq_none_iff]
    · rw [WriteBack.touch_blocks_ne hb]
  have hworld : (st.touch b f).world.2 = [] := hlog
  refine ⟨fun b' => ?_, fun b' => ?_, ?_, ?_, fun _ b' _ hb hb' => absurd ((hnone b').mp hb') hb⟩
  · rw [hworld, if_neg fun h => h.1 ((hnone b').mp h.2), List.count_nil]
  · rw [hworld, if_neg fun h => h.2 ((hnone b').mpr h.1), List.count_nil]
  · rw [hworld]
    exact fun p hp => absurd hp List.not_mem_nil
  · rw [hworld, List.countP_nil]
    exact (add_zero _).symm

/-- A call that fills a block, after at most one other has left. -/
theorem account_fill {w : W × List (MemCmd × MdAddr)} {r : Reply} {b : cfg.Block}
    (hlog : w.2 = []) (hn : st.blocks b = none)
    (hev : Evicts E.logged { st with world := w } st₁ r.replAddr) (now : ℤ) (old : cfg.Data)
    (f : cfg.Data → Entry cfg.Data) :
    StoreAccount st (.reply r) (st₁.fill E.logged.bus now b old f) := by
  obtain ⟨hwr, hrd, ha, hwb⟩ := dropLog (s := { st with world := w }) hev.drops hlog
  have hself : (st₁.fill E.logged.bus now b old f).blocks b ≠ none := by
    rw [WriteBack.fill_blocks_self]
    simp
  refine ⟨fun b' => ?_, fun b' => ?_, ?_, ?_, fun r' b' hr hb hb' => ?_⟩
  · rw [WriteBack.fill_reads (counts_writes E b'), hwr, Nat.add_zero]
    by_cases hb : b' = b
    · rw [if_neg fun h => h.1 (hb ▸ hn), if_neg fun h => h.1 (hb ▸ hn)]
    · rw [WriteBack.fill_blocks_ne hb]
      rfl
  · rw [WriteBack.fill_reads (counts_reads E b'), hrd, Nat.zero_add]
    by_cases hb : b' = b
    · rw [if_pos hb.symm, hb, if_pos ⟨hn, hself⟩]
    · rw [if_neg (Ne.symm hb), WriteBack.fill_blocks_ne hb, if_neg]
      rintro ⟨hnb, hb'⟩
      rcases hev.drops.blocks b' with h | h
      · exact hb' (h.trans hnb)
      · exact hb' h
  · have hz := WriteBack.fill_reads (counts_misaligned (E := E)) (s := st₁) (t := now) (b := b)
      old f
    have hz₁ : st₁.world.2.countP (fun p => cfg.baddr p.2 ≠ p.2) = 0 :=
      List.countP_eq_zero.mpr fun p hp => by simpa using ha p hp
    rw [hz₁, List.countP_eq_zero] at hz
    intro p hp
    simpa using hz p hp
  · rw [WriteBack.fill_reads (counts_all (E := E)), Nat.add_zero]
    exact hwb
  · -- what has left is another block, and the reply names it
    have hne : b' ≠ b := fun h => hb (h ▸ hn)
    rw [WriteBack.fill_blocks_ne hne] at hb'
    obtain rfl := Answer.reply.inj hr
    exact leaves_eq hev hb hb'

end accounts

theorem StoreStep.account {op : Op} {a : Answer}
    {st st' : WriteBack cfg.Block cfg.Data (W × List (MemCmd × MdAddr))}
    (h : StoreStep E.logged st op a st') (hlog : st.world.2 = []) : StoreAccount st a st' := by
  cases h with
  | hit hok he hbuf hrepl => exact account_touch hlog _ _
  | miss hok hn hw hev hbuf =>
    refine account_fill ?_ hn hev _ _ _
    rcases hw with rfl | rfl
    · exact hlog
    · exact hlog
  | probe addr f => exact account_drops (E := E) (WriteBack.Drops.refl st) hlog (by simp)
  | flush hd hn => exact account_drops hd hlog (by simp)
  | flushAddr addr now lat t =>
    exact account_drops ((WriteBack.Drops.refl st).drop t _) hlog (by simp)

/-! ### Runs -/

/-- A cache under observation holds the blocks of a store, and its dirty blocks are those that
were written to. -/
def Watches (s : Watched W cfg) (st : WriteBack cfg.Block cfg.Data (W × List (MemCmd × MdAddr))) :
    Prop :=
  Stores s.cache (s.world, []) st ∧ ∀ b, st.owed b = if s.written b then 1 else 0

theorem Stores.probe_eq_true {c : CacheT cfg} {w : W} {st : WriteBack cfg.Block cfg.Data W}
    (h : Stores c w st) (b : cfg.Block) : c.probe b = true ↔ st.blocks b ≠ none := by
  rw [h.probe, Config.block_coe, Option.isSome_iff_ne_none]

theorem Stores.probe_eq_false {c : CacheT cfg} {w : W} {st : WriteBack cfg.Block cfg.Data W}
    (h : Stores c w st) (b : cfg.Block) : c.probe b = false ↔ st.blocks b = none := by
  rw [h.probe, Config.block_coe, Option.isSome_eq_false_iff, Option.isNone_iff_eq_none]

theorem Watches.step (hfit : cfg.nsets * cfg.bsize < 2 ^ 31) {s s' : Watched W cfg}
    (h : ∃ st, Watches s st) {op : Op} (hop : op.OutsideZero cfg)
    {ans : Answer × List (MemCmd × MdAddr)} (hs : watch E s op = some (ans, s')) :
    Accounted s ans s' ∧ ∃ st, Watches s' st := by
  obtain ⟨st, hst, howed⟩ := h
  obtain ⟨⟨a, c', w', log⟩, hstep, heq⟩ := Option.map_eq_some_iff.mp hs
  obtain ⟨rfl, rfl⟩ := Prod.mk.inj heq
  obtain ⟨st', hst', hs'⟩ := hst.step hfit hop hstep
  have hacc := hst'.account (by rw [hst.world])
  have hworld : st'.world = (w', log) := hs'.world
  have hw := hacc.writes
  have hr := hacc.reads
  have ha := hacc.aligned
  have hc := hacc.writebacks
  rw [hworld] at hw hr ha hc
  refine ⟨⟨fun b => ?_, fun b => ?_, ha, ?_, fun r b hrep hb hb' => ?_⟩,
    { st' with world := (w', []) }, hs'.with_world _, fun b => ?_⟩
  · dsimp only at hw ⊢
    rw [hw, howed]
    simp only [hst.probe_eq_true, hs'.probe_eq_false]
    split_ifs <;> simp_all
  · dsimp only at hr ⊢
    rw [hr]
    simp only [hst.probe_eq_false, hs'.probe_eq_true]
  · have hwb := hst.writebacks
    dsimp only at hc hwb ⊢
    rw [hs'.writebacks, hc, hwb]
  · exact hacc.replAddr r b hrep ((hst.probe_eq_true b).mp hb) ((hs'.probe_eq_false b).mp hb')
  · have ho := hst'.owed b
    rw [howed] at ho
    show st'.owed b = _
    rw [ho]
    dsimp only
    -- a block owes a write-back if it was written since it was filled
    by_cases hn : st'.blocks b = none
    · have hp := (hs'.probe_eq_false b).mpr hn
      simp [hn, hp]
    · have hp := (hs'.probe_eq_true b).mpr hn
      simp only [hn, hp, if_false, Bool.true_and]
      cases op.writes b <;> simp

/-- **Every dirty block is written back exactly once, to its own address.** -/
theorem accounted_run {c : CacheT cfg} (hc : cacheCreate cfg = some c) (E : Extern W cfg) (w : W)
    (hfit : cfg.nsets * cfg.bsize < 2 ^ 31) {ops : List Op}
    (hops : ∀ op ∈ ops, op.OutsideZero cfg) :
    EveryStep (watch E) (fun s _ ans s' => Accounted s ans s') ⟨c, w, fun _ => false⟩ ops := by
  obtain ⟨st, hst, hn⟩ := Stores.create hc (w, ([] : List (MemCmd × MdAddr)))
  have hinit : ∃ st, Watches (⟨c, w, fun _ => false⟩ : Watched W cfg) st :=
    ⟨st, hst, fun b => WriteBack.owed_of_none (hn b)⟩
  exact EveryStep.of_invariant (fun s op ans s' h hop hs => Watches.step hfit h hop hs) hops hinit

/-- The calls of the block access function in each step of the sample run. Block 8 is written when
the read of byte 40 takes its place, block 24 when it is flushed alone; both are clean when they are
read again, and neither is written by the flush at the end. -/
theorem accounted_sample :
    ∃ c, cacheCreate sampleConfig = some c ∧
      (run (watch (journal _)) ⟨c, [], fun _ => false⟩ sampleOps).map
          (fun r => r.1.map Prod.snd) =
        some [[(.read, 8)], [], [(.read, 24)], [(.write, 8), (.read, 40)], [(.write, 24)],
          [(.read, 24)], [(.read, 8)], []] ∧
      EveryStep (watch (journal _)) (fun s _ ans s' => Accounted s ans s') ⟨c, [], fun _ => false⟩
        sampleOps := by
  let c := (cacheCreate sampleConfig).get (by decide)
  have hc : cacheCreate sampleConfig = some c := (Option.some_get _).symm
  exact ⟨c, hc, by decide +kernel, accounted_run hc (journal _) [] (by decide) (by decide)⟩

end AdvancedArchitecture.Cache
