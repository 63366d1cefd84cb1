import AdvancedArchitecture.Cache.Victims

/-!
# Lookups

A cache of more than four blocks to a set looks its blocks up along hash chains. In every
reachable cache the chains hold the blocks of the set, each once and on the chain of its tag, and
the lookup finds what a search along the way list would (`hash_lookup_agrees`).

The lookup is skipped for an access to the tag and set of the last hit. That nothing has hit last
is encoded by the tag and set of block 0, so that an access to block 0 is taken for one to the last
block when there is none (`fast_hit_safe_iff`).
-/

namespace AdvancedArchitecture.Cache

open CacheSet

variable {W : Type} {cfg : Config} {E : Extern W cfg}

/-! ### Hash chains -/

/-- The search for a tag along its hash chain. -/
def CacheSet.searchChain (s : CacheSet cfg) (tag : MdAddr) : Option ℕ :=
  searchFrom s.hashNext (fun i => (s.line i).tag = tag ∧ (s.line i).valid) cfg.assoc
    (s.hash.get (cfg.hash tag))

/-- The search for a tag along the way list. -/
def CacheSet.searchWays (s : CacheSet cfg) (tag : MdAddr) : Option ℕ :=
  searchFrom s.wayNext (fun i => (s.line i).tag = tag ∧ (s.line i).valid) cfg.assoc s.wayHead

theorem hsize_ne_zero (hassoc : 4 < cfg.assoc) : cfg.hsize ≠ 0 := by
  rw [Config.hsize, if_pos hassoc, Nat.shiftRight_eq_div_pow]
  have hpos := Nat.div_pos hassoc.le (show 0 < 2 ^ 2 by decide)
  omega

theorem CacheSet.lookup_eq_searchChain (hh : cfg.hsize ≠ 0) (s : CacheSet cfg) (tag : MdAddr) :
    s.lookup tag = s.searchChain tag := if_pos hh

/-- The search along the way list finds the block that the set-associative cache has. -/
theorem SetRefines.searchWays {s : CacheSet cfg} {t : WaySet cfg} (h : SetRefines s t)
    (tag : MdAddr) : s.searchWays tag = t.lookup tag := by
  refine (searchFrom_eq h.ways.fwd _ (SetRel.length_le h)).trans ?_
  refine List.find?_congr fun i hi => ?_
  rw [h.line i hi]
  rfl

/-- The victim of a set is on a hash chain, and can be unlinked. -/
theorem SetRefines.unlink_victim {s s' : CacheSet cfg} {t : WaySet cfg} (h : SetRefines s t)
    (hinv : t.Inv) (hh : cfg.hsize ≠ 0) {regs regs' : Regs} {w w' : W} {repl : ℕ}
    (hsel : s.selectVictim E regs w = some (repl, s', regs', w')) :
    ∃ s'', s'.unlinkHtabEnt repl = some s'' := by
  have hrel := h.selectVictim E hinv regs w
  rw [hsel] at hrel
  rcases ht : t.selectVictim E regs w with _ | ⟨i, t', p⟩
  · rw [ht] at hrel
    exact absurd hrel (by rintro ⟨⟩)
  · rw [ht] at hrel
    obtain ⟨⟨rfl, hr, -⟩⟩ := hrel
    have hmem := (selectVictim_spec hinv ht).1.mem_order
    obtain ⟨s'', hs'', -, -⟩ := unlinkHtabEnt_spec (hr.chains hh) hh (fun j hj => hj)
      ((hr.mem _).mp hmem)
    exact ⟨s'', hs''⟩

/-- **Hash lookups are linear lookups.** In every reachable cache of more than four blocks to a
set, the hash chains of each set hold its blocks, each once and on the chain of its tag; no victim
is missing from its chain; and a lookup along the chain finds the block that the search along the
way list finds. -/
theorem hash_lookup_agrees (hassoc : 4 < cfg.assoc) {c₀ c : CacheT cfg}
    (hc : cacheCreate cfg = some c₀) (E : Extern W cfg) {w₀ w : W} {ops : List Op}
    {answers : List Answer} (hr : run (CacheT.step E) (c₀, w₀) ops = some (answers, (c, w))) :
    ∀ i < cfg.nsets, (c.sets.get i).Chains (fun j => j < cfg.assoc) ∧
      (∀ regs w repl s regs' w', (c.sets.get i).selectVictim E regs w = some (repl, s, regs', w') →
        ∃ s', s.unlinkHtabEnt repl = some s') ∧
      ∀ tag, (c.sets.get i).lookup tag = (c.sets.get i).searchChain tag ∧
        (c.sets.get i).searchChain tag = (c.sets.get i).searchWays tag := by
  obtain ⟨a, h⟩ := (refines_create hc).of_run hr
  have hh := hsize_ne_zero hassoc
  intro i hi
  have hs := h.sets i hi
  have hinv := h.inv i hi
  refine ⟨hs.chains hh, fun regs w repl s regs' w' hsel => hs.unlink_victim hinv hh hsel,
    fun tag => ⟨lookup_eq_searchChain hh _ tag, ?_⟩⟩
  rw [← lookup_eq_searchChain hh, hs.lookup hinv.unique, hs.searchWays]

/-- One set of eight blocks of eight bytes, which has two hash chains. -/
def hashConfig : Config := Config.ofWordLogs 0 3 .fifo

/-- After four misses, a hit and a flush. -/
theorem hash_lookup_sample : ∃ c₀ answers c w, cacheCreate hashConfig = some c₀ ∧
    run (CacheT.step (journal _)) (c₀, []) [.access (readAt 8), .access (readAt 16),
      .access (readAt 32), .access (readAt 8), .access (readAt 48), .flushAddr 16 5] =
        some (answers, (c, w)) ∧
    (c.sets.get 0).Chains (fun j => j < 8) ∧
      (c.sets.get 0).lookup (hashConfig.tag 32) =
        (c.sets.get 0).searchWays (hashConfig.tag 32) := by
  let c₀ := (cacheCreate hashConfig).get (by decide)
  have hc : cacheCreate hashConfig = some c₀ := (Option.some_get _).symm
  have hs : (run (CacheT.step (journal _)) (c₀, []) [.access (readAt 8), .access (readAt 16),
      .access (readAt 32), .access (readAt 8), .access (readAt 48), .flushAddr 16 5]).isSome =
        true := by decide +kernel
  obtain ⟨⟨answers, c, w⟩, hr⟩ := Option.isSome_iff_exists.mp hs
  obtain ⟨hchains, -, hlookup⟩ := hash_lookup_agrees (by decide) hc (journal _) hr 0 (by decide)
  obtain ⟨hchain, hways⟩ := hlookup (hashConfig.tag 32)
  exact ⟨c₀, answers, c, w, hc, hr, hchains, hchain.trans hways⟩

/-! ### The last block -/

/-- An access to `addr` that finds the last tag and set finds the last block, and it is the valid
block of the address. -/
def CacheT.FastSafe (c : CacheT cfg) (addr : MdAddr) : Prop :=
  cfg.tagset addr = c.lastTagset → ∃ blk < cfg.assoc,
    c.lastBlk = some ((cfg.set addr).toNat, blk) ∧
      ((c.sets.get (cfg.set addr).toNat).line blk).tag = cfg.tag addr ∧
      ((c.sets.get (cfg.set addr).toNat).line blk).valid = true

/-- A cache that remembers whether the last call was an access that hit, but for probes and for
flushes of addresses that are not held. -/
structure Warmed (W : Type) (cfg : Config) where
  cache : CacheT cfg
  world : W
  warm : Bool

/-- One call, with what is remembered of it. -/
def warmStep (E : Extern W cfg) (s : Warmed W cfg) (op : Op) : Option (Answer × Warmed W cfg) :=
  (CacheT.step E (s.cache, s.world) op).map fun r =>
    (r.1,
      { cache := r.2.1
        world := r.2.2
        warm := match op with
          | .access req => s.cache.probe req.addr
          | .probe _ => s.warm
          | .flush _ => false
          | .flushAddr addr _ => if s.cache.probe addr then false else s.warm })

section lastBlk

variable {c c' : CacheT cfg} {w w' : W} {r : Reply} {req : Request}

theorem CacheT.lastBlk_cacheHit {blk : ℕ} (h : c.cacheHit req blk = some (r, c')) :
    c'.lastBlk.isSome = true := by
  rw [CacheT.cacheHit] at h
  obtain ⟨s, -, hs⟩ := Option.bind_eq_some_iff.mp h
  obtain ⟨-, rfl⟩ := Prod.mk.inj (Option.some.inj hs)
  rfl

theorem CacheT.lastBlk_miss (h : c.miss E req w = some (r, c', w')) : c'.lastBlk = none := by
  rw [CacheT.miss] at h
  obtain ⟨p, -, hp⟩ := Option.bind_eq_some_iff.mp h
  obtain ⟨s, -, hs⟩ := Option.bind_eq_some_iff.mp hp
  obtain ⟨-, hs⟩ := Prod.mk.inj (Option.some.inj hs)
  obtain ⟨rfl, -⟩ := Prod.mk.inj hs
  rfl

theorem CacheT.lastBlk_flush (c : CacheT cfg) (now : ℤ) (w : W) :
    (c.flush E now w).2.1.lastBlk = none :=
  forRange_induction (flushSet E now) (fun _ p => p.2.1.lastBlk = none) rfl fun _ _ _ h => h

theorem CacheT.lastBlk_flushAddr {addr : MdAddr} {now lat : ℤ}
    (h : c.flushAddr E addr now w = some (lat, c', w')) :
    c'.lastBlk = if c.probe addr then none else c.lastBlk := by
  rw [CacheT.flushAddr] at h
  rw [CacheT.probe]
  rcases hl : (c.sets.get (cfg.set addr).toNat).lookup (cfg.tag addr) with _ | blk
  · rw [hl] at h
    obtain ⟨-, h⟩ := Prod.mk.inj (Option.some.inj h)
    obtain ⟨rfl, -⟩ := Prod.mk.inj h
    rfl
  · rw [hl] at h
    obtain ⟨s, -, hs⟩ := Option.bind_eq_some_iff.mp h
    obtain ⟨-, hs⟩ := Prod.mk.inj (Option.some.inj hs)
    obtain ⟨rfl, -⟩ := Prod.mk.inj hs
    rfl

/-- An access leaves a last block if and only if it hits. -/
theorem Refines.lastBlk_access {a : WayCache cfg} (h : Refines c a)
    (hr : c.access E req w = some (r, c', w')) : c'.lastBlk.isSome = c.probe req.addr := by
  rw [CacheT.access] at hr
  split_ifs at hr with hok ht
  · rcases hblk : c.lastBlk with _ | ⟨set, blk⟩
    · rw [hblk] at hr
      exact absurd hr (by simp)
    · rw [hblk] at hr
      simp only [Option.some.injEq, Prod.mk.injEq] at hr
      obtain ⟨-, rfl, -⟩ := hr
      obtain ⟨i, -, hrem⟩ := h.remembered_of_lastBlk (by rw [hblk]; rfl) ht
      have hl := (h.inv _ (Config.set_lt req.addr)).lookup_eq_some.mpr ⟨hrem.mem, hrem.holds⟩
      exact (h.probe_of_lookup hl).symm
  · rw [CacheT.probe]
    rcases hl : (c.sets.get (cfg.set req.addr).toNat).lookup (cfg.tag req.addr) with _ | blk
    · rw [hl] at hr
      rw [CacheT.lastBlk_miss hr]
      rfl
    · rw [hl] at hr
      obtain ⟨⟨r', c''⟩, hhit, heq⟩ := Option.map_eq_some_iff.mp hr
      simp only [Prod.mk.injEq] at heq
      obtain ⟨-, rfl, -⟩ := heq
      exact CacheT.lastBlk_cacheHit hhit

end lastBlk

/-- The set-associative cache of a cache that remembers its last call. -/
structure Warmed.Rel (s : Warmed W cfg) (a : WayCache cfg) : Prop where
  refines : Refines s.cache a
  warm : s.cache.lastBlk.isSome = s.warm

/-- **Every call**: there is a last block if and only if the last call was a hit. -/
theorem Warmed.Rel.step {s s' : Warmed W cfg} {a : WayCache cfg} (h : s.Rel a) {op : Op}
    {ans : Answer} (hs : warmStep E s op = some (ans, s')) : ∃ a', s'.Rel a' := by
  obtain ⟨⟨ans', c', w'⟩, hstep, heq⟩ := Option.map_eq_some_iff.mp hs
  obtain ⟨-, rfl⟩ := Prod.mk.inj heq
  obtain ⟨a', -, h'⟩ := h.refines.step_of_eq_some E hstep
  refine ⟨a', h', ?_⟩
  cases op with
  | access req =>
    obtain ⟨r, -, hacc⟩ := CacheT.step_access hstep
    exact h.refines.lastBlk_access hacc
  | probe addr =>
    obtain ⟨-, heq'⟩ := Prod.mk.inj (Option.some.inj hstep)
    obtain ⟨rfl, -⟩ := Prod.mk.inj heq'
    exact h.warm
  | flush now =>
    obtain ⟨-, heq'⟩ := Prod.mk.inj (Option.some.inj hstep)
    have hc : (s.cache.flush E now s.world).2.1 = c' := congrArg Prod.fst heq'
    dsimp only
    rw [← hc, CacheT.lastBlk_flush]
    rfl
  | flushAddr addr now =>
    obtain ⟨⟨lat, p⟩, hf, hp⟩ := Option.map_eq_some_iff.mp hstep
    simp only [Prod.mk.injEq] at hp
    obtain ⟨-, rfl⟩ := hp
    dsimp only
    rw [CacheT.lastBlk_flushAddr hf]
    split_ifs
    · rfl
    · exact h.warm

/-- **The fast hit is safe** in a reachable cache if and only if the address is not in block 0 or
the last call was an access that hit. -/
theorem fast_hit_safe_iff {c₀ : CacheT cfg} (hc : cacheCreate cfg = some c₀) (E : Extern W cfg)
    {w₀ : W} {ops : List Op} {answers : List Answer} {s : Warmed W cfg}
    (hr : run (warmStep E) ⟨c₀, w₀, false⟩ ops = some (answers, s)) (addr : MdAddr) :
    s.cache.FastSafe addr ↔ cfg.baddr addr ≠ 0 ∨ s.warm = true := by
  have hlast : c₀.lastBlk = none := by
    rw [cacheCreate] at hc
    split_ifs at hc
    obtain rfl := Option.some.inj hc
    rfl
  obtain ⟨a, h⟩ := run_invariant (I := fun s : Warmed W cfg => ∃ a, s.Rel a) _
    (fun s op ans s' h hs => h.elim fun a h => h.step hs)
    ⟨_, refines_create hc, by rw [hlast]; rfl⟩ hr
  have hblock : ∀ blk, Remembered a addr blk → blk < cfg.assoc ∧
      ((s.cache.sets.get (cfg.set addr).toNat).line blk).tag = cfg.tag addr ∧
      ((s.cache.sets.get (cfg.set addr).toNat).line blk).valid = true := by
    intro blk hrem
    rw [(h.refines.sets _ (Config.set_lt addr)).line blk hrem.mem]
    exact ⟨((h.refines.inv _ (Config.set_lt addr)).mem blk).mp hrem.mem, hrem.holds⟩
  constructor
  · intro hsafe
    by_contra hcold
    push Not at hcold
    obtain ⟨hz, hcold⟩ := hcold
    -- nothing has hit last, which is what block 0 looks like
    have hnone : s.cache.lastBlk = none := by
      rw [← h.warm] at hcold
      simpa using hcold
    have htag : s.cache.lastTagset = 0 := by
      rcases h.refines.last with ⟨-, ht⟩ | ⟨_, _, hblk, -⟩
      · exact ht
      · exact absurd (hnone.symm.trans hblk) (by simp)
    obtain ⟨blk, -, hblk, -⟩ := hsafe (htag ▸ hz)
    exact absurd (hnone.symm.trans hblk) (by simp)
  · intro hcond ht
    have hlastBlk : s.cache.lastBlk.isSome = true := by
      rcases hcond with hz | hwarm
      · exact h.refines.lastBlk_isSome hz ht
      · rw [h.warm, hwarm]
    obtain ⟨blk, hblk, hrem⟩ := h.refines.remembered_of_lastBlk hlastBlk ht
    exact ⟨blk, (hblock blk hrem).1, hblk, (hblock blk hrem).2⟩

/-- Between two hits of block 8 block 0 is filled, and then it is hit. -/
theorem fast_hit_safe_sample : ∃ c₀ answers s, cacheCreate hashConfig = some c₀ ∧
    run (warmStep (journal _)) ⟨c₀, [], false⟩ [.access (readAt 8), .access (readAt 8),
      .access (readAt 0), .access (readAt 8), .access (readAt 0)] = some (answers, s) ∧
    s.cache.FastSafe 0 := by
  let c₀ := (cacheCreate hashConfig).get (by decide)
  have hc : cacheCreate hashConfig = some c₀ := (Option.some_get _).symm
  have hs : (run (warmStep (journal _)) ⟨c₀, [], false⟩ [.access (readAt 8), .access (readAt 8),
      .access (readAt 0), .access (readAt 8), .access (readAt 0)]).map (fun r => r.2.warm) =
        some true := by decide +kernel
  obtain ⟨⟨answers, s⟩, hr, hwarm⟩ := Option.map_eq_some_iff.mp hs
  exact ⟨c₀, answers, s, hc, hr, (fast_hit_safe_iff hc (journal _) hr 0).mpr (Or.inr hwarm)⟩

/-- The first access to a new cache, if it is to block 0, is a fast hit on no block. -/
theorem fast_hit_null : ∃ c₀, cacheCreate hashConfig = some c₀ ∧
    (readAt 0).ok hashConfig = true ∧ hashConfig.tagset 0 = c₀.lastTagset ∧ c₀.lastBlk = none ∧
    ¬ c₀.FastSafe 0 := by
  let c₀ := (cacheCreate hashConfig).get (by decide)
  have hc : cacheCreate hashConfig = some c₀ := (Option.some_get _).symm
  have htag : hashConfig.tagset 0 = c₀.lastTagset := by decide
  have hblk : c₀.lastBlk = none := by decide
  refine ⟨c₀, hc, by decide, htag, hblk, fun hsafe => ?_⟩
  obtain ⟨blk, -, hsome, -⟩ := hsafe htag
  exact absurd (hblk.symm.trans hsome) (by simp)

end AdvancedArchitecture.Cache
