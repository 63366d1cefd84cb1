import AdvancedArchitecture.Cache.Occupancy

/-!
# The fast hit

`cache_access` serves an access to the block of the last hit without a lookup, a move in the
way list or an update of the replacement bits. In every reachable cache this is what the slow
path would do (`fast_hit_eq_slow_hit`): the remembered block is the one a lookup finds, it is
the most recent one under `LRU`, and its bits are those that a hit gives it.
-/

namespace AdvancedArchitecture.Cache

open CacheSet

variable {W : Type} {cfg : Config} {E : Extern W cfg}

/-- `blk` is the one valid block of the set that has the tag. -/
def CacheSet.OnlyHolder (s : CacheSet cfg) (tag : MdAddr) (blk : ℕ) : Prop :=
  blk < cfg.assoc ∧ ∀ j < cfg.assoc, (s.line j).tag = tag ∧ (s.line j).valid = true ↔ j = blk

/-! ### The slow path on the remembered block -/

/-- The first block of the way list has no predecessor. -/
theorem SetRel.wayPrev_of_head? {live : ℕ → Prop} {s : CacheSet cfg} {t : WaySet cfg} {i : ℕ}
    (h : SetRel live s t) (hi : t.order.head? = some i) : s.wayPrev i = none := by
  obtain ⟨l, hl⟩ := List.head?_eq_some_iff.mp hi
  have hw := h.ways
  rw [hl, ← List.nil_append (i :: l)] at hw
  exact hw.prev_eq

/-- A line rewritten twice. -/
theorem CacheSet.modifyLine_modifyLine (s : CacheSet cfg) {i : ℕ} (hi : i < cfg.assoc)
    (f g : Line cfg → Line cfg) :
    (s.modifyLine i f).modifyLine i g = s.modifyLine i fun l => g (f l) := by
  have hblks : (s.modifyLine i f).blks.modify i (fun b => { b with toLine := g b.toLine }) =
      s.blks.modify i fun b => { b with toLine := g (f b.toLine) } := by
    refine Table.ext_get fun j _ => ?_
    by_cases hji : j = i
    · subst hji
      rw [Table.get_modify_self _ hi, Table.get_modify_self _ hi, modifyLine, modifyBlk]
      dsimp only
      rw [Table.get_modify_self _ hi]
    · rw [Table.get_modify_ne _ hji, Table.get_modify_ne _ hji, modifyLine, modifyBlk]
      dsimp only
      rw [Table.get_modify_ne _ hji]
  rw [modifyLine, modifyBlk, hblks]
  rfl

/-- A hit leaves the bits of a promoted line alone. -/
theorem promote_hitLine {line : Line cfg} (h : promote line = line) (req : Request) :
    promote (hitLine line req).2 = (hitLine line req).2 := by
  have hn := congrArg Line.nruBit h
  have hr := congrArg Line.rrpv h
  simp only [promote, hitLine] at hn hr ⊢
  rw [hn, hr]

/-- **The slow path on the remembered block** is the fast one. -/
theorem Refines.cacheHit_eq_cacheFastHit {c : CacheT cfg} {a : WayCache cfg} {req : Request}
    {i : ℕ} (h : Refines c a) (hrem : Remembered a req.addr i) :
    c.cacheHit req i = some (c.cacheFastHit req (cfg.set req.addr).toNat i) := by
  have hs := h.sets _ (Config.set_lt req.addr)
  have hi : i < cfg.assoc := (hs.mem i).mp hrem.mem
  have hline := hs.line i hrem.mem
  -- the block is not moved
  have hreorder : ((c.sets.get (cfg.set req.addr).toNat).modifyLine i fun _ =>
      (hitLine ((c.sets.get (cfg.set req.addr).toNat).line i) req).2).reorder i =
      some ((c.sets.get (cfg.set req.addr).toNat).modifyLine i fun _ =>
        (hitLine ((c.sets.get (cfg.set req.addr).toNat).line i) req).2) := by
    rw [reorder, if_neg]
    rintro ⟨hprev, hp⟩
    rw [wayPrev_modifyLine, SetRel.wayPrev_of_head? hs (hrem.first hp)] at hprev
    exact hprev rfl
  -- and its bits are not changed
  have hpromote := promote_hitLine (hline ▸ hrem.promoted) req
  rw [CacheT.cacheHit, CacheT.cacheFastHit]
  dsimp only
  rw [hreorder, Option.bind_eq_bind, Option.bind_some, modifyLine_modifyLine _ hi,
    hpromote]
  rfl

/-! ### Reachable caches -/

/-- The last block, if there is one, is the block of the addresses of the last tag and set. -/
theorem Refines.remembered_of_lastBlk {c : CacheT cfg} {a : WayCache cfg} {addr : MdAddr}
    (h : Refines c a) (hblk : c.lastBlk.isSome = true) (ht : cfg.tagset addr = c.lastTagset) :
    ∃ blk, c.lastBlk = some ((cfg.set addr).toNat, blk) ∧ Remembered a addr blk := by
  rcases h.last with ⟨hnone, -⟩ | ⟨addr', blk, hlast, hlast', hrem⟩
  · rw [hnone] at hblk
    exact absurd hblk (by decide)
  · obtain ⟨htag, hset⟩ := Config.tag_set_eq_iff.mpr (Config.baddr_eq_iff.mp (ht.trans hlast'))
    refine ⟨blk, by rw [hset, hlast], ?_⟩
    obtain ⟨hm, hh, hp, hf⟩ := hrem
    rw [← hset] at hm hh hp hf
    rw [← htag] at hh
    exact ⟨hm, hh, hp, hf⟩

/-- The last tag and set are those of a last block, unless they are those of block 0. -/
theorem Refines.lastBlk_isSome {c : CacheT cfg} {a : WayCache cfg} {addr : MdAddr}
    (h : Refines c a) (hz : cfg.baddr addr ≠ 0) (ht : cfg.tagset addr = c.lastTagset) :
    c.lastBlk.isSome = true := by
  rcases h.last with ⟨-, hlast⟩ | ⟨_, _, hblk, -⟩
  · exact absurd (ht.trans hlast) hz
  · rw [hblk]
    rfl

/-- The remembered block is the one that a lookup of its address finds. -/
theorem Refines.remembered {c : CacheT cfg} {a : WayCache cfg} {req : Request} (h : Refines c a)
    (hz : cfg.baddr req.addr ≠ 0) (ht : cfg.tagset req.addr = c.lastTagset) :
    ∃ blk, c.lastBlk = some ((cfg.set req.addr).toNat, blk) ∧ Remembered a req.addr blk :=
  h.remembered_of_lastBlk (h.lastBlk_isSome hz ht) ht

theorem Refines.onlyHolder {c : CacheT cfg} {a : WayCache cfg} {addr : MdAddr} {blk : ℕ}
    (h : Refines c a) (hrem : Remembered a addr blk) :
    (c.sets.get (cfg.set addr).toNat).OnlyHolder (cfg.tag addr) blk := by
  have hs := h.sets _ (Config.set_lt addr)
  have hinv := h.inv _ (Config.set_lt addr)
  refine ⟨(hinv.mem blk).mp hrem.mem, fun j hj => ?_⟩
  have hm := (hinv.mem j).mpr hj
  rw [hs.line j hm]
  refine ⟨fun hh => ?_, ?_⟩
  · exact hinv.unique j hm blk hrem.mem hh.2 hrem.holds.2 (hh.1.trans hrem.holds.1.symm)
  · rintro rfl
    exact hrem.holds

/-- An access counts as a hit if its address is held, and as a miss otherwise. -/
theorem Refines.access_counts {c c' : CacheT cfg} {a : WayCache cfg} {req : Request}
    (h : Refines c a) {w w' : W} {r : Reply} (hr : c.access E req w = some (r, c', w')) :
    c'.regs.hits = c.regs.hits + (if c.probe req.addr then 1 else 0) ∧
      c'.regs.misses = c.regs.misses + (if c.probe req.addr then 0 else 1) := by
  obtain ⟨a', ha, hr'⟩ := h.access_of_eq_some E hr
  have hs : WayCache.step E (a, w) (.access req) = some (.reply r, (a', w')) := by
    rw [WayCache.step, ha]
    rfl
  obtain ⟨hhits, hmisses, -⟩ := WayCache.tallied_step h.inv hs
  rw [h.regs, hr'.regs, h.probe, hhits, hmisses, WayCache.hitCount, WayCache.missCount]
  split_ifs <;> exact ⟨rfl, rfl⟩

/-- **The fast hit is the slow hit.** In a reachable cache, an access to the last tag and set
finds the remembered block to be the one valid block with the tag, and the code of the slow hit
on what the lookup finds would leave the same cache and reply the same. A probe tells whether
an access counts as a hit. -/
theorem fast_hit_eq_slow_hit {c₀ c : CacheT cfg} (hc : cacheCreate cfg = some c₀)
    (E : Extern W cfg) {w₀ w : W} {ops : List Op} (hops : ∀ op ∈ ops, op.OutsideZero cfg)
    {answers : List Answer} (hr : run (CacheT.step E) (c₀, w₀) ops = some (answers, (c, w)))
    (req : Request) (hz : cfg.baddr req.addr ≠ 0) :
    (cfg.tagset req.addr = c.lastTagset → ∃ blk,
      c.lastBlk = some ((cfg.set req.addr).toNat, blk) ∧
        (c.sets.get (cfg.set req.addr).toNat).OnlyHolder (cfg.tag req.addr) blk ∧
        (c.sets.get (cfg.set req.addr).toNat).lookup (cfg.tag req.addr) = some blk ∧
        c.cacheHit req blk = some (c.cacheFastHit req (cfg.set req.addr).toNat blk)) ∧
      ∀ r c' w', c.access E req w = some (r, c', w') →
        (c.probe req.addr = true ↔ c'.regs.hits = c.regs.hits + 1) ∧
          (c.probe req.addr = false ↔ c'.regs.misses = c.regs.misses + 1) := by
  obtain ⟨a, -, -, ha, -⟩ := (refines_create hc).run hops hr
  refine ⟨fun ht => ?_, fun r c' w' hacc => ?_⟩
  · obtain ⟨blk, hblk, hrem⟩ := ha.remembered hz ht
    refine ⟨blk, hblk, ha.onlyHolder hrem, ?_, ha.cacheHit_eq_cacheFastHit hrem⟩
    rw [ha.lookup]
    exact (ha.inv _ (Config.set_lt req.addr)).lookup_eq_some.mpr ⟨hrem.mem, hrem.holds⟩
  · obtain ⟨hhits, hmisses⟩ := ha.access_counts hacc
    rw [hhits, hmisses]
    cases c.probe req.addr <;> simp

/-- After two writes to block 8 an access to it is a fast hit. -/
theorem fast_hit_sample : ∃ c₀ answers c w, cacheCreate sampleConfig = some c₀ ∧
    run (CacheT.step (journal _)) (c₀, []) (sampleOps.take 2) = some (answers, (c, w)) ∧
      ∃ blk, c.lastBlk = some ((sampleConfig.set 8).toNat, blk) ∧
        (c.sets.get (sampleConfig.set 8).toNat).OnlyHolder (sampleConfig.tag 8) blk ∧
        c.cacheHit ⟨.read, 8, [0], 1, 0⟩ blk =
          some (c.cacheFastHit ⟨.read, 8, [0], 1, 0⟩ (sampleConfig.set 8).toNat blk) := by
  let c₀ := (cacheCreate sampleConfig).get (by decide)
  have hc : cacheCreate sampleConfig = some c₀ := (Option.some_get _).symm
  have hs : (run (CacheT.step (journal _)) (c₀, []) (sampleOps.take 2)).map
      (fun r => r.2.1.lastTagset) = some (sampleConfig.tagset 8) := by decide +kernel
  obtain ⟨⟨answers, c, w⟩, hr, htag⟩ := Option.map_eq_some_iff.mp hs
  obtain ⟨hfast, -⟩ := fast_hit_eq_slow_hit hc (journal _) (by decide) hr
    ⟨.read, 8, [0], 1, 0⟩ (by decide)
  obtain ⟨blk, hblk, hholder, -, heq⟩ := hfast htag.symm
  exact ⟨c₀, answers, c, w, hc, hr, blk, hblk, hholder, heq⟩

end AdvancedArchitecture.Cache
