import Mathlib.Algebra.BigOperators.Ring.Finset
import Mathlib.Algebra.Order.BigOperators.Group.Finset
import AdvancedArchitecture.Cache.Transparency

/-!
# Occupancy

Every access is counted as a hit or a miss, and the valid blocks are those that misses brought
in and neither replacements nor invalidations took away: the counters of the cache balance
(`Tallied`), and every call keeps the balance, whatever the policy. The account is kept on the
set-associative cache, where a call rewrites one line at a time (`occupied_setLine_of_valid`,
`occupied_setLine_of_not_valid`), and read off `cache.c` at the end (`occupancy_run`).
-/

namespace AdvancedArchitecture.Cache

open CacheSet

variable {W : Type} {cfg : Config} {E : Extern W cfg}

/-! ### Valid blocks -/

/-- The valid blocks of a set. -/
def CacheSet.occupied (s : CacheSet cfg) : Finset ℕ :=
  (Finset.range cfg.assoc).filter fun j => (s.line j).valid = true

/-- The number of valid blocks of the cache. -/
def CacheT.occupancy (c : CacheT cfg) : ℕ :=
  ∑ i ∈ Finset.range cfg.nsets, (c.sets.get i).occupied.card

/-- The number of accesses among some calls. -/
def accesses (ops : List Op) : ℕ :=
  ops.countP fun op => match op with
    | .access _ => true
    | _ => false

namespace WaySet

variable {t : WaySet cfg} {i : ℕ} {line : Line cfg}

/-- The valid blocks of a set. -/
def occupied (t : WaySet cfg) : Finset ℕ :=
  (Finset.range cfg.assoc).filter fun j => (t.lines j).valid = true

theorem mem_occupied {j : ℕ} : j ∈ t.occupied ↔ j < cfg.assoc ∧ (t.lines j).valid = true := by
  rw [occupied, Finset.mem_filter, Finset.mem_range]

theorem occupied_congr {t' : WaySet cfg} (h : ∀ j, (t'.lines j).valid = (t.lines j).valid) :
    t'.occupied = t.occupied := by
  ext j
  rw [mem_occupied, mem_occupied, h]

/-- A line that becomes valid, or stays so. -/
theorem occupied_setLine_of_valid (hi : i < cfg.assoc) (hv : line.valid = true) :
    (t.setLine i line).occupied = insert i t.occupied := by
  ext j
  rw [mem_occupied, Finset.mem_insert, mem_occupied, setLine_lines]
  by_cases hji : j = i
  · subst hji
    rw [Function.update_self]
    simp [hi, hv]
  · rw [Function.update_of_ne hji]
    simp [hji]

/-- A line that becomes invalid, or stays so. -/
theorem occupied_setLine_of_not_valid (hv : line.valid = false) :
    (t.setLine i line).occupied = t.occupied.erase i := by
  ext j
  rw [mem_occupied, Finset.mem_erase, mem_occupied, setLine_lines]
  by_cases hji : j = i
  · subst hji
    rw [Function.update_self]
    simp [hv]
  · rw [Function.update_of_ne hji]
    simp [hji]

end WaySet

/-! ### What the calls count -/

section

variable (E) (regs : Regs) (line : Line cfg) (set : MdAddr) (now lat : ℤ) (w : W)

/-- An eviction counts a replacement, if the block is valid. -/
theorem evictLine_counts : SameStats
    { regs with
      replacements := if line.valid then regs.replacements + 1 else regs.replacements
      writebacks := (evictLine E regs line set now w).2.2.2.1.writebacks
      busFree := (evictLine E regs line set now w).2.2.2.1.busFree }
    (evictLine E regs line set now w).2.2.2.1 := by
  simp only [evictLine]
  split_ifs <;> exact ⟨rfl, rfl, rfl, rfl, rfl, rfl⟩

/-- An invalidation is counted. -/
theorem invalidateLine_counts : SameStats
    { regs with
      invalidations := regs.invalidations + 1
      writebacks := (invalidateLine E lat regs line set now w).2.2.1.writebacks }
    (invalidateLine E lat regs line set now w).2.2.1 := by
  simp only [invalidateLine]
  split_ifs <;> exact ⟨rfl, rfl, rfl, rfl, rfl, rfl⟩

end

/-- What the counters say of the valid blocks is off by this much, for a set in which `n` blocks
are valid. -/
def Regs.excess (regs : Regs) (n : ℕ) : ℤ :=
  n + regs.replacements + regs.invalidations - regs.misses

namespace WayCache

variable {a a' : WayCache cfg}

/-- The number of valid blocks. -/
def occupancy (a : WayCache cfg) : ℕ := ∑ i ∈ Finset.range cfg.nsets, (a.sets i).occupied.card

/-- One set rewritten. -/
theorem occupancy_update {i : ℕ} (hi : i < cfg.nsets) (t : WaySet cfg) (regs : Regs) :
    occupancy ⟨regs, Function.update a.sets i t⟩ + (a.sets i).occupied.card =
      a.occupancy + t.occupied.card := by
  have hm : i ∈ Finset.range cfg.nsets := Finset.mem_range.mpr hi
  have hrest : ∀ j ∈ (Finset.range cfg.nsets).erase i,
      (Function.update a.sets i t j).occupied.card = (a.sets j).occupied.card := by
    intro j hj
    rw [Function.update_of_ne (Finset.ne_of_mem_erase hj)]
  rw [occupancy, occupancy, ← Finset.add_sum_erase _ _ hm, ← Finset.add_sum_erase _ _ hm]
  dsimp only
  rw [Function.update_self, Finset.sum_congr rfl hrest]
  omega

/-- The account of some calls with `h` hits and `m` misses. -/
structure Tallied (a a' : WayCache cfg) (h m : ℕ) : Prop where
  hits : a'.regs.hits = a.regs.hits + h
  misses : a'.regs.misses = a.regs.misses + m
  occupancy : a'.regs.excess a'.occupancy = a.regs.excess a.occupancy

theorem Tallied.refl (a : WayCache cfg) : Tallied a a 0 0 :=
  ⟨(add_zero _).symm, (add_zero _).symm, rfl⟩

theorem Tallied.trans {a'' : WayCache cfg} {h m h' m' : ℕ} (ht : Tallied a a' h m)
    (ht' : Tallied a' a'' h' m') : Tallied a a'' (h + h') (m + m') := by
  refine ⟨?_, ?_, ht'.occupancy.trans ht.occupancy⟩
  · rw [ht'.hits, ht.hits, Nat.cast_add, add_assoc]
  · rw [ht'.misses, ht.misses, Nat.cast_add, add_assoc]

/-- A call that rewrites one set balances if the account of the set does. -/
theorem tallied_update {i : ℕ} (hi : i < cfg.nsets) {t : WaySet cfg} {regs : Regs} {h m : ℕ}
    (hhits : regs.hits = a.regs.hits + h) (hmisses : regs.misses = a.regs.misses + m)
    (hocc : regs.excess t.occupied.card = a.regs.excess (a.sets i).occupied.card) :
    Tallied a ⟨regs, Function.update a.sets i t⟩ h m := by
  refine ⟨hhits, hmisses, ?_⟩
  have hsum := occupancy_update (a := a) hi t regs
  rw [Regs.excess, Regs.excess] at hocc ⊢
  dsimp only
  omega

/-- A hit is counted, and no block comes or goes. -/
theorem tallied_hit {req : Request} {i : ℕ}
    (hv : ((a.sets (cfg.set req.addr).toNat).lines i).valid = true) (hi : i < cfg.assoc) :
    Tallied a (a.hit req i).2 1 0 := by
  refine tallied_update (Config.set_lt req.addr) rfl (add_zero _).symm ?_
  have hocc : ((a.sets (cfg.set req.addr).toNat).hit req i).occupied =
      (a.sets (cfg.set req.addr).toNat).occupied := by
    have hv' : (promote (hitLine ((a.sets (cfg.set req.addr).toNat).lines i) req).2).valid =
        true := hv
    have hline : ((a.sets (cfg.set req.addr).toNat).setLine i
        (promote (hitLine ((a.sets (cfg.set req.addr).toNat).lines i) req).2)).occupied =
        (a.sets (cfg.set req.addr).toNat).occupied := by
      rw [WaySet.occupied_setLine_of_valid hi hv',
        Finset.insert_eq_of_mem (WaySet.mem_occupied.mpr ⟨hi, hv⟩)]
    rw [WaySet.hit]
    split_ifs
    · exact hline
    · exact hline
  rw [hocc]
  rfl

/-- A miss is counted; the block of the victim goes, and counts as replaced, if there is one. -/
theorem tallied_miss {req : Request} (h : (a.sets (cfg.set req.addr).toNat).Inv) {w w' : W}
    {r : Reply} (hm : a.miss E req w = some (r, a', w')) : Tallied a a' 0 1 := by
  obtain ⟨i, t, regs, w₁, hsel, -, rfl, -⟩ := miss_eq_some hm
  obtain ⟨hs, hstats, -⟩ := selectVictim_spec h hsel
  obtain ⟨ready, data, hfill⟩ := t.fill_line E regs req i w₁
  have hregs : (t.fill E regs req i w₁).2.2.1 =
      (evictLine E regs (t.lines i) (cfg.set req.addr) req.now w₁).2.2.2.1 := rfl
  have hev := evictLine_counts E regs (t.lines i) (cfg.set req.addr) req.now w₁
  rw [hregs, hfill]
  refine tallied_update (Config.set_lt req.addr) ?_ (hev.misses.trans hstats.misses) ?_
  · exact (hev.hits.trans hstats.hits).trans (add_zero _).symm
  · have hi : i < cfg.assoc := (h.mem i).mp hs.mem
    have hocc : t.occupied = (a.sets (cfg.set req.addr).toNat).occupied :=
      WaySet.occupied_congr fun j => (hs.contents j).valid
    rw [WaySet.occupied_setLine_of_valid hi rfl, Regs.excess, Regs.excess, hev.replacements,
      hev.invalidations, hev.misses, ← hocc]
    dsimp only
    rw [hstats.replacements, hstats.invalidations, hstats.misses]
    dsimp only
    split_ifs with hv
    · rw [Finset.insert_eq_of_mem (WaySet.mem_occupied.mpr ⟨hi, hv⟩)]
      omega
    · rw [Finset.card_insert_of_notMem fun hm => hv (WaySet.mem_occupied.mp hm).2]
      omega

/-! ### Invalidations -/

/-- An invalidation of a valid block is counted, and the block goes. -/
theorem excess_invalidate {t : WaySet cfg} {i : ℕ} (hi : i < cfg.assoc)
    (hv : (t.lines i).valid = true) (lat : ℤ) (regs : Regs) (baddr : MdAddr) (now : ℤ) (w : W) :
    (invalidateLine E lat regs (t.lines i) baddr now w).2.2.1.hits = regs.hits ∧
    (invalidateLine E lat regs (t.lines i) baddr now w).2.2.1.misses = regs.misses ∧
    (invalidateLine E lat regs (t.lines i) baddr now w).2.2.1.excess
        (t.setLine i (invalidateLine E lat regs (t.lines i) baddr now w).2.1).occupied.card =
      regs.excess t.occupied.card := by
  have hc := invalidateLine_counts E regs (t.lines i) baddr now lat w
  have hline : (invalidateLine E lat regs (t.lines i) baddr now w).2.1.valid = false := by
    rw [invalidateLine_line]
  have hm : i ∈ t.occupied := WaySet.mem_occupied.mpr ⟨hi, hv⟩
  have hcard := Finset.card_erase_add_one hm
  refine ⟨hc.hits, hc.misses, ?_⟩
  rw [WaySet.occupied_setLine_of_not_valid hline, Regs.excess, Regs.excess, hc.replacements,
    hc.invalidations, hc.misses]
  dsimp only
  omega

/-- The flush of one address. -/
theorem tallied_flushAddr {addr : MdAddr} (h : (a.sets (cfg.set addr).toNat).Inv) (now : ℤ)
    (w : W) : Tallied a (a.flushAddr E addr now w).2.1 0 0 := by
  rw [flushAddr]
  dsimp only
  rcases hl : (a.sets (cfg.set addr).toNat).lookup (cfg.tag addr) with _ | i
  · exact Tallied.refl a
  · obtain ⟨hi, hh⟩ := h.lookup_eq_some.mp hl
    obtain ⟨hhits, hmisses, hocc⟩ := excess_invalidate (E := E) ((h.mem i).mp hi) hh.2
      cfg.hitLatency a.regs
      (cfg.mkBaddr ((a.sets (cfg.set addr).toNat).lines i).tag (cfg.set addr)) now w
    exact tallied_update (Config.set_lt addr) (hhits.trans (add_zero _).symm)
      (hmisses.trans (add_zero _).symm) hocc

/-- The flush of one set: each block that it invalidates is counted. -/
theorem tallied_flushSet {i : ℕ} (hi : i < cfg.nsets) (h : (a.sets i).Inv) (now lat : ℤ) (w : W) :
    Tallied a (flushSet E now (lat, a, w) i).2.1 0 0 := by
  -- along the way order, the account is balanced
  have hfold : ∀ (l : List ℕ) (f : FlushState W cfg), (∀ j ∈ l, j < cfg.assoc) →
      (l.foldl (flushBlk E now i) f).regs.hits = f.regs.hits ∧
        (l.foldl (flushBlk E now i) f).regs.misses = f.regs.misses ∧
        (l.foldl (flushBlk E now i) f).regs.excess
            (l.foldl (flushBlk E now i) f).set.occupied.card =
          f.regs.excess f.set.occupied.card := by
    intro l
    induction l with
    | nil => exact fun _ _ => ⟨rfl, rfl, rfl⟩
    | cons j l ih =>
      intro f hl
      obtain ⟨hhits, hmisses, hocc⟩ :=
        ih (flushBlk E now i f j) fun k hk => hl k (List.mem_cons_of_mem j hk)
      rw [List.foldl_cons, hhits, hmisses, hocc, flushBlk]
      dsimp only
      split_ifs with hv
      · exact excess_invalidate (hl j List.mem_cons_self) hv f.lat f.regs _ now f.world
      · exact ⟨rfl, rfl, rfl⟩
  obtain ⟨hhits, hmisses, hocc⟩ := hfold (a.sets i).order ⟨lat, a.sets i, a.regs, w⟩ fun j hj =>
    (h.mem j).mp hj
  exact tallied_update hi (hhits.trans (add_zero _).symm) (hmisses.trans (add_zero _).symm) hocc

/-- The flush of the cache. -/
theorem tallied_flush (h : ∀ i < cfg.nsets, (a.sets i).Inv) (now : ℤ) (w : W) :
    Tallied a (a.flush E now w).2.1 0 0 := by
  -- the sets that are still to be flushed are as they were
  have hloop := forRange_induction (n := cfg.nsets) (s := ((cfg.hitLatency : ℤ), a, w))
    (flushSet E now) (fun k p => Tallied a p.2.1 0 0 ∧ ∀ j, k ≤ j → p.2.1.sets j = a.sets j)
    ⟨Tallied.refl a, fun _ _ => rfl⟩ ?_
  · exact hloop.1
  · rintro k ⟨lat, a', w'⟩ hk ⟨ht, hrest⟩
    have hset : (a'.sets k).Inv := by
      rw [hrest k le_rfl]
      exact h k hk
    refine ⟨ht.trans (tallied_flushSet hk hset now lat w'), fun j hj => ?_⟩
    have hjk : j ≠ k := by omega
    exact (Function.update_of_ne hjk _ _).trans (hrest j (by omega))

/-- The hits among one call. -/
def hitCount (a : WayCache cfg) : Op → ℕ
  | .access req => if a.probe req.addr then 1 else 0
  | _ => 0

/-- The misses among one call. -/
def missCount (a : WayCache cfg) : Op → ℕ
  | .access req => if a.probe req.addr then 0 else 1
  | _ => 0

theorem hitCount_add_missCount (a : WayCache cfg) (op : Op) :
    a.hitCount op + a.missCount op = accesses [op] := by
  cases op with
  | access req =>
    rw [hitCount, missCount]
    split_ifs <;> rfl
  | probe addr => rfl
  | flush now => rfl
  | flushAddr addr now => rfl

/-- **Every call balances.** -/
theorem tallied_step (h : ∀ i < cfg.nsets, (a.sets i).Inv) {op : Op} {w w' : W} {ans : Answer}
    (hs : step E (a, w) op = some (ans, (a', w'))) :
    Tallied a a' (a.hitCount op) (a.missCount op) := by
  cases op with
  | access req =>
    have hset := h _ (Config.set_lt req.addr)
    obtain ⟨r, -, hr⟩ := step_access hs
    rw [hitCount, missCount, probe]
    obtain ⟨-, ⟨hl, hr⟩ | ⟨i, hl, -, rfl, -⟩⟩ := access_eq_some hr
    · rw [hl]
      exact tallied_miss hset hr
    · rw [hl]
      obtain ⟨hi, hh⟩ := hset.lookup_eq_some.mp hl
      exact tallied_hit hh.2 ((hset.mem i).mp hi)
  | probe addr =>
    obtain ⟨-, rfl, -⟩ := step_probe hs
    exact Tallied.refl a
  | flush now =>
    obtain ⟨-, rfl, -⟩ := step_flush hs
    exact tallied_flush h now w
  | flushAddr addr now =>
    obtain ⟨-, rfl, -⟩ := step_flushAddr hs
    exact tallied_flushAddr (h _ (Config.set_lt addr)) now w

end WayCache

/-! ### Runs of `cache.c` -/

/-- The valid blocks of a set have different tags. -/
def CacheSet.Unique (s : CacheSet cfg) : Prop :=
  ∀ i < cfg.assoc, ∀ j < cfg.assoc, (s.line i).valid = true → (s.line j).valid = true →
    (s.line i).tag = (s.line j).tag → i = j

/-- The two caches have the same valid blocks. -/
theorem Refines.occupancy {c : CacheT cfg} {a : WayCache cfg} (h : Refines c a) :
    c.occupancy = a.occupancy := by
  refine Finset.sum_congr rfl fun i hi => congrArg Finset.card ?_
  have hlt := Finset.mem_range.mp hi
  refine Finset.filter_congr fun j hj => ?_
  rw [(h.sets i hlt).line j (((h.inv i hlt).mem j).mpr (Finset.mem_range.mp hj))]

theorem Refines.unique {c : CacheT cfg} {a : WayCache cfg} (h : Refines c a) {i : ℕ}
    (hi : i < cfg.nsets) : (c.sets.get i).Unique := by
  intro j hj k hk hvj hvk htag
  have hline := (h.sets i hi).line
  have hmem := (h.inv i hi).mem
  rw [hline j ((hmem j).mpr hj)] at hvj htag
  rw [hline k ((hmem k).mpr hk)] at hvk htag
  exact (h.inv i hi).unique j ((hmem j).mpr hj) k ((hmem k).mpr hk) hvj hvk htag

theorem accesses_cons (op : Op) (ops : List Op) :
    accesses (op :: ops) = accesses [op] + accesses ops := by
  rw [accesses, accesses, accesses, ← List.countP_append, List.singleton_append]

/-- Calls of the cache keep a cache that balances beside it. -/
theorem Refines.run {ops : List Op} (hops : ∀ op ∈ ops, op.OutsideZero cfg) {c c' : CacheT cfg}
    {a : WayCache cfg} (h : Refines c a) {w w' : W} {answers : List Answer}
    (hr : run (CacheT.step E) (c, w) ops = some (answers, (c', w'))) :
    ∃ a' h m, Refines c' a' ∧ h + m = accesses ops ∧ WayCache.Tallied a a' h m := by
  induction ops generalizing c a w answers with
  | nil =>
    obtain ⟨-, hs⟩ := Prod.mk.inj (Option.some.inj hr)
    obtain ⟨rfl, -⟩ := Prod.mk.inj hs
    exact ⟨a, 0, 0, h, rfl, WayCache.Tallied.refl a⟩
  | cons op ops ih =>
    obtain ⟨ans, ⟨c₁, w₁⟩, answers', hs, hr', -⟩ := (run_cons_eq_some _).mp hr
    obtain ⟨⟨ans', a₁, w₁'⟩, ha, -, hr₁, -⟩ :=
      rel_of_eq_some (h.step E w (hops op List.mem_cons_self)) hs
    obtain ⟨a', h', m', ha', hsum, ht⟩ :=
      ih (fun op' hop => hops op' (List.mem_cons_of_mem op hop)) hr₁ hr'
    refine ⟨a', _, _, ha', ?_, (WayCache.tallied_step h.inv ha).trans ht⟩
    rw [accesses_cons, ← a.hitCount_add_missCount op, ← hsum]
    omega

/-- **Occupancy and uniqueness**: no two valid blocks of a set have the same tag, every access
is a hit or a miss, and the valid blocks are those brought in and not taken away. -/
theorem occupancy_run {c₀ c : CacheT cfg} (hc : cacheCreate cfg = some c₀) (E : Extern W cfg)
    {w₀ w : W} {ops : List Op} (hops : ∀ op ∈ ops, op.OutsideZero cfg) {answers : List Answer}
    (hr : run (CacheT.step E) (c₀, w₀) ops = some (answers, (c, w))) :
    (∀ i < cfg.nsets, (c.sets.get i).Unique) ∧
      c.regs.hits + c.regs.misses = accesses ops ∧
      c.occupancy = c.regs.misses - c.regs.replacements - c.regs.invalidations := by
  obtain ⟨a, h, m, ha, hsum, hhits, hmisses, hocc⟩ := (refines_create hc).run hops hr
  have hempty : (WayCache.create cfg).occupancy = 0 := Finset.sum_eq_zero fun i _ => by
    rw [Finset.card_eq_zero, Finset.eq_empty_iff_forall_notMem]
    exact fun j hj => absurd (WaySet.mem_occupied.mp hj).2
      (by simp [WayCache.create, WaySet.create, default])
  refine ⟨fun i hi => ha.unique hi, ?_, ?_⟩
  · rw [ha.regs, hhits, hmisses, ← hsum, Nat.cast_add]
    simp only [WayCache.create]
    omega
  · rw [hempty] at hocc
    rw [ha.occupancy, ha.regs]
    simp only [Regs.excess, WayCache.create] at hocc
    omega

/-- In the sample run five accesses miss and one hits, two blocks are replaced and the rest are
invalidated. -/
theorem occupancy_sample : ∃ c₀ answers c w, cacheCreate sampleConfig = some c₀ ∧
    run (CacheT.step (journal _)) (c₀, []) sampleOps = some (answers, (c, w)) ∧
    (∀ i < sampleConfig.nsets, (c.sets.get i).Unique) ∧
    c.regs.hits + c.regs.misses = accesses sampleOps ∧
    c.occupancy = c.regs.misses - c.regs.replacements - c.regs.invalidations := by
  let c₀ := (cacheCreate sampleConfig).get (by decide)
  have hc : cacheCreate sampleConfig = some c₀ := (Option.some_get _).symm
  have hs : (run (CacheT.step (journal _)) (c₀, []) sampleOps).isSome = true := by decide +kernel
  obtain ⟨⟨answers, c, w⟩, hr⟩ := Option.isSome_iff_exists.mp hs
  exact ⟨c₀, answers, c, w, hc, hr, occupancy_run hc (journal _) (by decide) hr⟩

end AdvancedArchitecture.Cache
