import AdvancedArchitecture.Cache.Inclusion

/-!
# Outcomes

What an access shows to the outside: whether it hits, the block that it replaces, the address
that it reports as evicted and those that it writes back (`Outcome`). The cache of `cache.c` and
the set-associative cache that it refines show the same (`Refines.observe`), and there the
outcome is read off the set of the access: a hit shows nothing more (`WayCache.observe_hit`), and
a miss shows the line of its victim (`WayCache.observe_miss`).
-/

namespace AdvancedArchitecture.Cache

open CacheSet

variable {W : Type} {cfg : Config} {E : Extern W cfg}

/-- What an access shows: whether it hits, the block that a miss replaces, `*repl_addr`, and the
addresses of the write-backs. -/
structure Outcome where
  hit : Bool
  victim : Option ℕ
  evicted : MdAddr
  writebacks : List MdAddr
  deriving DecidableEq, Repr

/-- The addresses of the writes among some calls of `blk_access_fn`. -/
def writtenBack (log : List (MemCmd × MdAddr)) : List MdAddr :=
  log.filterMap fun call => if call.1 = .write then some call.2 else none

/-- The outcome of an access that leads from `hits` to `hits'`. -/
def outcome (hits hits' : ℤ) (victim : Option ℕ) (r : Reply) (log : List (MemCmd × MdAddr)) :
    Outcome where
  hit := hits' = hits + 1
  victim := if hits' = hits + 1 then none else victim
  evicted := r.replAddr
  writebacks := writtenBack log

/-- An access and its outcome. -/
def CacheT.observe (E : Extern W cfg) (s : CacheT cfg × W) (req : Request) :
    Option (Outcome × (CacheT cfg × W)) :=
  (s.1.access E.logged req (s.2, [])).map fun r =>
    (outcome s.1.regs.hits r.2.1.regs.hits (s.1.victim E.logged req (s.2, [])) r.1 r.2.2.2,
      (r.2.1, r.2.2.1))

/-- The outcome of a miss that replaces block `i` of a set, whose line is `line`. -/
def Line.replaced (line : Line cfg) (set : MdAddr) (i : ℕ) : Outcome where
  hit := false
  victim := some i
  evicted := if line.valid then cfg.mkBaddr line.tag set else 0
  writebacks := if line.valid ∧ line.dirty then [cfg.mkBaddr line.tag set] else []

/-! ### On the set-associative cache -/

namespace WayCache

variable {a a' : WayCache cfg} {req : Request} {w w' : W} {i : ℕ}

/-- The block that a miss replaces. -/
def victim (E : Extern W cfg) (a : WayCache cfg) (req : Request) (w : W) : Option ℕ :=
  ((a.sets (cfg.set req.addr).toNat).selectVictim E
    { a.regs with misses := a.regs.misses + 1 } w).map Prod.fst

/-- An access and its outcome. -/
def observe (E : Extern W cfg) (s : WayCache cfg × W) (req : Request) :
    Option (Outcome × (WayCache cfg × W)) :=
  (s.1.access E.logged req (s.2, [])).map fun r =>
    (outcome s.1.regs.hits r.2.1.regs.hits (s.1.victim E.logged req (s.2, [])) r.1 r.2.2.2,
      (r.2.1, r.2.2.1))

/-- **A hit** shows nothing but that it hits. -/
theorem observe_hit (hok : req.ok cfg = true)
    (hl : (a.sets (cfg.set req.addr).toNat).lookup (cfg.tag req.addr) = some i) :
    observe E (a, w) req = some (⟨true, none, 0, []⟩, ((a.hit req i).2, w)) := by
  rw [observe, access, if_neg (not_not.mpr hok), hl]
  simp [outcome, hit, writtenBack]

/-- The writes of an eviction. -/
theorem evictLine_log (regs : Regs) (line : Line cfg) (set : MdAddr) (now : ℤ)
    (w : W × List (MemCmd × MdAddr)) (hlog : w.2 = []) :
    (evictLine E.logged regs line set now w).2.1 = (line.replaced set i).evicted ∧
      writtenBack (evictLine E.logged regs line set now w).2.2.2.2.2 =
        (line.replaced set i).writebacks := by
  rw [Line.replaced]
  dsimp only
  by_cases hv : line.valid = true
  · obtain ⟨t, haddr, -, hworld⟩ := evictLine_of_valid E.logged regs line set now w hv
    rw [haddr, hworld, if_pos hv]
    refine ⟨rfl, ?_⟩
    split_ifs with hd hboth hboth
    · simp [Extern.logged, writtenBack, hlog]
    · exact absurd ⟨hv, hd⟩ hboth
    · exact absurd hboth.2 hd
    · rw [hlog]
      rfl
  · simp [evictLine, hv, hlog, writtenBack]

/-- **A miss** shows the line of its victim, and fills it. -/
theorem observe_miss (hok : req.ok cfg = true) (hinv : (a.sets (cfg.set req.addr).toNat).Inv)
    (hl : (a.sets (cfg.set req.addr).toNat).lookup (cfg.tag req.addr) = none) {t : WaySet cfg}
    {regs : Regs} {w₁ : W × List (MemCmd × MdAddr)}
    (hsel : (a.sets (cfg.set req.addr).toNat).selectVictim E.logged
      { a.regs with misses := a.regs.misses + 1 } (w, []) = some (i, t, regs, w₁)) :
    ∃ regs' ready data w', observe E (a, w) req =
      some ((t.lines i).replaced (cfg.set req.addr) i,
        (⟨regs', Function.update a.sets (cfg.set req.addr).toNat (t.setLine i
          { t.lines i with
            tag := cfg.tag req.addr, valid := true, dirty := req.cmd = .write, ready, data })⟩,
          w')) := by
  obtain ⟨hs, hstats, hworld⟩ := selectVictim_spec hinv hsel
  have hlog : w₁.2 = [] := by
    rcases hworld with rfl | rfl <;> rfl
  obtain ⟨ready, data, hfill⟩ := t.fill_line E.logged regs req i w₁
  set r := t.fill E.logged regs req i w₁ with hr
  have haccess : a.access E.logged req (w, []) = some (r.1,
      ⟨r.2.2.1, Function.update a.sets (cfg.set req.addr).toNat r.2.1⟩, r.2.2.2) := by
    rw [access, if_neg (not_not.mpr hok), hl]
    dsimp only
    rw [miss, hsel]
    rfl
  -- a miss is not a hit, and its only write is that of the victim
  have hhits : r.2.2.1.hits = a.regs.hits :=
    (evictLine_counts E.logged regs (t.lines i) (cfg.set req.addr) req.now w₁).hits.trans
      hstats.hits
  obtain ⟨haddr, hwrites⟩ :=
    evictLine_log (E := E) (i := i) regs (t.lines i) (cfg.set req.addr) req.now w₁ hlog
  have hread : r.2.2.2.2 = (evictLine E.logged regs (t.lines i) (cfg.set req.addr) req.now
      w₁).2.2.2.2.2 ++ [(.read, cfg.baddr req.addr)] := rfl
  refine ⟨r.2.2.1, ready, data, r.2.2.2.1, ?_⟩
  rw [observe, haccess, Option.map_some, ← hfill]
  refine congrArg some (Prod.ext ?_ rfl)
  have hne : ¬ r.2.2.1.hits = a.regs.hits + 1 := by omega
  have hvictim : a.victim E.logged req (w, []) = some i := by
    rw [victim, hsel]
    rfl
  have hwritten : writtenBack r.2.2.2.2 =
      ((t.lines i).replaced (cfg.set req.addr) i).writebacks := by
    rw [hread, ← hwrites, writtenBack, List.filterMap_append]
    exact List.append_nil _
  have hevicted : r.1.replAddr = ((t.lines i).replaced (cfg.set req.addr) i).evicted := haddr
  simp only [outcome, hne, if_false, decide_false, hvictim, hwritten, hevicted]
  rfl

/-- An access that chooses no victim does not return. -/
theorem observe_none
    (hl : (a.sets (cfg.set req.addr).toNat).lookup (cfg.tag req.addr) = none)
    (hsel : (a.sets (cfg.set req.addr).toNat).selectVictim E.logged
      { a.regs with misses := a.regs.misses + 1 } (w, []) = none) :
    observe E (a, w) req = none := by
  rw [observe, access, hl]
  split_ifs
  · dsimp only
    rw [miss, hsel]
    rfl
  · rfl

theorem ok_of_observe {out : Outcome} (hs : observe E (a, w) req = some (out, (a', w'))) :
    req.ok cfg = true := by
  rw [observe, access] at hs
  split_ifs at hs with hok
  · exact hok
  · exact absurd hs (by simp)

/-- **Frame**: an access leaves the other sets alone. -/
theorem access_frame {r : Reply} (ha : a.access E req w = some (r, a', w')) {j : ℕ}
    (hj : (cfg.set req.addr).toNat ≠ j) : a'.sets j = a.sets j := by
  obtain ⟨-, ⟨-, hm⟩ | ⟨i, -, -, rfl, -⟩⟩ := access_eq_some ha
  · obtain ⟨i, t, regs, w₂, -, -, rfl, -⟩ := miss_eq_some hm
    exact Function.update_of_ne hj.symm _ _
  · exact Function.update_of_ne hj.symm _ _

theorem observe_frame {out : Outcome} (hs : observe E (a, w) req = some (out, (a', w'))) {j : ℕ}
    (hj : (cfg.set req.addr).toNat ≠ j) : a'.sets j = a.sets j := by
  obtain ⟨⟨r, a₁, w₁⟩, ha, heq⟩ := Option.map_eq_some_iff.mp hs
  simp only [Prod.mk.injEq] at heq
  obtain ⟨-, rfl, -⟩ := heq
  exact access_frame ha hj

end WayCache

/-! ### On the cache of `cache.c` -/

/-- **Outcomes agree**, unless a null pointer is dereferenced for block 0. -/
theorem Refines.observe {c : CacheT cfg} {a : WayCache cfg} (h : Refines c a) {req : Request}
    (hz : cfg.baddr req.addr ≠ 0) (E : Extern W cfg) (w : W) :
    Option.Rel (fun p q => p.1 = q.1 ∧ Refines p.2.1 q.2.1 ∧ p.2.2 = q.2.2)
      (CacheT.observe E (c, w) req) (WayCache.observe E (a, w) req) := by
  have hvictim : c.victim E.logged req (w, []) = a.victim E.logged req (w, []) := by
    have hv := (h.sets _ (Config.set_lt req.addr)).selectVictim E.logged
      (h.inv _ (Config.set_lt req.addr)) { a.regs with misses := a.regs.misses + 1 } (w, [])
    rw [CacheT.victim, WayCache.victim, h.regs]
    rcases hsel : (a.sets (cfg.set req.addr).toNat).selectVictim E.logged
        { a.regs with misses := a.regs.misses + 1 } (w, []) with _ | q
    · rw [hsel] at hv
      rw [rel_of_none hv]
      rfl
    · rw [hsel] at hv
      obtain ⟨p, hp, hpq, -⟩ := rel_of_some hv
      rw [hp, Option.map_some, Option.map_some, hpq]
  rw [CacheT.observe, WayCache.observe, hvictim, h.regs]
  refine rel_map (h.access E.logged (fun hb => absurd hb hz) (w, [])) ?_
  rintro ⟨r, c', w₁⟩ ⟨r', a', w₁'⟩ ⟨rfl, hr, rfl⟩
  exact ⟨by rw [hr.regs], hr, rfl⟩

end AdvancedArchitecture.Cache
