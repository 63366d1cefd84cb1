import AdvancedArchitecture.Cache.Decomposition

/-!
# Direct-mapped caches

With one block to a set there is nothing to choose: the cache is a map from set indices to the
tags and dirty bits of the blocks that the sets hold (`DirectMap`). Under `LRU`, `FIFO` and
`Random` the cache shows the outcomes of this map. The search of `NRU` finds the block of a set
only while its bit is set, that is, until the set holds a block, and afterwards it goes on with
the second block of a list of one; that of `DRRIP` does so on the first access already. The
policies therefore agree on the runs of `DirectSound`, and no others (`direct_mapped_iff`).
-/

namespace AdvancedArchitecture.Cache

open CacheSet

variable {W : Type} {cfg : Config} {E : Extern W cfg}

/-! ### The map -/

/-- The tag and the dirty bit of the block that each set holds. -/
abbrev DirectMap := ℕ → Option (MdAddr × Bool)

namespace DirectMap

variable (cfg) in
/-- An access: its outcome, and the map it leaves. -/
def access (m : DirectMap) (req : Request) : Outcome × DirectMap :=
  let set := (cfg.set req.addr).toNat
  let tag := cfg.tag req.addr
  let write := decide (req.cmd = .write)
  match m set with
  | none => (⟨false, some 0, 0, []⟩, Function.update m set (some (tag, write)))
  | some (old, dirty) =>
    if old = tag then (⟨true, none, 0, []⟩, Function.update m set (some (tag, write || dirty)))
    else
      (⟨false, some 0, cfg.mkBaddr old (cfg.set req.addr),
          if dirty then [cfg.mkBaddr old (cfg.set req.addr)] else []⟩,
        Function.update m set (some (tag, write)))

variable (cfg) in
/-- The outcomes of a sequence of accesses. -/
def outcomes : DirectMap → List Request → List Outcome
  | _, [] => []
  | m, req :: reqs => (access cfg m req).1 :: outcomes (access cfg m req).2 reqs

variable (cfg) in
/-- The set of the access holds its block or none. -/
def Fits (m : DirectMap) (req : Request) : Prop :=
  ∀ old dirty, m (cfg.set req.addr).toNat = some (old, dirty) → old = cfg.tag req.addr

variable (cfg) in
/-- Each access of a sequence fits. -/
def AllFit : DirectMap → List Request → Prop
  | _, [] => True
  | m, req :: reqs => Fits cfg m req ∧ AllFit (access cfg m req).2 reqs

variable {m : DirectMap} {req : Request} {reqs : List Request}

/-- Every miss replaces the block of its set. -/
theorem victim_of_mem_outcomes {out : Outcome} (h : out ∈ outcomes cfg m reqs)
    (hmiss : out.hit = false) : out.victim = some 0 := by
  induction reqs generalizing m with
  | nil => exact absurd h List.not_mem_nil
  | cons req reqs ih =>
    rcases List.mem_cons.mp h with rfl | h
    · revert hmiss
      rw [access]
      split
      · exact fun _ => rfl
      · split_ifs
        · exact fun h => absurd h (by decide)
        all_goals exact fun _ => rfl
    · exact ih h

/-- After an access its set holds its block; the other sets are as they were. -/
theorem access_snd : ∃ dirty, (access cfg m req).2 =
    Function.update m (cfg.set req.addr).toNat (some (cfg.tag req.addr, dirty)) := by
  rw [access]
  split
  · exact ⟨_, rfl⟩
  · split_ifs <;> exact ⟨_, rfl⟩

/-- **Which sequences fit**: those of which no access goes to a set that holds another block, and
no two go to different blocks of one set. -/
theorem allFit_iff : AllFit cfg m reqs ↔ (∀ req ∈ reqs, Fits cfg m req) ∧
    reqs.Pairwise fun req req' => cfg.set req.addr = cfg.set req'.addr →
      cfg.tag req.addr = cfg.tag req'.addr := by
  induction reqs generalizing m with
  | nil => simp [AllFit]
  | cons req reqs ih =>
    obtain ⟨dirty, hm⟩ := access_snd (m := m)
    rw [AllFit, ih, hm, List.forall_mem_cons, List.pairwise_cons]
    -- the sets of the later accesses, before the first one and after it
    have hafter : ∀ req', cfg.set req.addr = cfg.set req'.addr →
        (Fits cfg (Function.update m (cfg.set req.addr).toNat (some (cfg.tag req.addr, dirty)))
          req' ↔ cfg.tag req.addr = cfg.tag req'.addr) := by
      intro req' hset
      rw [Fits, ← hset, Function.update_self]
      refine ⟨fun h => h _ _ rfl, fun h old d heq => ?_⟩
      obtain ⟨rfl, -⟩ := Prod.mk.inj (Option.some.inj heq)
      exact h
    have hother : ∀ req', cfg.set req.addr ≠ cfg.set req'.addr →
        (Fits cfg (Function.update m (cfg.set req.addr).toNat (some (cfg.tag req.addr, dirty)))
          req' ↔ Fits cfg m req') := by
      intro req' hset
      rw [Fits, Function.update_of_ne fun h => hset (BitVec.eq_of_toNat_eq h.symm)]
      exact Iff.rfl
    refine ⟨?_, ?_⟩
    · rintro ⟨hfit, hrest, hpair⟩
      refine ⟨⟨hfit, fun req' hreq' => ?_⟩, fun req' hreq' hset => ?_, hpair⟩
      · by_cases hset : cfg.set req.addr = cfg.set req'.addr
        · have htag := (hafter req' hset).mp (hrest req' hreq')
          intro old d heq
          rw [← htag]
          exact hfit old d (hset ▸ heq)
        · exact (hother req' hset).mp (hrest req' hreq')
      · exact (hafter req' hset).mp (hrest req' hreq')
    · rintro ⟨⟨hfit, hrest⟩, hhead, hpair⟩
      refine ⟨hfit, fun req' hreq' => ?_, hpair⟩
      by_cases hset : cfg.set req.addr = cfg.set req'.addr
      · exact (hafter req' hset).mpr (hhead req' hreq' hset)
      · exact (hother req' hset).mpr (hrest req' hreq')

end DirectMap

/-! ### The cache as a map -/

section direct

variable {t : WaySet cfg} {a : WayCache cfg} {m : DirectMap} {req : Request}

theorem WaySet.Inv.order_of_direct (h : t.Inv) (hassoc : cfg.assoc = 1) : t.order = [0] := by
  have hlen := h.length_order
  obtain ⟨x, hx⟩ := List.length_eq_one_iff.mp (hlen.trans hassoc)
  have hm := (h.mem x).mp (hx ▸ List.mem_singleton_self x)
  obtain rfl : x = 0 := by omega
  exact hx

/-- The block of a set is what the map says. Under `NRU` its bit is set while there is none. -/
structure WaySet.Maps (t : WaySet cfg) (held : Option (MdAddr × Bool)) : Prop where
  none : held = none → (t.lines 0).valid = false
  some : ∀ tag dirty, held = some (tag, dirty) →
    (t.lines 0).valid = true ∧ (t.lines 0).tag = tag ∧ (t.lines 0).dirty = dirty
  nruBit : cfg.policy = .nru → ((t.lines 0).nruBit = true ↔ held = .none)

/-- The sets of a cache are what the map says. -/
def WayCache.Maps (a : WayCache cfg) (m : DirectMap) : Prop :=
  ∀ i < cfg.nsets, (a.sets i).Maps (m i)

theorem WayCache.Maps.update (h : a.Maps m) {i : ℕ} {held : Option (MdAddr × Bool)}
    (ht : t.Maps held) (regs : Regs) :
    Maps ⟨regs, Function.update a.sets i t⟩ (Function.update m i held) := by
  intro j hj
  dsimp only
  by_cases hji : j = i
  · rw [hji, Function.update_self, Function.update_self]
    exact ht
  · rw [Function.update_of_ne hji, Function.update_of_ne hji]
    exact h j hj

/-- **The victim of a direct-mapped set** is its block. Under `NRU` it is found if its bit is
set. -/
theorem WaySet.Inv.selectVictim_direct (h : t.Inv) (hassoc : cfg.assoc = 1)
    (hp : cfg.policy ≠ .drrip) (E : Extern W cfg) (regs : Regs) (w : W) :
    ((cfg.policy = .nru → (t.lines 0).nruBit = true) → ∃ t' regs' w',
      t.selectVictim E regs w = some (0, t', regs', w') ∧
        (cfg.policy = .nru → (t'.lines 0).nruBit = false)) ∧
      (cfg.policy = .nru → (t.lines 0).nruBit = false → t.selectVictim E regs w = none) := by
  have ho := h.order_of_direct hassoc
  rw [WaySet.selectVictim]
  rcases hpol : cfg.policy <;> dsimp only
  case lru | fifo =>
    rw [ho]
    exact ⟨fun _ => ⟨_, _, _, rfl, fun h => absurd h (by decide)⟩, fun h => absurd h (by decide)⟩
  case random =>
    have hzero : (E.myrand w).1 &&& (cfg.assoc - 1) = 0 := by
      rw [hassoc]
      exact Nat.and_zero _
    rw [hzero]
    exact ⟨fun _ => ⟨_, _, _, rfl, fun h => absurd h (by decide)⟩, fun h => absurd h (by decide)⟩
  case nru =>
    refine ⟨fun hbit => ?_, fun _ hbit => ?_⟩
    · have hfind : [0].find? (fun i => (t.lines i).nruBit) = some 0 :=
        List.find?_cons_of_pos (hbit rfl)
      rw [WaySet.search, ho, hfind]
      refine ⟨_, _, _, rfl, fun _ => ?_⟩
      rw [setLine_lines, Function.update_self]
    · -- the search goes on past the only block
      have hfind : [0].find? (fun i => (t.lines i).nruBit) = none :=
        List.find?_eq_none.mpr (by simp [hbit])
      rw [WaySet.search, ho, hfind]
      dsimp only
      rw [searchRounds_of_tail_eq_nil (by rw [ho]; rfl)]
      rfl
  case drrip => exact absurd hpol hp

theorem WaySet.Inv.lookup_direct (h : t.Inv) (hassoc : cfg.assoc = 1) (tag : MdAddr) :
    t.lookup tag = if t.Holds tag 0 then some 0 else none := by
  rw [WaySet.lookup, h.order_of_direct hassoc, List.find?_cons]
  by_cases hh : t.Holds tag 0
  · rw [if_pos hh, decide_eq_true hh]
  · rw [if_neg hh, decide_eq_false hh]
    rfl

theorem WaySet.Inv.lookup_of_held (h : t.Inv) (hassoc : cfg.assoc = 1) {tag : MdAddr}
    {dirty : Bool} (ht : t.Maps (some (tag, dirty))) : t.lookup tag = some 0 := by
  obtain ⟨hv, htag, -⟩ := ht.some tag dirty rfl
  rw [h.lookup_direct hassoc, if_pos ⟨htag, hv⟩]

theorem WaySet.Inv.lookup_of_not_held (h : t.Inv) (hassoc : cfg.assoc = 1) {tag : MdAddr}
    {held : Option (MdAddr × Bool)} (ht : t.Maps held)
    (hne : ∀ old dirty, held = some (old, dirty) → old ≠ tag) : t.lookup tag = none := by
  rw [h.lookup_direct hassoc, if_neg]
  rintro ⟨htag, hv⟩
  cases held with
  | none =>
    rw [ht.none rfl] at hv
    exact Bool.false_ne_true hv
  | some block => exact hne _ _ rfl ((ht.some _ _ rfl).2.1.symm.trans htag)

/-- A hit keeps the block, and a write makes it dirty. -/
theorem WaySet.maps_hit {dirty : Bool} (ht : t.Maps (some (cfg.tag req.addr, dirty))) :
    (t.hit req 0).Maps (some (cfg.tag req.addr, decide (req.cmd = .write) || dirty)) := by
  obtain ⟨hv, htag, hdirty⟩ := ht.some _ _ rfl
  have hline : (t.hit req 0).lines 0 = promote (hitLine (t.lines 0) req).2 := by
    rw [WaySet.hit]
    split_ifs
    · rw [WaySet.move_lines, WaySet.setLine_lines, Function.update_self]
    · rw [WaySet.setLine_lines, Function.update_self]
  refine ⟨fun h => absurd h (by simp), ?_, fun hn => ?_⟩
  · rintro tag d heq
    obtain ⟨rfl, rfl⟩ := Prod.mk.inj (Option.some.inj heq)
    rw [hline]
    refine ⟨hv, htag, ?_⟩
    simp only [promote, hitLine, hdirty]
    cases req.cmd <;> simp
  · rw [hline, promote]
    simp [hn]

/-- **A miss of a direct-mapped cache** whose victim is found shows the block that it replaces,
and the set holds the new one. -/
theorem WayCache.Maps.observe_miss (h : a.Maps m) (hassoc : cfg.assoc = 1)
    (hp : cfg.policy ≠ .drrip) (hinv : ∀ i < cfg.nsets, (a.sets i).Inv)
    (hok : req.ok cfg = true) (E : Extern W cfg) (w : W)
    (hl : (a.sets (cfg.set req.addr).toNat).lookup (cfg.tag req.addr) = none)
    (hbit : cfg.policy = .nru → ((a.sets (cfg.set req.addr).toNat).lines 0).nruBit = true) :
    ∃ a' w', observe E (a, w) req =
        some (((a.sets (cfg.set req.addr).toNat).lines 0).replaced (cfg.set req.addr) 0,
          (a', w')) ∧
      a'.Maps (Function.update m (cfg.set req.addr).toNat
        (some (cfg.tag req.addr, decide (req.cmd = .write)))) := by
  have hset := hinv _ (Config.set_lt req.addr)
  obtain ⟨t, regs, w₁, hsel, hbit'⟩ := (hset.selectVictim_direct hassoc hp E.logged
    { a.regs with misses := a.regs.misses + 1 } (w, [])).1 hbit
  obtain ⟨regs', ready, data, w', hobs⟩ := WayCache.observe_miss hok hset hl hsel
  have hsame := (selectVictim_spec hset hsel).1.contents 0
  have hout : (t.lines 0).replaced (cfg.set req.addr) 0 =
      ((a.sets (cfg.set req.addr).toNat).lines 0).replaced (cfg.set req.addr) 0 := by
    rw [Line.replaced, Line.replaced, hsame.tag, hsame.valid, hsame.dirty]
  refine ⟨_, w', hout ▸ hobs, h.update ⟨fun h => absurd h (by simp), ?_, fun hn => ?_⟩ _⟩
  · rintro tag dirty heq
    obtain ⟨rfl, rfl⟩ := Prod.mk.inj (Option.some.inj heq)
    rw [WaySet.setLine_lines, Function.update_self]
    exact ⟨rfl, rfl, rfl⟩
  · rw [WaySet.setLine_lines, Function.update_self]
    dsimp only
    rw [hbit' hn]
    simp

/-- **An access of a direct-mapped cache** shows what the map shows, if it fits or the policy is
not `NRU`, and does not return otherwise. -/
theorem WayCache.observe_direct (hassoc : cfg.assoc = 1) (hp : cfg.policy ≠ .drrip)
    (hinv : ∀ i < cfg.nsets, (a.sets i).Inv) (h : a.Maps m) (hok : req.ok cfg = true)
    (E : Extern W cfg) (w : W) :
    ((cfg.policy = .nru → m.Fits cfg req) → ∃ a' w',
      observe E (a, w) req = some ((m.access cfg req).1, (a', w')) ∧
        a'.Maps (m.access cfg req).2) ∧
      (cfg.policy = .nru → ¬ m.Fits cfg req → observe E (a, w) req = none) := by
  have hlt : (cfg.set req.addr).toNat < cfg.nsets := Config.set_lt req.addr
  have hset := hinv _ hlt
  have hmap := h _ hlt
  have hmiss := h.observe_miss hassoc hp hinv hok E w
  rw [DirectMap.access, DirectMap.Fits]
  rcases hheld : m (cfg.set req.addr).toNat with _ | ⟨old, dirty⟩
  · -- the set is empty
    have hl : (a.sets (cfg.set req.addr).toNat).lookup (cfg.tag req.addr) = none :=
      hset.lookup_of_not_held hassoc hmap fun _ _ h => absurd (hheld.symm.trans h) (by simp)
    obtain ⟨a', w', hobs, ha'⟩ := hmiss hl fun hn => (hmap.nruBit hn).mpr hheld
    refine ⟨fun _ => ⟨a', w', ?_, ha'⟩, fun _ hfit => absurd (fun _ _ h => absurd h (by simp)) hfit⟩
    rw [hobs, Line.replaced, hmap.none hheld]
    simp
  · rw [hheld] at hmap
    by_cases hold : old = cfg.tag req.addr
    · -- a hit
      subst hold
      simp only [if_true]
      exact ⟨fun _ => ⟨_, w, observe_hit hok (hset.lookup_of_held hassoc hmap),
          h.update (WaySet.maps_hit hmap) _⟩,
        fun _ hfit => absurd (fun _ _ heq => (Prod.mk.inj (Option.some.inj heq)).1.symm) hfit⟩
    · -- another block is there
      have hl := hset.lookup_of_not_held hassoc hmap fun _ _ heq =>
        (Prod.mk.inj (Option.some.inj heq)).1 ▸ hold
      simp only [if_neg hold]
      refine ⟨fun hfit => ?_, fun hn _ => observe_none hl ?_⟩
      · obtain ⟨a', w', hobs, ha'⟩ := hmiss hl fun hn => absurd (hfit hn old dirty rfl) hold
        obtain ⟨hv, htag, hdirty⟩ := hmap.some old dirty rfl
        refine ⟨a', w', ?_, ha'⟩
        rw [hobs, Line.replaced, hv, htag, hdirty]
        simp
      · have hunset : ((a.sets (cfg.set req.addr).toNat).lines 0).nruBit = false := by
          rw [← Bool.not_eq_true, hmap.nruBit hn]
          simp
        exact (hset.selectVictim_direct hassoc hp _ _ _).2 hn hunset

end direct

/-! ### Runs -/

/-- **Runs of a direct-mapped cache** show what the map shows, if all accesses fit or the policy
is not `NRU`, and do not return otherwise. -/
theorem Refines.run_direct (hassoc : cfg.assoc = 1) (hp : cfg.policy ≠ .drrip) {c : CacheT cfg}
    {a : WayCache cfg} {m : DirectMap} (h : Refines c a) (hm : a.Maps m) (E : Extern W cfg) (w : W)
    {reqs : List Request} (hreqs : ∀ req ∈ reqs, req.ok cfg = true ∧ cfg.baddr req.addr ≠ 0) :
    ((cfg.policy = .nru → m.AllFit cfg reqs) → ∃ s,
      AdvancedArchitecture.run (CacheT.observe E) (c, w) reqs = some (m.outcomes cfg reqs, s)) ∧
      (cfg.policy = .nru → ¬ m.AllFit cfg reqs →
        AdvancedArchitecture.run (CacheT.observe E) (c, w) reqs = none) := by
  induction reqs generalizing c a m w with
  | nil => exact ⟨fun _ => ⟨_, rfl⟩, fun _ h => absurd trivial h⟩
  | cons req reqs ih =>
    obtain ⟨hok, hz⟩ := hreqs req List.mem_cons_self
    obtain ⟨hfits, hlost⟩ := WayCache.observe_direct hassoc hp h.inv hm hok E w
    have hrel := h.observe hz E w
    rw [DirectMap.AllFit, DirectMap.outcomes]
    by_cases hfit : cfg.policy = .nru → m.Fits cfg req
    · obtain ⟨a', w', hobs, hm'⟩ := hfits hfit
      rw [hobs] at hrel
      obtain ⟨⟨out, c', w''⟩, hc, rfl, hr, -⟩ := rel_of_some hrel
      obtain ⟨hrun, hstop⟩ := ih hr hm' w'' fun r hr => hreqs r (List.mem_cons_of_mem req hr)
      refine ⟨fun hall => ?_, fun hn hall => ?_⟩
      · obtain ⟨s, hs⟩ := hrun fun hn => (hall hn).2
        exact ⟨s, (run_cons_eq_some _).mpr ⟨_, _, _, hc, hs, rfl⟩⟩
      · rw [AdvancedArchitecture.run, hc]
        dsimp only
        rw [hstop hn fun hrest => hall ⟨hfit hn, hrest⟩]
        rfl
    · obtain ⟨hn, hfit⟩ := Classical.not_imp.mp hfit
      refine ⟨fun hall => absurd (hall hn).1 hfit, fun _ _ => ?_⟩
      rw [hlost hn hfit] at hrel
      rw [AdvancedArchitecture.run, rel_of_none hrel]

theorem WayCache.maps_create : (WayCache.create cfg).Maps fun _ => none := fun _ _ =>
  ⟨fun _ => rfl, fun _ _ h => absurd h (by simp), fun _ => iff_of_true rfl rfl⟩

/-- The first access of a direct-mapped `DRRIP` cache does not return. -/
theorem WayCache.observe_create_drrip (hassoc : cfg.assoc = 1) (hp : cfg.policy = .drrip)
    (req : Request) (E : Extern W cfg) (w : W) : observe E (create cfg, w) req = none := by
  have hinv : ((create cfg).sets (cfg.set req.addr).toNat).Inv := WaySet.create_inv cfg _
  have ho := hinv.order_of_direct hassoc
  have hvalid : (((create cfg).sets (cfg.set req.addr).toNat).lines 0).valid = false := rfl
  have hrrpv : (((create cfg).sets (cfg.set req.addr).toNat).lines 0).rrpv = rrpvMax - 1 := rfl
  refine observe_none ?_ ?_
  · rw [hinv.lookup_direct hassoc, if_neg]
    rintro ⟨-, hv⟩
    rw [hvalid] at hv
    exact Bool.false_ne_true hv
  · have hfind : [0].find? (fun i =>
        decide ((((create cfg).sets (cfg.set req.addr).toNat).lines i).rrpv = rrpvMax)) = none :=
      List.find?_eq_none.mpr (by simp [hrrpv])
    simp only [WaySet.selectVictim, hp]
    rw [WaySet.search, ho, hfind]
    dsimp only
    rw [searchRounds_of_tail_eq_nil (by rw [ho]; rfl)]
    rfl

/-! ### The policies compared -/

/-- The same cache with another policy. -/
def Config.withPolicy (cfg : Config) (p : CachePolicy) : Config := { cfg with policy := p }

/-- The same memory behind it. -/
def Extern.withPolicy (E : Extern W cfg) (p : CachePolicy) : Extern W (cfg.withPolicy p) :=
  ⟨E.blkAccessFn, E.myrand⟩

/-- The outcomes of a run of a new cache with the policy `p`. -/
def outcomesUnder (E : Extern W cfg) (w₀ : W) (p : CachePolicy) (reqs : List Request) :
    Option (List Outcome) :=
  (cacheCreate (cfg.withPolicy p)).bind fun c₀ =>
    (run (CacheT.observe (E.withPolicy p)) (c₀, w₀) reqs).map Prod.fst

/-- The cache with the policy `p` shows the same as the one with `LRU`, and every miss replaces
block 0. -/
def AgreesWithLru (E : Extern W cfg) (w₀ : W) (p : CachePolicy) (reqs : List Request) : Prop :=
  ∃ outs, outcomesUnder E w₀ .lru reqs = some outs ∧ outcomesUnder E w₀ p reqs = some outs ∧
    ∀ out ∈ outs, out.hit = false → out.victim = some 0

/-- The condition for it: under `NRU` no two accesses go to different blocks of a set, and under
`DRRIP` there are no accesses. -/
def DirectSound (cfg : Config) (p : CachePolicy) (reqs : List Request) : Prop :=
  match p with
  | .lru | .fifo | .random => True
  | .nru => reqs.Pairwise fun req req' => cfg.set req.addr = cfg.set req'.addr →
      cfg.baddr req.addr = cfg.baddr req'.addr
  | .drrip => reqs = []

/-- In one set, blocks with the same address are those with the same tag. -/
theorem Config.baddr_eq_iff_tag_eq {addr addr' : MdAddr} (h : cfg.set addr = cfg.set addr') :
    cfg.baddr addr = cfg.baddr addr' ↔ cfg.tag addr = cfg.tag addr' := by
  rw [Config.baddr_eq_iff, ← Config.tag_set_eq_iff, and_iff_left h]

section policies

variable (E) {w₀ : W} {p : CachePolicy} {reqs : List Request}

theorem outcomes_withPolicy (m : DirectMap) :
    m.outcomes (cfg.withPolicy p) reqs = m.outcomes cfg reqs := by
  induction reqs generalizing m with
  | nil => rfl
  | cons req reqs ih =>
    rw [DirectMap.outcomes, DirectMap.outcomes, ih]
    rfl

/-- The outcomes under a policy other than `DRRIP`: those of the empty map, unless it is `NRU`
and the accesses do not fit. -/
theorem outcomesUnder_direct (w₀ : W) (hassoc : cfg.assoc = 1) (hp : p ≠ .drrip)
    (hreqs : ∀ req ∈ reqs, req.ok cfg = true ∧ cfg.baddr req.addr ≠ 0) :
    (DirectSound cfg p reqs →
      outcomesUnder E w₀ p reqs = some (DirectMap.outcomes cfg (fun _ => none) reqs)) ∧
      (¬ DirectSound cfg p reqs → outcomesUnder E w₀ p reqs = none) := by
  obtain ⟨c₀, hc⟩ : ∃ c₀, cacheCreate (cfg.withPolicy p) = some c₀ := by
    rw [cacheCreate, if_neg fun h => hp h.1]
    exact ⟨_, rfl⟩
  have hassoc' : (cfg.withPolicy p).assoc = 1 := hassoc
  have hp' : (cfg.withPolicy p).policy ≠ .drrip := hp
  obtain ⟨hrun, hstop⟩ := (refines_create hc).run_direct hassoc' hp' WayCache.maps_create
    (E.withPolicy p) w₀ hreqs
  -- the accesses fit an empty map if no two of them go to different blocks of a set
  have hfit : p = .nru → (DirectMap.AllFit (cfg.withPolicy p) (fun _ => none) reqs ↔
      DirectSound cfg p reqs) := by
    rintro rfl
    have hempty : ∀ req ∈ reqs, DirectMap.Fits (cfg.withPolicy .nru) (fun _ => none) req :=
      fun _ _ _ _ h => absurd h (Option.some_ne_none _).symm
    rw [DirectMap.allFit_iff, and_iff_right hempty]
    exact List.Pairwise.iff fun _ _ => imp_congr_right fun h => (Config.baddr_eq_iff_tag_eq h).symm
  rw [outcomesUnder, hc, Option.bind_some]
  refine ⟨fun h => ?_, fun h => ?_⟩
  · obtain ⟨s, hs⟩ := hrun fun hn => (hfit hn).mpr h
    rw [hs, Option.map_some, outcomes_withPolicy]
  · have hn : p = .nru := by
      cases p <;> first | exact absurd trivial h | rfl | exact absurd rfl hp
    rw [hstop hn fun hall => h ((hfit hn).mp hall)]
    rfl

/-- **Direct-mapped caches.** A cache with one block to a set shows under `FIFO` and `Random`
what it shows under `LRU`; under `NRU` if and only if no two accesses go to different blocks of a
set, and under `DRRIP` if and only if there are no accesses. -/
theorem direct_mapped_iff (hassoc : cfg.assoc = 1) (hsets : p = .drrip → 64 ≤ cfg.nsets)
    (hreqs : ∀ req ∈ reqs, req.ok cfg = true ∧ cfg.baddr req.addr ≠ 0) :
    AgreesWithLru E w₀ p reqs ↔ DirectSound cfg p reqs := by
  have hlru : outcomesUnder E w₀ .lru reqs =
      some (DirectMap.outcomes cfg (fun _ => none) reqs) :=
    (outcomesUnder_direct E _ hassoc (by decide) hreqs).1 trivial
  have hvictim : ∀ out ∈ DirectMap.outcomes cfg (fun _ => none) reqs, out.hit = false →
      out.victim = some 0 := fun _ => DirectMap.victim_of_mem_outcomes
  by_cases hp : p = .drrip
  · subst hp
    rcases reqs with _ | ⟨req, reqs⟩
    · refine iff_of_true ⟨[], hlru, ?_, fun _ h => absurd h List.not_mem_nil⟩ rfl
      -- without accesses nothing is asked of the search
      rw [outcomesUnder, cacheCreate, if_neg]
      · rfl
      · rintro ⟨-, hn⟩
        have hle : 64 ≤ (cfg.withPolicy .drrip).nsets := hsets rfl
        have hdiv : (cfg.withPolicy .drrip).nsets / 32 = 0 := hn
        omega
    · -- the first access finds no victim
      refine iff_of_false ?_ (List.cons_ne_nil _ _)
      rintro ⟨outs, -, hout, -⟩
      rw [outcomesUnder] at hout
      obtain ⟨c₀, hc, hrun⟩ := Option.bind_eq_some_iff.mp hout
      obtain ⟨⟨outs', s⟩, hs, -⟩ := Option.map_eq_some_iff.mp hrun
      obtain ⟨out, s', outs'', hfirst, -⟩ := (run_cons_eq_some _).mp hs
      have hassoc' : (cfg.withPolicy .drrip).assoc = 1 := hassoc
      have hz : (cfg.withPolicy .drrip).baddr req.addr ≠ 0 := (hreqs req List.mem_cons_self).2
      have hrel := (refines_create hc).observe hz (E.withPolicy .drrip) w₀
      rw [WayCache.observe_create_drrip hassoc' rfl, hfirst] at hrel
      exact absurd (rel_of_none hrel) (by simp)
  · obtain ⟨hshow, hstop⟩ := outcomesUnder_direct E w₀ hassoc hp hreqs
    refine ⟨fun h => by_contra fun hsound => ?_, fun h => ⟨_, hlru, hshow h, hvictim⟩⟩
    obtain ⟨outs, -, hout, -⟩ := h
    rw [hstop hsound] at hout
    exact absurd hout (by simp)

end policies

/-- Sixty-four sets of one block of eight bytes. -/
def directConfig : Config := Config.ofWordLogs 6 0 .lru

/-- Accesses to one block in each of two sets. -/
theorem direct_mapped_sample :
    AgreesWithLru (journal directConfig) [] .nru [readAt 8, readAt 16, readAt 8] := by
  have hreqs : ∀ req ∈ [readAt 8, readAt 16, readAt 8],
      req.ok directConfig = true ∧ directConfig.baddr req.addr ≠ 0 := by decide
  refine (direct_mapped_iff (journal directConfig) rfl (fun h => absurd h (by decide)) hreqs).mpr ?_
  show List.Pairwise _ _
  decide

/-- Under `NRU`, a second block of a set finds no victim: the search looks past the only block
of the set. Under `DRRIP` the first block finds none. -/
theorem direct_mapped_second_block :
    outcomesUnder (journal directConfig) [] .lru [readAt 8, readAt 520] =
        some [⟨false, some 0, 0, []⟩, ⟨false, some 0, 8, []⟩] ∧
      ¬ AgreesWithLru (journal directConfig) [] .nru [readAt 8, readAt 520] ∧
      ¬ AgreesWithLru (journal directConfig) [] .drrip [readAt 8] := by
  have hnru : outcomesUnder (journal directConfig) [] .nru [readAt 8, readAt 520] = none := by
    decide +kernel
  have hdrrip : outcomesUnder (journal directConfig) [] .drrip [readAt 8] = none := by
    decide +kernel
  refine ⟨by decide +kernel, ?_, ?_⟩
  · rintro ⟨outs, -, h, -⟩
    rw [hnru] at h
    exact absurd h (by simp)
  · rintro ⟨outs, -, h, -⟩
    rw [hdrrip] at h
    exact absurd h (by simp)

end AdvancedArchitecture.Cache
