import Mathlib.Data.List.MinMax
import AdvancedArchitecture.Cache.FastHit

/-!
# Victims of the searches

The searches of `NRU` and `DRRIP` for a victim are compared with the algorithms that they are
meant to be. Both go on with the second block of the way list after they have renewed all
blocks, since the loop variable is set to `way_head` and then advanced: the first block is
never looked at after a renewal. What a search finds is described once, by the number of its
rounds (`search_spec`), and the comparison for each policy is a comparison of first elements
of a list: `nru_matches_iff`, `drrip_matches_iff`.
-/

namespace AdvancedArchitecture.Cache

open CacheSet

variable {W : Type} {cfg : Config} {E : Extern W cfg}

/-! ### What the algorithms are meant to do -/

/-- The blocks of a set in way order. -/
def CacheSet.wayList (s : CacheSet cfg) : List ℕ :=
  foldFrom (fun _ i => s.wayNext i) (fun l i => l ++ [i]) cfg.assoc s.wayHead []

/-- The block that a miss replaces. -/
def CacheT.victim (E : Extern W cfg) (c : CacheT cfg) (req : Request) (w : W) : Option ℕ :=
  ((c.sets.get (cfg.set req.addr).toNat).selectVictim E
    { c.regs with misses := c.regs.misses + 1 } w).map Prod.fst

/-- The `NRU` victim and the bits it leaves: the first block whose bit is set, or else the first
block, once all bits are set. -/
def CacheSet.nruReference (s : CacheSet cfg) : Option (ℕ × (ℕ → Bool)) :=
  match s.wayList.find? fun i => (s.line i).nruBit with
  | some i => some (i, fun j => if j = i then false else (s.line j).nruBit)
  | none => s.wayList.head?.map fun i => (i, fun j => if j = i then false else true)

/-- A miss replaces the reference victim and leaves the reference bits. -/
def NruMatches (E : Extern W cfg) (c : CacheT cfg) (req : Request) (w : W) (c' : CacheT cfg) :
    Prop :=
  ∃ v bits, (c.sets.get (cfg.set req.addr).toNat).nruReference = some (v, bits) ∧
    c.victim E req w = some v ∧
    ∀ j < cfg.assoc, ((c'.sets.get (cfg.set req.addr).toNat).line j).nruBit = bits j

/-- The largest prediction value of a set. -/
def CacheSet.maxRrpv (s : CacheSet cfg) : ℤ :=
  ((s.wayList.map fun i => (s.line i).rrpv).max?).getD 0

/-- A miss replaces the first block with the largest prediction value, ages the others by what
that value lacks of the bound, and gives the new block its insertion value. -/
def DrripMatches (E : Extern W cfg) (c : CacheT cfg) (req : Request) (w : W) (c' : CacheT cfg) :
    Prop :=
  let s := c.sets.get (cfg.set req.addr).toNat
  let s' := c'.sets.get (cfg.set req.addr).toNat
  ∃ v, c.victim E req w = some v ∧
    s.wayList.find? (fun i => (s.line i).rrpv = s.maxRrpv) = some v ∧
    (∀ j < cfg.assoc, j ≠ v →
      (s'.line j).rrpv = (s.line j).rrpv + (rrpvMax - s.maxRrpv)) ∧
    (s'.line v).rrpv = (drripInsert s.setType c.regs).1

/-- The condition for it: a block has reached the bound, or the first block is below the largest
value. -/
def CacheSet.DrripSound (s : CacheSet cfg) : Prop :=
  s.maxRrpv = rrpvMax ∨
    s.maxRrpv < rrpvMax ∧ ∀ i, s.wayHead = some i → (s.line i).rrpv < s.maxRrpv

/-! ### Rounds of a search -/

section search

variable {found : Line cfg → Bool} {f : Line cfg → Line cfg} {t t' : WaySet cfg} {i : ℕ}

/-- **The rounds of a search**: the last of them finds the block, past the first block of the
list, and the ones before it find nothing there. -/
theorem searchRounds_spec {n : ℕ} (h : t.searchRounds found f n = some (i, t')) :
    ∃ k < n, t' = t.renew f^[k + 1] ∧
      t.order.tail.find? (fun j => found (f^[k + 1] (t.lines j))) = some i ∧
      ∀ k' < k, t.order.tail.find? (fun j => found (f^[k' + 1] (t.lines j))) = none := by
  induction n generalizing t with
  | zero => exact absurd h (by simp [WaySet.searchRounds])
  | succ n ih =>
    rw [WaySet.searchRounds] at h
    rcases hfind : t.order.tail.find? fun j => found (f (t.lines j)) with _ | j
    · rw [hfind] at h
      obtain ⟨k, hk, ht', hi, hbefore⟩ := ih (t := t.renew f) h
      refine ⟨k + 1, by omega, ht', hi, fun k' hk' => ?_⟩
      rcases k' with _ | k'
      · exact hfind
      · exact hbefore k' (by omega)
    · rw [hfind] at h
      obtain ⟨rfl, rfl⟩ := Prod.mk.inj (Option.some.inj h)
      exact ⟨0, by omega, rfl, hfind, fun k' hk' => absurd hk' (Nat.not_lt_zero k')⟩

/-- **What a search finds**: the first block of the list without a renewal, or after `k + 1`
renewals the first of the others. -/
theorem search_spec (h : t.search found f = some (i, t')) :
    t' = t ∧ t.order.find? (fun j => found (t.lines j)) = some i ∨
      t.order.find? (fun j => found (t.lines j)) = none ∧
      ∃ k, t' = t.renew f^[k + 1] ∧
        t.order.tail.find? (fun j => found (f^[k + 1] (t.lines j))) = some i ∧
        ∀ k' < k, t.order.tail.find? (fun j => found (f^[k' + 1] (t.lines j))) = none := by
  rw [WaySet.search] at h
  rcases hfind : t.order.find? fun j => found (t.lines j) with _ | j
  · rw [hfind] at h
    obtain ⟨k, -, hk⟩ := searchRounds_spec h
    exact Or.inr ⟨rfl, k, hk⟩
  · rw [hfind] at h
    obtain ⟨rfl, rfl⟩ := Prod.mk.inj (Option.some.inj h)
    exact Or.inl ⟨rfl, rfl⟩

end search

/-! ### Misses -/

/-- A reachable cache refines a set-associative one. -/
theorem Refines.of_run {c c' : CacheT cfg} {a : WayCache cfg} (h : Refines c a) {w w' : W}
    {ops : List Op} {answers : List Answer}
    (hr : AdvancedArchitecture.run (CacheT.step E) (c, w) ops = some (answers, (c', w'))) :
    ∃ a', Refines c' a' := by
  refine run_invariant (I := fun s => ∃ a, Refines s.1 a) (CacheT.step E) ?_ ⟨a, h⟩ hr
  rintro ⟨c, w⟩ op ans ⟨c', w'⟩ ⟨a, h⟩ hs
  obtain ⟨a', -, h'⟩ := h.step_of_eq_some E hs
  exact ⟨a', h'⟩

/-- The replacement bits of a set that are left by a choice of the victim are left by the miss. -/
theorem WaySet.fill_bits (E : Extern W cfg) (t : WaySet cfg) (regs : Regs) (req : Request) (i : ℕ)
    (w : W) (j : ℕ) :
    ((t.fill E regs req i w).2.1.lines j).nruBit = (t.lines j).nruBit ∧
      ((t.fill E regs req i w).2.1.lines j).rrpv = (t.lines j).rrpv := by
  obtain ⟨ready, data, hfill⟩ := t.fill_line E regs req i w
  rw [hfill, setLine_lines]
  by_cases hji : j = i
  · rw [hji, Function.update_self]
    exact ⟨rfl, rfl⟩
  · rw [Function.update_of_ne hji]
    exact ⟨rfl, rfl⟩

/-- The way list is read off along `way_next`. -/
theorem CacheSet.wayList_eq {s : CacheSet cfg} {l : List ℕ} (h : s.ways.Represents l)
    (hl : l.length ≤ cfg.assoc) : s.wayList = l := by
  have hfold : s.wayList = l.foldl (fun l i => l ++ [i]) [] :=
    foldFrom_eq (fun _ i => s.wayNext i) _ (fun _ _ _ => rfl) h.fwd hl
  rw [hfold]
  have happ : ∀ l acc : List ℕ, l.foldl (fun l i => l ++ [i]) acc = acc ++ l := by
    intro l
    induction l with
    | nil => exact fun acc => (List.append_nil acc).symm
    | cons i l ih =>
      intro acc
      rw [List.foldl_cons, ih, List.append_assoc, List.singleton_append]
  exact happ l []

/-- A set of a cache, and the same set in the cache it refines. -/
theorem SetRefines.wayList {s : CacheSet cfg} {t : WaySet cfg} (h : SetRefines s t) :
    s.wayList = t.order := CacheSet.wayList_eq h.ways (SetRel.length_le h)

/-- What a miss chooses and leaves, seen from the set-associative cache. -/
structure Chosen (E : Extern W cfg) (c c' : CacheT cfg) (a : WayCache cfg) (req : Request) (w : W)
    (i : ℕ) (t : WaySet cfg) (regs : Regs) (w' : W) : Prop where
  select : (a.sets (cfg.set req.addr).toNat).selectVictim E
    { a.regs with misses := a.regs.misses + 1 } w = some (i, t, regs, w')
  victim : c.victim E req w = some i
  nruBit : ∀ j < cfg.assoc,
    ((c'.sets.get (cfg.set req.addr).toNat).line j).nruBit = (t.lines j).nruBit
  rrpv : ∀ j < cfg.assoc,
    ((c'.sets.get (cfg.set req.addr).toNat).line j).rrpv = (t.lines j).rrpv

theorem Refines.lookup_of_probe {c : CacheT cfg} {a : WayCache cfg} (h : Refines c a)
    {addr : MdAddr} (hp : c.probe addr = false) :
    (a.sets (cfg.set addr).toNat).lookup (cfg.tag addr) = none := by
  rw [h.probe, WayCache.probe, Option.isSome_eq_false_iff, Option.isNone_iff_eq_none] at hp
  exact hp

/-- **An access** hits a block, or chooses a victim and fills it. -/
theorem Refines.access_cases {c c' : CacheT cfg} {a : WayCache cfg} {req : Request} {w w' : W}
    {r : Reply} (h : Refines c a) (hr : c.access E req w = some (r, c', w')) :
    (c.probe req.addr = false ∧ ∃ i t regs w₁, Chosen E c c' a req w i t regs w₁ ∧
      Refines c' ⟨(t.fill E regs req i w₁).2.2.1,
        Function.update a.sets (cfg.set req.addr).toNat (t.fill E regs req i w₁).2.1⟩) ∨
    (c.probe req.addr = true ∧ ∃ i,
      (a.sets (cfg.set req.addr).toNat).lookup (cfg.tag req.addr) = some i ∧
      Refines c' (a.hit req i).2) := by
  obtain ⟨a', ha, hr'⟩ := h.access_of_eq_some E hr
  have hs := h.sets _ (Config.set_lt req.addr)
  have hinv := h.inv _ (Config.set_lt req.addr)
  obtain ⟨-, ⟨hl, hm⟩ | ⟨i, hl, -, rfl, -⟩⟩ := WayCache.access_eq_some ha
  case inr => exact Or.inr ⟨h.probe_of_lookup hl, i, hl, hr'⟩
  obtain ⟨i, t, regs, w₁, hsel, -, rfl, -⟩ := WayCache.miss_eq_some hm
  have hv := hs.selectVictim E hinv { a.regs with misses := a.regs.misses + 1 } w
  rw [hsel] at hv
  obtain ⟨⟨i', s, rest⟩, hi', hi, -⟩ := rel_of_some hv
  -- the block that was filled has the bits of the victim
  have hline : ∀ j < cfg.assoc, (c'.sets.get (cfg.set req.addr).toNat).line j =
      (t.fill E regs req i w₁).2.1.lines j := by
    intro j hj
    have hl := (hr'.sets _ (Config.set_lt req.addr)).line j
      (((hr'.inv _ (Config.set_lt req.addr)).mem j).mpr hj)
    dsimp only at hl
    rw [Function.update_self] at hl
    exact hl
  refine Or.inl ⟨h.probe_of_lookup hl, i, t, regs, w₁, ⟨hsel, ?_, fun j hj => ?_, fun j hj => ?_⟩,
    hr'⟩
  · rw [CacheT.victim, h.regs, hi', Option.map_some]
    exact congrArg some hi
  · rw [hline j hj, (t.fill_bits E regs req i w₁ j).1]
  · rw [hline j hj, (t.fill_bits E regs req i w₁ j).2]

/-- An access that misses chooses a victim. -/
theorem Refines.chosen {c c' : CacheT cfg} {a : WayCache cfg} {req : Request} {w w' : W} {r : Reply}
    (h : Refines c a) (hr : c.access E req w = some (r, c', w'))
    (hp : c.probe req.addr = false) : ∃ i t regs w₁, Chosen E c c' a req w i t regs w₁ := by
  obtain ⟨-, i, t, regs, w₁, hch, -⟩ | ⟨hhit, -⟩ := h.access_cases hr
  · exact ⟨i, t, regs, w₁, hch⟩
  · exact absurd (hhit.symm.trans hp) (by decide)

/-- A miss returns if it chooses a victim. -/
theorem Refines.access_returns {c : CacheT cfg} {a : WayCache cfg} (h : Refines c a) {req : Request}
    {w : W} (hok : req.ok cfg = true) (hlast : cfg.tagset req.addr ≠ c.lastTagset)
    (hp : c.probe req.addr = false)
    (hsel : ((a.sets (cfg.set req.addr).toNat).selectVictim E
      { a.regs with misses := a.regs.misses + 1 } w).isSome = true) :
    ∃ p, c.access E req w = some p := by
  have hrel := h.miss E (h.lookup_of_probe hp) w
  have hl := h.lookup req.addr
  rw [h.lookup_of_probe hp] at hl
  rw [CacheT.access, if_neg (not_not.mpr hok), if_neg hlast, hl]
  obtain ⟨⟨i, t, regs, w₁⟩, hsel⟩ := Option.isSome_iff_exists.mp hsel
  rw [WayCache.miss, hsel, Option.map_some] at hrel
  obtain ⟨p, hp, -⟩ := rel_of_some hrel
  exact ⟨p, hp⟩

/-! ### `NRU` -/

section nru

variable {t t' : WaySet cfg} {i : ℕ} {w w' : W} {regs regs' : Regs}

/-- **What an `NRU` miss chooses**: the first block whose bit is set, or else the second block. -/
theorem selectVictim_nru (hp : cfg.policy = .nru)
    (h : t.selectVictim E regs w = some (i, t', regs', w')) :
    t.order.find? (fun j => (t.lines j).nruBit) = some i ∧
        (∀ j, (t'.lines j).nruBit = if j = i then false else (t.lines j).nruBit) ∨
      t.order.find? (fun j => (t.lines j).nruBit) = none ∧ t.order.tail.head? = some i ∧
        ∀ j, (t'.lines j).nruBit = if j = i then false else true := by
  simp only [WaySet.selectVictim, hp] at h
  obtain ⟨⟨j, t₁⟩, hs, heq⟩ := Option.map_eq_some_iff.mp h
  simp only [Prod.mk.injEq] at heq
  obtain ⟨rfl, rfl, -, -⟩ := heq
  -- the bits after the victim's is cleared
  have hbits : ∀ k, ((t₁.setLine j { t₁.lines j with nruBit := false }).lines k).nruBit =
      if k = j then false else (t₁.lines k).nruBit := by
    intro k
    rw [WaySet.setLine_lines]
    by_cases hkj : k = j
    · rw [hkj, Function.update_self, if_pos rfl]
    · rw [Function.update_of_ne hkj, if_neg hkj]
  have hset : ∀ (k : ℕ) (l : Line cfg),
      ((fun l : Line cfg => { l with nruBit := true })^[k + 1] l).nruBit = true := by
    intro k l
    rw [Function.iterate_succ_apply']
  rcases search_spec hs with ⟨rfl, hfind⟩ | ⟨hnone, k, rfl, hfind, -⟩
  · exact Or.inl ⟨hfind, hbits⟩
  · refine Or.inr ⟨hnone, ?_, fun l => ?_⟩
    · simp only [hset] at hfind
      rw [← hfind]
      cases t.order.tail <;> rfl
    · rw [hbits, WaySet.renew_lines, hset]

end nru

/-- The head of a list is not in its tail. -/
theorem head_ne_of_mem_tail {l : List ℕ} (hnd : l.Nodup) {x y : ℕ} (hx : l.head? = some x)
    (hy : y ∈ l.tail) : x ≠ y := by
  obtain ⟨l', rfl⟩ := List.head?_eq_some_iff.mp hx
  rintro rfl
  exact (List.nodup_cons.mp hnd).1 hy

/-- An `NRU` miss is the reference miss if and only if some bit of the set is set. -/
theorem Refines.nruMatches_iff {c c' : CacheT cfg} {a : WayCache cfg} (h : Refines c a)
    (hp : cfg.policy = .nru) {req : Request} {w w' : W} {r : Reply}
    (hr : c.access E req w = some (r, c', w')) (hmiss : c.probe req.addr = false) :
    NruMatches E c req w c' ↔
      ∃ j < cfg.assoc, ((c.sets.get (cfg.set req.addr).toNat).line j).nruBit = true := by
  obtain ⟨i, t, regs, w₁, hch⟩ := h.chosen hr hmiss
  have hs := h.sets _ (Config.set_lt req.addr)
  have hinv := h.inv _ (Config.set_lt req.addr)
  -- the reference, read off the set-associative cache
  have hfind : (c.sets.get (cfg.set req.addr).toNat).wayList.find?
        (fun j => ((c.sets.get (cfg.set req.addr).toNat).line j).nruBit) =
      (a.sets (cfg.set req.addr).toNat).order.find?
        fun j => ((a.sets (cfg.set req.addr).toNat).lines j).nruBit := by
    rw [hs.wayList]
    refine List.find?_congr fun j hj => ?_
    rw [hs.line j hj]
  have hline : ∀ j < cfg.assoc, (c.sets.get (cfg.set req.addr).toNat).line j =
      (a.sets (cfg.set req.addr).toNat).lines j := fun j hj => hs.line j ((hinv.mem j).mpr hj)
  rw [NruMatches, nruReference, hfind, hch.victim, hs.wayList]
  rcases selectVictim_nru hp hch.select with ⟨hsome, hbits⟩ | ⟨hnone, hsecond, -⟩
  · have hi := List.mem_of_find?_eq_some hsome
    refine iff_of_true ⟨i, _, by rw [hsome], rfl, fun j hj => ?_⟩
      ⟨i, (hinv.mem i).mp hi, ?_⟩
    · rw [hch.nruBit j hj, hbits, hline j hj]
    · rw [hline i ((hinv.mem i).mp hi)]
      simpa using List.find?_some hsome
  · refine iff_of_false ?_ ?_
    · -- the reference victim is the first block, that of the code the second
      rw [hnone]
      rintro ⟨v, bits, href, hv, -⟩
      obtain ⟨x, hx, heq⟩ := Option.map_eq_some_iff.mp href
      obtain ⟨rfl, -⟩ := Prod.mk.inj heq
      exact head_ne_of_mem_tail hinv.nodup hx (List.mem_of_head? hsecond) (Option.some.inj hv).symm
    · rintro ⟨j, hj, hbit⟩
      rw [hline j hj] at hbit
      exact absurd hbit (List.find?_eq_none.mp hnone j ((hinv.mem j).mpr hj))

/-- **`NRU` victims.** A miss of a reachable cache returns with the victim and the bits of the
reference algorithm if and only if some block of the set has its bit set. -/
theorem nru_matches_iff {c₀ c : CacheT cfg} (hp : cfg.policy = .nru)
    (hc : cacheCreate cfg = some c₀) (E : Extern W cfg) {w₀ w : W} {ops : List Op}
    {answers : List Answer} (hrun : run (CacheT.step E) (c₀, w₀) ops = some (answers, (c, w)))
    (req : Request) (hok : req.ok cfg = true) (hlast : cfg.tagset req.addr ≠ c.lastTagset)
    (hmiss : c.probe req.addr = false) :
    (∃ r c' w', c.access E req w = some (r, c', w') ∧ NruMatches E c req w c') ↔
      ∃ j < cfg.assoc, ((c.sets.get (cfg.set req.addr).toNat).line j).nruBit = true := by
  obtain ⟨a, ha⟩ := (refines_create hc).of_run hrun
  refine ⟨?_, fun hbit => ?_⟩
  · rintro ⟨r, c', w', hr, hm⟩
    exact (ha.nruMatches_iff hp hr hmiss).mp hm
  · have hs := ha.sets _ (Config.set_lt req.addr)
    have hinv := ha.inv _ (Config.set_lt req.addr)
    -- a set bit ends the search in its first pass
    obtain ⟨j, hj, hj'⟩ := hbit
    have hm := (hinv.mem j).mpr hj
    rw [hs.line j hm] at hj'
    have hsel : ((a.sets (cfg.set req.addr).toNat).selectVictim E
        { a.regs with misses := a.regs.misses + 1 } w).isSome = true := by
      simp only [WaySet.selectVictim, hp]
      rw [Option.isSome_map, WaySet.search]
      rcases hfind : (a.sets (cfg.set req.addr).toNat).order.find?
          fun j => ((a.sets (cfg.set req.addr).toNat).lines j).nruBit with _ | i
      · exact absurd hj' (List.find?_eq_none.mp hfind j hm)
      · rfl
    obtain ⟨⟨r, c', w'⟩, hr⟩ := ha.access_returns hok hlast hmiss hsel
    exact ⟨r, c', w', hr, (ha.nruMatches_iff hp hr hmiss).mpr ⟨j, hj, by rw [hs.line j hm, hj']⟩⟩

/-- One set of two blocks of eight bytes, replaced by `NRU`. -/
def nruConfig : Config := Config.ofWordLogs 0 1 .nru

/-- A read of one byte. -/
def readAt (addr : MdAddr) : Request := ⟨.read, addr, [0], 1, 0⟩

/-- The first miss of a two-way cache replaces the reference victim. -/
theorem nru_matches_sample : ∃ c₀, cacheCreate nruConfig = some c₀ ∧
    ∃ r c' w', c₀.access (journal _) (readAt 8) [] = some (r, c', w') ∧
      NruMatches (journal _) c₀ (readAt 8) [] c' := by
  let c₀ := (cacheCreate nruConfig).get (by decide)
  have hc : cacheCreate nruConfig = some c₀ := (Option.some_get _).symm
  have hrun : run (CacheT.step (journal nruConfig)) (c₀, []) [] = some ([], (c₀, [])) := rfl
  have hm := (nru_matches_iff rfl hc (journal _) hrun (readAt 8) (by decide) (by decide)
    (by decide)).mpr ⟨0, by decide, by decide⟩
  exact ⟨c₀, hc, hm⟩

/-- Two misses clear both bits of a two-way set. The third replaces block 0, the second of the
way list, where the reference replaces block 1. -/
theorem nru_second_block : ∃ c₀ answers c w, cacheCreate nruConfig = some c₀ ∧
    run (CacheT.step (journal _)) (c₀, []) [.access (readAt 8), .access (readAt 16)] =
      some (answers, (c, w)) ∧
    c.probe (readAt 24).addr = false ∧
    ¬ ∃ r c' w', c.access (journal _) (readAt 24) w = some (r, c', w') ∧
      NruMatches (journal _) c (readAt 24) w c' := by
  let c₀ := (cacheCreate nruConfig).get (by decide)
  have hc : cacheCreate nruConfig = some c₀ := (Option.some_get _).symm
  have hs : (run (CacheT.step (journal _)) (c₀, [])
      [.access (readAt 8), .access (readAt 16)]).map (fun r =>
        (r.2.1.probe (readAt 24).addr, r.2.1.victim (journal _) (readAt 24) r.2.2,
          (r.2.1.sets.get (nruConfig.set (readAt 24).addr).toNat).nruReference.map Prod.fst)) =
      some (false, some 0, some 1) := by decide +kernel
  obtain ⟨⟨answers, c, w⟩, hr, heq⟩ := Option.map_eq_some_iff.mp hs
  simp only [Prod.mk.injEq] at heq
  obtain ⟨hp, hv, href⟩ := heq
  refine ⟨c₀, answers, c, w, hc, hr, hp, ?_⟩
  rintro ⟨r, c', w', -, v, bits, hn, hv', -⟩
  rw [hn] at href
  obtain rfl : v = 1 := Option.some.inj href
  exact absurd (hv.symm.trans hv') (by decide)

/-! ### Aging -/

section aging

variable {l : List ℕ} {v : ℕ → ℤ} {m : ℤ} {i k : ℕ}

/-- `m` is the largest value of a list. -/
def Largest (l : List ℕ) (v : ℕ → ℤ) (m : ℤ) : Prop := (∃ i ∈ l, v i = m) ∧ ∀ i ∈ l, v i ≤ m

/-- The search for a block of value `RRPV_MAX` finds `i` after `k` rounds of aging: the first
block of the list without a round, and the first of the others with one. -/
structure Aged (l : List ℕ) (v : ℕ → ℤ) (i k : ℕ) : Prop where
  value : v i + k = rrpvMax
  first : k = 0 → l.find? (fun j => v j = rrpvMax) = some i
  later : 0 < k → l.tail.find? (fun j => v j + k = rrpvMax) = some i
  none : 0 < k → ∀ j ∈ l, v j ≠ rrpvMax
  before : ∀ k', 0 < k' → k' < k → ∀ j ∈ l.tail, v j + k' ≠ rrpvMax

/-- **Aging finds the largest value** if and only if it is the bound already or the first block
is below it: a first block of the largest value is aged past the bound. -/
theorem Aged.find?_largest_iff (h : Aged l v i k) (hnd : l.Nodup) (hm : Largest l v m) :
    l.find? (fun j => v j = m) = some i ↔
      m = rrpvMax ∨ m < rrpvMax ∧ ∀ x, l.head? = some x → v x < m := by
  obtain ⟨⟨j, hj, hjm⟩, hle⟩ := hm
  refine ⟨fun hfind => ?_, ?_⟩
  · have him : v i = m := by simpa using List.find?_some hfind
    have hval := h.value
    rcases Nat.eq_zero_or_pos k with hk | hk
    · left
      rw [hk] at hval
      omega
    · refine Or.inr ⟨by omega, fun x hx => ?_⟩
      obtain ⟨l', rfl⟩ := List.head?_eq_some_iff.mp hx
      rcases lt_or_eq_of_le (hle x List.mem_cons_self) with hlt | heq
      · exact hlt
      · -- the first block would be found first, and is not searched
        rw [List.find?_cons_of_pos (by simpa using heq)] at hfind
        have hi := List.mem_of_find?_eq_some (h.later hk)
        exact absurd (Option.some.inj hfind) (head_ne_of_mem_tail hnd hx hi)
  · rintro (rfl | ⟨hlt, hhead⟩)
    · rcases Nat.eq_zero_or_pos k with hk | hk
      · exact h.first hk
      · exact absurd hjm (h.none hk j hj)
    · have hval := h.value
      rcases Nat.eq_zero_or_pos k with hk | hk
      · rw [hk] at hval
        have him := hle i (List.mem_of_find?_eq_some (h.first hk))
        omega
      · have hi := hle i (List.mem_of_mem_tail (List.mem_of_find?_eq_some (h.later hk)))
        obtain ⟨x, l', rfl⟩ := List.exists_cons_of_ne_nil (List.ne_nil_of_mem hj)
        have hx := hhead x rfl
        have hjt : j ∈ l' := by
          rcases List.mem_cons.mp hj with rfl | hj
          · omega
          · exact hj
        -- the largest value is found in its own round
        have hround : (k : ℤ) = rrpvMax - m := by
          by_contra hne
          refine h.before (rrpvMax - m).toNat (by omega) (by omega) j hjt ?_
          omega
        rw [List.find?_cons_of_neg (by simpa using hx.ne), ← h.later hk]
        refine List.find?_congr fun y _ => decide_eq_decide.mpr ?_
        omega

end aging

/-! ### `DRRIP` -/

section drrip

variable {t t' : WaySet cfg} {i : ℕ} {w w' : W} {regs regs' : Regs}

/-- Rounds of aging. -/
theorem rrpv_iterate (k : ℕ) (l : Line cfg) :
    ((fun l : Line cfg => { l with rrpv := l.rrpv + 1 })^[k] l).rrpv = l.rrpv + k := by
  induction k generalizing l with
  | zero => exact (add_zero _).symm
  | succ k ih =>
    rw [Function.iterate_succ_apply, ih, Nat.cast_add, Nat.cast_one]
    dsimp only
    ring

/-- **What a `DRRIP` miss chooses**: the block that aging finds; the others keep their age. -/
theorem selectVictim_drrip (hp : cfg.policy = .drrip)
    (h : t.selectVictim E regs w = some (i, t', regs', w')) :
    ∃ k, Aged t.order (fun j => (t.lines j).rrpv) i k ∧
      ∀ j, (t'.lines j).rrpv =
        if j = i then (drripInsert t.setType regs).1 else (t.lines j).rrpv + k := by
  simp only [WaySet.selectVictim, hp] at h
  obtain ⟨⟨j, t₁⟩, hs, heq⟩ := Option.map_eq_some_iff.mp h
  simp only [Prod.mk.injEq] at heq
  obtain ⟨rfl, rfl, -, -⟩ := heq
  obtain ⟨-, -, hty⟩ := search_mem hs
  have hval : ∀ k : ℕ, (∀ l, (t₁.lines l).rrpv = (t.lines l).rrpv + k) → ∀ l,
      ((t₁.setLine j { t₁.lines j with rrpv := (drripInsert t₁.setType regs).1 }).lines l).rrpv =
        if l = j then (drripInsert t.setType regs).1 else (t.lines l).rrpv + k := by
    intro k hk l
    rw [WaySet.setLine_lines, hty]
    by_cases hlj : l = j
    · rw [hlj, Function.update_self, if_pos rfl]
    · rw [Function.update_of_ne hlj, if_neg hlj, hk]
  rcases search_spec hs with ⟨rfl, hfind⟩ | ⟨hnone, k, rfl, hfind, hbefore⟩
  · -- found in the first pass
    refine ⟨0, ⟨?_, fun _ => hfind, fun h => absurd h (lt_irrefl 0),
      fun h => absurd h (lt_irrefl 0), fun k' h h' => absurd h' (Nat.not_lt_zero k')⟩,
      hval 0 fun l => (add_zero _).symm⟩
    simpa using List.find?_some hfind
  · -- found after `k + 1` rounds, and in none before
    simp only [rrpv_iterate] at hfind hbefore
    refine ⟨k + 1, ⟨?_, fun h => absurd h (Nat.succ_ne_zero k), fun _ => hfind, fun _ l hl => ?_,
      fun k' hk' hlt l hl => ?_⟩, hval (k + 1) fun l => rrpv_iterate (k + 1) _⟩
    · simpa using List.find?_some hfind
    · simpa using List.find?_eq_none.mp hnone l hl
    · obtain ⟨n, rfl⟩ : ∃ n, k' = n + 1 := ⟨k' - 1, by omega⟩
      simpa using List.find?_eq_none.mp (hbefore n (by omega)) l hl

/-- The largest value of a set, read off the set-associative cache. -/
theorem SetRefines.largest {s : CacheSet cfg} (h : SetRefines s t) (hne : t.order ≠ []) :
    Largest t.order (fun j => (t.lines j).rrpv) s.maxRrpv := by
  have hmap : (s.wayList.map fun i => (s.line i).rrpv) = t.order.map fun i => (t.lines i).rrpv := by
    rw [h.wayList]
    exact List.map_congr_left fun j hj => by rw [h.line j hj]
  obtain ⟨m, hm⟩ := Option.isSome_iff_exists.mp
    (List.isSome_max?_of_ne_nil (l := t.order.map fun i => (t.lines i).rrpv) (by simpa using hne))
  rw [maxRrpv, hmap, hm, Option.getD_some]
  obtain ⟨hmem, hle⟩ := List.max?_eq_some_iff.mp hm
  obtain ⟨j, hj, hjm⟩ := List.mem_map.mp hmem
  exact ⟨⟨j, hj, hjm⟩, fun k hk => hle _ (List.mem_map_of_mem hk)⟩

/-- The condition, read off the set-associative cache. -/
theorem SetRefines.drripSound_iff {s : CacheSet cfg} (h : SetRefines s t) :
    s.DrripSound ↔ s.maxRrpv = rrpvMax ∨
      s.maxRrpv < rrpvMax ∧ ∀ x, t.order.head? = some x → (t.lines x).rrpv < s.maxRrpv := by
  refine or_congr_right (and_congr_right fun _ => forall_congr' fun x => ?_)
  rw [SetRel.wayHead h]
  refine imp_congr_right fun hx => ?_
  rw [h.line x (List.mem_of_head? hx)]

/-- A search that aging ends returns. -/
theorem searchRounds_isSome {found : Line cfg → Bool} {f : Line cfg → Line cfg} {n k j : ℕ}
    (hk : k < n) (hj : j ∈ t.order.tail) (hfound : found (f^[k + 1] (t.lines j)) = true) :
    (t.searchRounds found f n).isSome = true := by
  induction n generalizing t k with
  | zero => exact absurd hk (Nat.not_lt_zero k)
  | succ n ih =>
    rw [WaySet.searchRounds]
    rcases hfind : t.order.tail.find? fun j => found (f (t.lines j)) with _ | i
    · rcases k with _ | k
      · exact absurd hfound (by simpa using List.find?_eq_none.mp hfind j hj)
      · exact ih (t := t.renew f) (k := k) (by omega) hj hfound
    · rfl

end drrip

/-- The insertion value does not depend on the statistics. -/
theorem drripInsert_misses (ty : SetType) (regs : Regs) (misses : ℤ) :
    (drripInsert ty { regs with misses }).1 = (drripInsert ty regs).1 := by
  cases ty <;> simp only [drripInsert, brripInsert]
  all_goals split_ifs <;> rfl

/-- A `DRRIP` miss is the reference miss if and only if the condition holds. -/
theorem Refines.drripMatches_iff {c c' : CacheT cfg} {a : WayCache cfg} (h : Refines c a)
    (hp : cfg.policy = .drrip) {req : Request} {w w' : W} {r : Reply}
    (hr : c.access E req w = some (r, c', w')) (hmiss : c.probe req.addr = false) :
    DrripMatches E c req w c' ↔ (c.sets.get (cfg.set req.addr).toNat).DrripSound := by
  obtain ⟨i, t, regs, w₁, hch⟩ := h.chosen hr hmiss
  have hs := h.sets _ (Config.set_lt req.addr)
  have hinv := h.inv _ (Config.set_lt req.addr)
  have hline : ∀ j < cfg.assoc, (c.sets.get (cfg.set req.addr).toNat).line j =
      (a.sets (cfg.set req.addr).toNat).lines j := fun j hj => hs.line j ((hinv.mem j).mpr hj)
  have hlargest := hs.largest hinv.order_ne_nil
  obtain ⟨k, haged, hbits⟩ := selectVictim_drrip hp hch.select
  have hi : i < cfg.assoc :=
    (hinv.mem i).mp (selectVictim_spec hinv hch.select).1.mem
  -- the first block of the largest value
  have hfind : (c.sets.get (cfg.set req.addr).toNat).wayList.find?
        (fun j => ((c.sets.get (cfg.set req.addr).toNat).line j).rrpv =
          (c.sets.get (cfg.set req.addr).toNat).maxRrpv) =
      (a.sets (cfg.set req.addr).toNat).order.find?
        fun j => ((a.sets (cfg.set req.addr).toNat).lines j).rrpv =
          (c.sets.get (cfg.set req.addr).toNat).maxRrpv := by
    rw [hs.wayList]
    refine List.find?_congr fun j hj => ?_
    rw [hs.line j hj]
  rw [hs.drripSound_iff, ← haged.find?_largest_iff hinv.nodup hlargest, DrripMatches,
    hfind, hch.victim]
  refine ⟨?_, fun hv => ⟨i, rfl, hv, fun j hj hji => ?_, ?_⟩⟩
  · rintro ⟨v, hv, hfirst, -⟩
    rw [hfirst, hv]
  · -- the rounds are what the largest value lacks of the bound
    have him : ((a.sets (cfg.set req.addr).toNat).lines i).rrpv =
        (c.sets.get (cfg.set req.addr).toNat).maxRrpv := by simpa using List.find?_some hv
    have hval := haged.value
    rw [hch.rrpv j hj, hbits, if_neg hji, hline j hj]
    omega
  · rw [hch.rrpv i hi, hbits, if_pos rfl, SetRel.setType hs, h.regs,
      drripInsert_misses]

/-- Under the condition a `DRRIP` search returns. -/
theorem selectVictim_drrip_isSome {t : WaySet cfg} (hp : cfg.policy = .drrip) (hi : t.Inv) {m : ℤ}
    (hm : Largest t.order (fun j => (t.lines j).rrpv) m)
    (hcond : m = rrpvMax ∨ m < rrpvMax ∧ ∀ x, t.order.head? = some x → (t.lines x).rrpv < m)
    (regs : Regs) (w : W) : (t.selectVictim E regs w).isSome = true := by
  obtain ⟨⟨j, hj, hjm⟩, -⟩ := hm
  dsimp only at hjm
  have hnn := hi.rrpv_nonneg j hj
  simp only [WaySet.selectVictim, hp]
  rw [Option.isSome_map, WaySet.search]
  rcases hfind : t.order.find? fun j => decide ((t.lines j).rrpv = rrpvMax) with _ | x
  · dsimp only
    rcases hcond with rfl | ⟨hlt, hhead⟩
    · exact absurd hjm (by simpa using List.find?_eq_none.mp hfind j hj)
    · -- the block of the largest value is not the first, and aging reaches it
      have htail : j ∈ t.order.tail := by
        obtain ⟨x, l, hl⟩ := List.exists_cons_of_ne_nil hi.order_ne_nil
        rw [hl] at hj hhead ⊢
        rcases List.mem_cons.mp hj with rfl | hj
        · exact absurd (hhead j rfl) (by omega)
        · exact hj
      have hmax : rrpvMax = 7 := rfl
      refine searchRounds_isSome (k := (rrpvMax - m - 1).toNat) ?_ htail ?_
      · omega
      · simp only [rrpv_iterate, decide_eq_true_eq]
        omega
  · rfl

/-- The insertion values are in range. -/
theorem drripInsert_le (ty : SetType) (regs : Regs) : (drripInsert ty regs).1 ≤ rrpvMax := by
  rcases drripInsert_cases ty regs with h | h
  · rw [h]
    decide
  · exact h.le

/-- No prediction value is past the bound. -/
def WayCache.InRange (a : WayCache cfg) : Prop :=
  ∀ i < cfg.nsets, ∀ j ∈ (a.sets i).order, ((a.sets i).lines j).rrpv ≤ rrpvMax

/-- A set rewritten. -/
theorem WayCache.InRange.update {a : WayCache cfg} (h : a.InRange) {i : ℕ} {t : WaySet cfg}
    (ht : ∀ j ∈ t.order, (t.lines j).rrpv ≤ rrpvMax) (regs : Regs) :
    InRange ⟨regs, Function.update a.sets i t⟩ :=
  (Function.forall_update_iff a.sets
    (p := fun k s => k < cfg.nsets → ∀ j ∈ s.order, (s.lines j).rrpv ≤ rrpvMax)).mpr
      ⟨fun _ => ht, fun k _ => h k⟩

/-- **Aging stays in range** if and only if some block has reached the bound or one that is not
the first has the largest value: a first block of the largest value that is alone with it is
aged past the bound. -/
theorem Aged.le_iff {l : List ℕ} {v : ℕ → ℤ} {m : ℤ} {i k : ℕ} (h : Aged l v i k)
    (hm : Largest l v m) (hle : m ≤ rrpvMax) :
    (∀ j ∈ l, j ≠ i → v j + k ≤ rrpvMax) ↔ m = rrpvMax ∨ ∃ j ∈ l.tail, v j = m := by
  obtain ⟨⟨x, hx, hxm⟩, hmax⟩ := hm
  have hval := h.value
  refine ⟨fun hall => ?_, fun hcond j hj _ => ?_⟩
  · rcases hle.lt_or_eq with hlt | heq
    · refine Or.inr (by_contra fun hnone => ?_)
      have hk : 0 < k := by
        rcases Nat.eq_zero_or_pos k with hk | hk
        · have hi := hmax i (List.mem_of_find?_eq_some (h.first hk))
          rw [hk] at hval
          omega
        · exact hk
      have hi : i ∈ l.tail := List.mem_of_find?_eq_some (h.later hk)
      -- the first block alone has the largest value, and is aged with the others
      have hxi : x ≠ i := by
        rintro rfl
        exact hnone ⟨x, hi, hxm⟩
      have him : v i < m := lt_of_le_of_ne (hmax i (List.mem_of_mem_tail hi)) fun he =>
        hnone ⟨i, hi, he⟩
      have hover := hall x hx hxi
      omega
    · exact Or.inl heq
  · have hj' := hmax j hj
    rcases Nat.eq_zero_or_pos k with hk | hk
    · omega
    · rcases hcond with rfl | ⟨y, hy, hym⟩
      · exact absurd hxm (h.none hk x hx)
      · rcases hle.lt_or_eq with hlt | heq
        · have hround : ¬ (rrpvMax - m).toNat < k := fun hlt' =>
            h.before (rrpvMax - m).toNat (by omega) hlt' y hy (by omega)
          omega
        · exact absurd (hxm.trans heq) (h.none hk x hx)

/-- The condition for the values to stay in range: if the call is an access that misses, some
block of its set has reached the bound, or one that is not the first has the largest value. -/
def MissInRange (c : CacheT cfg) : Op → Prop
  | .access req => c.probe req.addr = false →
    (c.sets.get (cfg.set req.addr).toNat).maxRrpv = rrpvMax ∨
      ∃ j ∈ (c.sets.get (cfg.set req.addr).toNat).wayList.tail,
        ((c.sets.get (cfg.set req.addr).toNat).line j).rrpv =
          (c.sets.get (cfg.set req.addr).toNat).maxRrpv
  | _ => True

/-- Every prediction value is between 0 and `RRPV_MAX`. -/
def CacheT.InRange (c : CacheT cfg) : Prop :=
  ∀ i < cfg.nsets, ∀ j < cfg.assoc,
    0 ≤ ((c.sets.get i).line j).rrpv ∧ ((c.sets.get i).line j).rrpv ≤ rrpvMax

theorem Refines.inRange_iff {c : CacheT cfg} {a : WayCache cfg} (h : Refines c a) :
    c.InRange ↔ a.InRange := by
  refine ⟨fun hc i hi j hj => ?_, fun ha i hi j hj => ?_⟩
  · rw [← (h.sets i hi).line j hj]
    exact (hc i hi j (((h.inv i hi).mem j).mp hj)).2
  · have hm := ((h.inv i hi).mem j).mpr hj
    rw [(h.sets i hi).line j hm]
    exact ⟨(h.inv i hi).rrpv_nonneg j hm, ha i hi j hm⟩

/-- The condition, read off the set-associative cache. -/
theorem Refines.missInRange_iff {c : CacheT cfg} {a : WayCache cfg} (h : Refines c a)
    {req : Request} (hprobe : c.probe req.addr = false) :
    MissInRange c (.access req) ↔
      (c.sets.get (cfg.set req.addr).toNat).maxRrpv = rrpvMax ∨
        ∃ j ∈ (a.sets (cfg.set req.addr).toNat).order.tail,
          ((a.sets (cfg.set req.addr).toNat).lines j).rrpv =
            (c.sets.get (cfg.set req.addr).toNat).maxRrpv := by
  have hset := h.sets _ (Config.set_lt req.addr)
  rw [MissInRange, hset.wayList]
  refine ⟨fun hc => ?_, fun hc _ => ?_⟩
  · refine (hc hprobe).imp_right ?_
    rintro ⟨j, hj, hjm⟩
    refine ⟨j, hj, ?_⟩
    rw [← hjm, hset.line j (List.mem_of_mem_tail hj)]
  · refine hc.imp_right ?_
    rintro ⟨j, hj, hjm⟩
    refine ⟨j, hj, ?_⟩
    rw [← hjm, hset.line j (List.mem_of_mem_tail hj)]

/-- A `DRRIP` miss keeps the values in range if and only if the condition holds. -/
theorem Refines.miss_inRange_iff {c : CacheT cfg} {a a' : WayCache cfg} (h : Refines c a)
    (hrange : a.InRange) (hp : cfg.policy = .drrip) {req : Request}
    (hprobe : c.probe req.addr = false) {w w' : W} {r : Reply}
    (hr : a.miss E req w = some (r, a', w')) :
    a'.InRange ↔ MissInRange c (.access req) := by
  have hlt : (cfg.set req.addr).toNat < cfg.nsets := Config.set_lt req.addr
  have hinv := h.inv _ hlt
  have hset := h.sets _ hlt
  have hm := hset.largest hinv.order_ne_nil
  obtain ⟨i, t, regs, w₁, hsel, -, rfl, -⟩ := WayCache.miss_eq_some hr
  have hs := (selectVictim_spec hinv hsel).1
  obtain ⟨ready, data, hfill⟩ := t.fill_line E regs req i w₁
  have horder : ∀ j, j ∈ (t.fill E regs req i w₁).2.1.order ↔
      j ∈ (a.sets (cfg.set req.addr).toNat).order := by
    intro j
    rw [hfill]
    exact hs.mem_iff j
  obtain ⟨k, haged, hbits⟩ := selectVictim_drrip hp hsel
  have hval : ∀ j, ((t.fill E regs req i w₁).2.1.lines j).rrpv = if j = i then
      (drripInsert (a.sets (cfg.set req.addr).toNat).setType
        { a.regs with misses := a.regs.misses + 1 }).1
      else ((a.sets (cfg.set req.addr).toNat).lines j).rrpv + k := by
    intro j
    rw [(t.fill_bits E regs req i w₁ j).2, hbits]
  -- the largest value was in range before the miss
  have hle : (c.sets.get (cfg.set req.addr).toNat).maxRrpv ≤ rrpvMax := by
    obtain ⟨⟨x, hx, hxm⟩, -⟩ := hm
    rw [← hxm]
    exact hrange _ hlt x hx
  rw [h.missInRange_iff hprobe, ← haged.le_iff hm hle]
  refine ⟨fun hall j hj hji => ?_, fun hall => hrange.update (fun j hj => ?_) _⟩
  · have hset' := hall _ hlt j
    dsimp only at hset'
    rw [Function.update_self, horder, hval, if_neg hji] at hset'
    exact hset' hj
  · rw [hval]
    split_ifs with hji
    · exact drripInsert_le _ _
    · exact hall j ((horder j).mp hj) hji

/-- **Values stay in range** through a call if and only if the condition holds. -/
theorem Refines.step_inRange_iff {c : CacheT cfg} {a a' : WayCache cfg} (h : Refines c a)
    (hrange : a.InRange) (hp : cfg.policy = .drrip) {op : Op} {w w' : W} {ans : Answer}
    (hs : WayCache.step E (a, w) op = some (ans, (a', w'))) : a'.InRange ↔ MissInRange c op := by
  cases op with
  | access req =>
    obtain ⟨r, -, hacc⟩ := WayCache.step_access hs
    obtain ⟨-, ⟨hl, hm⟩ | ⟨i, hl, -, rfl, -⟩⟩ := WayCache.access_eq_some hacc
    · exact h.miss_inRange_iff hrange hp (h.probe_of_lookup hl) hm
    · have hprobe : c.probe req.addr = true := h.probe_of_lookup hl
      refine iff_of_true (hrange.update (fun j hj => ?_) _)
        fun hmiss => absurd (hprobe.symm.trans hmiss) (by decide)
      -- the block that is hit has value 0
      rw [WaySet.hit, if_neg (by simp [hp])] at hj ⊢
      rw [WaySet.setLine_lines]
      by_cases hji : j = i
      · rw [hji, Function.update_self, promote]
        dsimp only
        rw [if_pos hp]
        decide
      · rw [Function.update_of_ne hji]
        exact hrange _ (Config.set_lt req.addr) j hj
  | probe addr =>
    obtain ⟨-, rfl, -⟩ := WayCache.step_probe hs
    exact iff_of_true hrange trivial
  | flush now =>
    obtain ⟨-, rfl, -⟩ := WayCache.step_flush hs
    refine iff_of_true (fun i hi j hj => ?_) trivial
    have he := a.flush_emptied E now w hi
    obtain ⟨data, hd⟩ := he.line j
    rw [he.order] at hj
    rw [hd]
    exact hrange i hi j hj
  | flushAddr addr now =>
    obtain ⟨-, rfl, -⟩ := WayCache.step_flushAddr hs
    refine iff_of_true ?_ trivial
    rw [WayCache.flushAddr]
    dsimp only
    rcases hl : (a.sets (cfg.set addr).toNat).lookup (cfg.tag addr) with _ | i
    · exact hrange
    · refine hrange.update (fun j hj => ?_) _
      have hi := List.mem_of_find?_eq_some hl
      have hm := (mem_moveTo .tail hi j).mp hj
      rw [WaySet.move_lines, WaySet.setLine_lines]
      by_cases hji : j = i
      · rw [hji, Function.update_self, invalidateLine_line]
        exact hrange _ (Config.set_lt addr) i hi
      · rw [Function.update_of_ne hji]
        exact hrange _ (Config.set_lt addr) j hm

/-- **`DRRIP` victims.** In every reachable cache, a miss returns with the victim and the values
of the reference algorithm if and only if the condition `DrripSound` holds of its set; and the
values stay in range along a run if and only if its misses meet the condition `MissInRange`. -/
theorem drrip_matches_iff {c₀ c : CacheT cfg} (hp : cfg.policy = .drrip)
    (hc : cacheCreate cfg = some c₀) (E : Extern W cfg) {w₀ w : W} {ops : List Op}
    {answers : List Answer} (hrun : run (CacheT.step E) (c₀, w₀) ops = some (answers, (c, w))) :
    (∀ req : Request, req.ok cfg = true → cfg.tagset req.addr ≠ c.lastTagset →
      c.probe req.addr = false →
      ((∃ r c' w', c.access E req w = some (r, c', w') ∧ DrripMatches E c req w c') ↔
        (c.sets.get (cfg.set req.addr).toNat).DrripSound)) ∧
      (EveryStep (CacheT.step E) (fun _ _ _ s' => s'.1.InRange) (c₀, w₀) ops ↔
        EveryStep (CacheT.step E) (fun s op _ _ => MissInRange s.1 op) (c₀, w₀) ops) := by
  have hrefines := refines_create hc
  refine ⟨fun req hok hlast hmiss => ?_, ?_⟩
  · obtain ⟨a, ha⟩ := hrefines.of_run hrun
    refine ⟨?_, fun hcond => ?_⟩
    · rintro ⟨r, c', w', hr, hm⟩
      exact (ha.drripMatches_iff hp hr hmiss).mp hm
    · have hs := ha.sets _ (Config.set_lt req.addr)
      have hinv := ha.inv _ (Config.set_lt req.addr)
      obtain ⟨⟨r, c', w'⟩, hr⟩ := ha.access_returns hok hlast hmiss
        (selectVictim_drrip_isSome hp hinv (hs.largest hinv.order_ne_nil)
          (hs.drripSound_iff.mp hcond) _ w)
      exact ⟨r, c', w', hr, (ha.drripMatches_iff hp hr hmiss).mpr hcond⟩
  · have hcreate : (WayCache.create cfg).InRange := by
      intro _ _ _ _
      show rrpvMax - 1 ≤ rrpvMax
      decide
    refine EveryStep.iff_of_invariant (C := fun _ => True)
      (I := fun s : CacheT cfg × W => ∃ a, Refines s.1 a ∧ a.InRange) ?_ ?_ (fun _ _ => trivial)
      ⟨_, hrefines, hcreate⟩
    · rintro ⟨c, w⟩ op ans ⟨c', w'⟩ ⟨a, h, hrange⟩ - hs
      obtain ⟨a', hs', h'⟩ := h.step_of_eq_some E hs
      rw [h'.inRange_iff]
      exact h.step_inRange_iff hrange hp hs'
    · rintro ⟨c, w⟩ op ans ⟨c', w'⟩ ⟨a, h, hrange⟩ - hs hin
      obtain ⟨a', -, h'⟩ := h.step_of_eq_some E hs
      exact ⟨a', h', h'.inRange_iff.mp hin⟩

/-- Thirty-two sets of two blocks of eight bytes, replaced by `DRRIP`. -/
def drripConfig : Config := Config.ofWordLogs 5 1 .drrip

/-- After a miss the first block of its set has reached the bound, and the next miss of the set is
that of the reference. -/
theorem drrip_matches_sample : ∃ c₀ answers c w, cacheCreate drripConfig = some c₀ ∧
    run (CacheT.step (journal _)) (c₀, []) [.access (readAt 8)] = some (answers, (c, w)) ∧
    (∃ r c' w', c.access (journal _) (readAt 264) w = some (r, c', w') ∧
      DrripMatches (journal _) c (readAt 264) w c') ∧
    EveryStep (CacheT.step (journal _)) (fun _ _ _ s' => s'.1.InRange) (c₀, [])
      [.access (readAt 8)] := by
  let c₀ := (cacheCreate drripConfig).get (by decide)
  have hc : cacheCreate drripConfig = some c₀ := (Option.some_get _).symm
  have hs : (run (CacheT.step (journal _)) (c₀, []) [.access (readAt 8)]).map (fun r =>
      (r.2.1.probe (readAt 264).addr, r.2.1.lastTagset,
        (r.2.1.sets.get (drripConfig.set (readAt 264).addr).toNat).maxRrpv)) =
      some (false, 0, rrpvMax) := by decide +kernel
  obtain ⟨⟨answers, c, w⟩, hr, heq⟩ := Option.map_eq_some_iff.mp hs
  simp only [Prod.mk.injEq] at heq
  obtain ⟨hp, hlast, hmax⟩ := heq
  obtain ⟨hvictim, hrange⟩ := drrip_matches_iff rfl hc (journal _) hr
  have hsecond : (c₀.sets.get (drripConfig.set (readAt 8).addr).toNat).wayList.tail = [0] ∧
      ((c₀.sets.get (drripConfig.set (readAt 8).addr).toNat).line 0).rrpv =
        (c₀.sets.get (drripConfig.set (readAt 8).addr).toNat).maxRrpv := by decide +kernel
  refine ⟨c₀, answers, c, w, hc, hr, (hvictim (readAt 264) (by decide) ?_ hp).mpr (Or.inl hmax),
    hrange.mpr (everyStep_cons.mpr fun _ _ _ => ⟨fun _ => Or.inr ⟨0, ?_, hsecond.2⟩, trivial⟩)⟩
  · rw [hlast]
    decide
  · rw [hsecond.1]
    exact List.mem_cons_self

/-- The first miss of a cache replaces the second block of the way list, where the reference
replaces the first. Two misses, a hit and a third miss in one set leave a value of 13. -/
theorem drrip_second_block :
    ∃ c₀, cacheCreate drripConfig = some c₀ ∧ c₀.probe (readAt 8).addr = false ∧
      (¬ ∃ r c' w', c₀.access (journal _) (readAt 8) [] = some (r, c', w') ∧
        DrripMatches (journal _) c₀ (readAt 8) [] c') ∧
      ∃ answers c w, run (CacheT.step (journal _)) (c₀, [])
          [.access (readAt 8), .access (readAt 264), .access (readAt 8), .access (readAt 520)] =
            some (answers, (c, w)) ∧ ((c.sets.get 1).line 1).rrpv = 13 := by
  let c₀ := (cacheCreate drripConfig).get (by decide)
  have hc : cacheCreate drripConfig = some c₀ := (Option.some_get _).symm
  have hvictim : c₀.victim (journal _) (readAt 8) [] = some 0 ∧
      (c₀.sets.get (drripConfig.set (readAt 8).addr).toNat).wayList.find? (fun i =>
        ((c₀.sets.get (drripConfig.set (readAt 8).addr).toNat).line i).rrpv =
          (c₀.sets.get (drripConfig.set (readAt 8).addr).toNat).maxRrpv) = some 1 := by
    decide +kernel
  have hs : (run (CacheT.step (journal _)) (c₀, [])
      [.access (readAt 8), .access (readAt 264), .access (readAt 8), .access (readAt 520)]).map
        (fun r => ((r.2.1.sets.get 1).line 1).rrpv) = some 13 := by decide +kernel
  obtain ⟨⟨answers, c, w⟩, hr, hval⟩ := Option.map_eq_some_iff.mp hs
  refine ⟨c₀, hc, by decide +kernel, ?_, answers, c, w, hr, hval⟩
  rintro ⟨r, c', w', -, v, hv, hfind, -⟩
  obtain rfl : v = 0 := Option.some.inj (hv.symm.trans hvictim.1)
  exact absurd (hfind.symm.trans hvictim.2) (by decide)

end AdvancedArchitecture.Cache
