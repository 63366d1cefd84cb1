import AdvancedArchitecture.Cache.EmptyWays
import Mathlib.Data.Int.CardIntervalMod

/-!
# The set duel

The sets of a `DRRIP` cache are SRRIP leaders, BRRIP leaders and followers. `cache_create` deals
them out by two remainders, which is what the comment above the loop promises from 64 sets on
(`leaders_assigned_iff`). The misses of the leaders move `PSEL`, and the bimodal insertions of all
sets share `BIPCTR`: here the counters are watched next to a reference of their own.
-/

namespace AdvancedArchitecture.Cache

variable {W : Type} {cfg : Config} {E : Extern W cfg}

/-! ### The leaders -/

/-- The number of sets of a type. -/
def CacheT.countType (c : CacheT cfg) (ty : SetType) : ℕ :=
  Nat.count (fun i => (c.sets.get i).setType = ty) cfg.nsets

/-- **The duel is set up**: the cache is created, every set has a type, none passes the tests of
both kinds of leader, there are as many leaders of one kind as of the other, and from 64 sets on
there are 32 of each. -/
def LeadersAssigned (cfg : Config) : Prop :=
  ∃ c, cacheCreate cfg = some c ∧
    (∀ i < cfg.nsets, (c.sets.get i).setType ≠ .unset) ∧
    (∀ i < cfg.nsets, ¬ (i % (cfg.nsets / (bipctrMax + 1).toNat) = 0 ∧
      (i + 1) % (cfg.nsets / (bipctrMax + 1).toNat) = 0)) ∧
    c.countType .srrip = c.countType .brrip ∧
    (64 ≤ cfg.nsets → c.countType .srrip = 32 ∧ c.countType .brrip = 32 ∧
      c.countType .follower = cfg.nsets - 64)

/-- The type of a set of a new cache. -/
theorem setType_create {c : CacheT cfg} (hc : cacheCreate cfg = some c) {i : ℕ}
    (hi : i < cfg.nsets) : (c.sets.get i).setType = cfg.setType i :=
  SetRel.setType ((refines_create hc).sets i hi)

theorem countType_create {c : CacheT cfg} (hc : cacheCreate cfg = some c) (ty : SetType) :
    c.countType ty = Nat.count (fun i => cfg.setType i = ty) cfg.nsets := by
  rw [CacheT.countType, Nat.count_eq_card_filter_range, Nat.count_eq_card_filter_range]
  refine congrArg Finset.card (Finset.filter_congr fun i hi => ?_)
  rw [setType_create hc (Finset.mem_range.mp hi)]

/-- In the numbers below `m * n` there are `n` of one remainder. -/
theorem count_mod_eq {m n r : ℕ} (hm : 0 < m) (hr : r < m) :
    Nat.count (fun i => i % m = r) (m * n) = n := by
  have hcount := Nat.count_modEq_card (m * n) hm r
  rw [Nat.mul_mod_right, if_neg (Nat.not_lt_zero _), Nat.mul_div_cancel_left n hm,
    add_zero] at hcount
  simpa only [Nat.ModEq, Nat.mod_eq_of_lt hr] using hcount

/-- The tests of the two kinds of leader, by remainders. -/
theorem setType_eq (hp : cfg.policy = .drrip) {m : ℕ} (hm : cfg.nsets / 32 = m + 1) (i : ℕ) :
    cfg.setType i = if i % (m + 1) = 0 then .srrip else if i % (m + 1) = m then .brrip
      else .follower := by
  have hdiv : cfg.nsets / (bipctrMax + 1).toNat = m + 1 := hm
  rw [Config.setType, if_pos hp, hdiv]
  simp only [Nat.succ_mod_succ_eq_zero_iff]

/-- Three kinds that are all there is. -/
theorem count_three {p q r : ℕ → Prop} [DecidablePred p] [DecidablePred q] [DecidablePred r]
    (h : ∀ i, ((if p i then 1 else 0) + (if q i then 1 else 0) + if r i then 1 else 0) = 1)
    (n : ℕ) : Nat.count p n + Nat.count q n + Nat.count r n = n := by
  induction n with
  | zero => rfl
  | succ n ih =>
    have hn := h n
    rw [Nat.count_succ, Nat.count_succ, Nat.count_succ]
    omega

/-- The types of the sets, from 64 sets on. -/
theorem count_setType (hp : cfg.policy = .drrip) (h : 64 ≤ cfg.nsets) :
    Nat.count (fun i => cfg.setType i = .srrip) cfg.nsets = 32 ∧
      Nat.count (fun i => cfg.setType i = .brrip) cfg.nsets = 32 ∧
      Nat.count (fun i => cfg.setType i = .follower) cfg.nsets = cfg.nsets - 64 := by
  -- the number of sets is a power of two, so 32 divides it
  obtain ⟨m, hm⟩ : 2 ^ 5 ∣ cfg.nsets := cfg.nsets_ok.two_pow_dvd (by omega)
  obtain ⟨k, rfl⟩ : ∃ k, m = k + 1 + 1 := ⟨m - 2, by omega⟩
  have hdiv : cfg.nsets / 32 = k + 1 + 1 := by omega
  have htype := setType_eq hp hdiv
  have hsize : cfg.nsets = (k + 1 + 1) * 32 := by omega
  have hsrrip : Nat.count (fun i => cfg.setType i = .srrip) cfg.nsets = 32 := by
    have hiff : ∀ i, cfg.setType i = .srrip ↔ i % (k + 1 + 1) = 0 := by
      intro i
      rw [htype]
      split_ifs <;> simp_all
    simp only [hiff, hsize]
    exact count_mod_eq (by omega) (by omega)
  have hbrrip : Nat.count (fun i => cfg.setType i = .brrip) cfg.nsets = 32 := by
    have hiff : ∀ i, cfg.setType i = .brrip ↔ i % (k + 1 + 1) = k + 1 := by
      intro i
      rw [htype]
      split_ifs <;> simp_all
    simp only [hiff, hsize]
    exact count_mod_eq (by omega) (by omega)
  have hall := count_three (p := fun i => cfg.setType i = .srrip)
    (q := fun i => cfg.setType i = .brrip) (r := fun i => cfg.setType i = .follower) ?_ cfg.nsets
  · exact ⟨hsrrip, hbrrip, by omega⟩
  · intro i
    rw [htype]
    split_ifs <;> simp_all

/-- **The leaders** are assigned as they should be if and only if there are 64 sets or more. -/
theorem leaders_assigned_iff (hp : cfg.policy = .drrip) : LeadersAssigned cfg ↔ 64 ≤ cfg.nsets := by
  constructor
  · rintro ⟨c, hc, -, hboth, -⟩
    have hdiv : cfg.nsets / (bipctrMax + 1).toNat ≠ 0 := by
      intro h0
      rw [cacheCreate, if_pos ⟨hp, h0⟩] at hc
      exact absurd hc (by simp)
    have h32 : cfg.nsets / 32 ≠ 0 := hdiv
    by_contra hlt
    -- with 32 sets every set passes the first test, and every set the second
    have hone : cfg.nsets / (bipctrMax + 1).toNat = 1 := by
      show cfg.nsets / 32 = 1
      omega
    refine hboth 0 cfg.nsets_ok.pos ?_
    rw [hone]
    exact ⟨rfl, rfl⟩
  · intro h
    have hdiv : ¬ (cfg.policy = .drrip ∧ cfg.nsets / (bipctrMax + 1).toNat = 0) := by
      rintro ⟨-, h0⟩
      have h0' : cfg.nsets / 32 = 0 := h0
      omega
    obtain ⟨c, hc⟩ : ∃ c, cacheCreate cfg = some c := ⟨_, if_neg hdiv⟩
    obtain ⟨hsrrip, hbrrip, hfollower⟩ := count_setType hp h
    simp only [← countType_create hc] at hsrrip hbrrip hfollower
    refine ⟨c, hc, fun i hi => ?_, fun i hi => ?_, hsrrip.trans hbrrip.symm,
      fun _ => ⟨hsrrip, hbrrip, hfollower⟩⟩
    · rw [setType_create hc hi, Config.setType, if_pos hp]
      split_ifs <;> decide
    · obtain ⟨m, hm⟩ : ∃ m, cfg.nsets / (bipctrMax + 1).toNat = m + 1 + 1 :=
        ⟨cfg.nsets / 32 - 2, show cfg.nsets / 32 = _ by omega⟩
      rw [hm, Nat.succ_mod_succ_eq_zero_iff]
      rintro ⟨hzero, hlast⟩
      omega

/-- Sixty-four sets are leaders, half of each kind. -/
theorem leaders_assigned_sample : LeadersAssigned bimodalConfig :=
  (leaders_assigned_iff rfl).mpr (by decide)

/-- With sixteen sets the division is by zero; with thirty-two all sets are SRRIP leaders. -/
theorem leaders_not_assigned :
    ¬ LeadersAssigned (Config.ofWordLogs 4 1 .drrip) ∧ ¬ LeadersAssigned drripConfig := by
  constructor
  · rintro ⟨c, hc, -⟩
    have hnone : cacheCreate (Config.ofWordLogs 4 1 .drrip) = none := by decide
    exact absurd (hnone.symm.trans hc) (by simp)
  · rintro ⟨c, hc, -, -, heq, -⟩
    rw [countType_create hc, countType_create hc] at heq
    exact absurd heq (by decide +kernel)

/-! ### The counters -/

/-- A block is inserted bimodally in a BRRIP leader, and in a follower that `PSEL` sends there. -/
def BrripMode (ty : SetType) (psel : ℤ) : Prop :=
  match ty with
  | .srrip => False
  | .brrip => True
  | _ => psel >>> (pselLength - 1) ≠ 0

instance : ∀ (ty : SetType) (psel : ℤ), Decidable (BrripMode ty psel)
  | .srrip, _ => isFalse id
  | .brrip, _ => isTrue trivial
  | .follower, psel | .unset, psel =>
    inferInstanceAs (Decidable (psel >>> (pselLength - 1) ≠ 0))

/-- The reference of `PSEL`: a miss of an SRRIP leader adds one, a miss of a BRRIP leader
subtracts one, within the bounds. -/
def referencePsel (ty : SetType) (p : ℤ) : ℤ :=
  match ty with
  | .srrip => min (p + 1) pselMax
  | .brrip => max (p - 1) 0
  | _ => p

/-- A `DRRIP` cache with the reference of `PSEL` and the number of bimodal insertions so far. -/
structure Dueled (W : Type) (cfg : Config) where
  cache : CacheT cfg
  world : W
  psel : ℤ
  bimodal : ℕ

/-- One access, with the references. -/
def duelStep (E : Extern W cfg) (s : Dueled W cfg) (req : Request) :
    Option (Reply × Dueled W cfg) :=
  (s.cache.access E req s.world).map fun r =>
    let ty := cfg.setType (cfg.set req.addr).toNat
    (r.1,
      { cache := r.2.1
        world := r.2.2
        psel := if s.cache.probe req.addr then s.psel else referencePsel ty s.psel
        bimodal := if s.cache.probe req.addr = false ∧ BrripMode ty s.cache.regs.psel then
          s.bimodal + 1 else s.bimodal })

/-- `PSEL` is within its bounds, its top bit is 0 or 1, and it is the reference. -/
def Dueled.PselExact (s : Dueled W cfg) : Prop :=
  0 ≤ s.cache.regs.psel ∧ s.cache.regs.psel ≤ pselMax ∧
    (s.cache.regs.psel >>> (pselLength - 1) = 0 ∨ s.cache.regs.psel >>> (pselLength - 1) = 1) ∧
    s.cache.regs.psel = s.psel

/-- No miss of an SRRIP leader comes when the reference is at its upper bound. -/
def Dueled.PselSafe (s : Dueled W cfg) (req : Request) : Prop :=
  s.cache.probe req.addr = false → cfg.setType (cfg.set req.addr).toNat = .srrip →
    s.psel ≠ pselMax

instance (s : Dueled W cfg) (req : Request) : Decidable (s.PselSafe req) :=
  inferInstanceAs (Decidable (_ → _ → _ ≠ _))

/-- **What a miss inserts**: a bimodal insertion `RRPV_MAX - 1` if its number is a multiple of
`BIPCTR_MAX + 1` and `RRPV_MAX` otherwise, any other `RRPV_MAX - 1` without a move of `BIPCTR`. -/
def RatioExact (E : Extern W cfg) (s : Dueled W cfg) (req : Request) (s' : Dueled W cfg) : Prop :=
  s.cache.probe req.addr = false →
    let set := (cfg.set req.addr).toNat
    ∃ v, s.cache.victim E req s.world = some v ∧
      if BrripMode (cfg.setType set) s.cache.regs.psel then
        ((s'.cache.sets.get set).line v).rrpv =
          if bipctrMax + 1 ∣ (s.bimodal : ℤ) then rrpvMax - 1 else rrpvMax
      else
        ((s'.cache.sets.get set).line v).rrpv = rrpvMax - 1 ∧
          s'.cache.regs.bipctr = s.cache.regs.bipctr

section insert

variable (ty : SetType) (regs : Regs)

theorem drripInsert_fst : (drripInsert ty regs).1 =
    if BrripMode ty regs.psel ∧ regs.bipctr ≠ 0 then rrpvMax else rrpvMax - 1 := by
  cases ty <;> simp only [drripInsert, brripInsert, BrripMode] <;> split_ifs <;> simp_all

theorem drripInsert_bipctr : (drripInsert ty regs).2.bipctr =
    if BrripMode ty regs.psel then if regs.bipctr = bipctrMax then 0 else regs.bipctr + 1
      else regs.bipctr := by
  cases ty <;> simp only [drripInsert, brripInsert, BrripMode] <;> split_ifs <;> simp_all

theorem drripInsert_psel : (drripInsert ty regs).2.psel =
    match ty with
    | .srrip => if regs.psel ≤ pselMax then regs.psel + 1 else regs.psel
    | .brrip => if regs.psel > 0 then regs.psel - 1 else regs.psel
    | _ => regs.psel := by
  cases ty <;> simp only [drripInsert, brripInsert] <;> split_ifs <;> rfl

end insert

/-- A fill leaves the counters of the duel alone. -/
theorem WaySet.fill_duel (E : Extern W cfg) (t : WaySet cfg) (regs : Regs) (req : Request) (i : ℕ)
    (w : W) : (t.fill E regs req i w).2.2.1.psel = regs.psel ∧
      (t.fill E regs req i w).2.2.1.bipctr = regs.bipctr := by
  simp only [WaySet.fill, evictLine]
  split_ifs <;> exact ⟨rfl, rfl⟩

/-- The counters after a `DRRIP` choice. -/
theorem selectVictim_drrip_regs {t t' : WaySet cfg} {regs regs' : Regs} {w w' : W} {i : ℕ}
    (hp : cfg.policy = .drrip) (h : t.selectVictim E regs w = some (i, t', regs', w')) :
    regs' = (drripInsert t.setType regs).2 := by
  simp only [WaySet.selectVictim, hp] at h
  obtain ⟨⟨j, t₁⟩, -, heq⟩ := Option.map_eq_some_iff.mp h
  simp only [Prod.mk.injEq] at heq
  exact heq.2.2.1.symm

/-- The set-associative cache of a cache with its references. -/
structure Dueled.Rel (s : Dueled W cfg) (a : WayCache cfg) : Prop where
  refines : Refines s.cache a
  setType : ∀ i < cfg.nsets, (a.sets i).setType = cfg.setType i
  bipctr : s.cache.regs.bipctr = s.bimodal % (bipctrMax + 1)

/-- A set rewritten, but for its type. -/
theorem WayCache.setType_update {a : WayCache cfg} {set : ℕ} {t : WaySet cfg}
    (h : ∀ i < cfg.nsets, (a.sets i).setType = cfg.setType i)
    (ht : t.setType = (a.sets set).setType) (i : ℕ) (hi : i < cfg.nsets) :
    (Function.update a.sets set t i).setType = cfg.setType i := by
  by_cases his : i = set
  · rw [his, Function.update_self, ht, ← his]
    exact h i hi
  · rw [Function.update_of_ne his]
    exact h i hi

/-- The counter of the bimodal insertions, one further. -/
theorem bipctr_succ {b : ℤ} {n : ℕ} (hb : b = n % (bipctrMax + 1)) :
    (if b = bipctrMax then 0 else b + 1) = (n + 1 : ℕ) % (bipctrMax + 1) := by
  have hmax : bipctrMax = 31 := rfl
  rw [hmax] at hb ⊢
  split_ifs <;> omega

/-- What a `DRRIP` miss inserts, and the counters that it leaves. -/
theorem Chosen.inserted {c c' : CacheT cfg} {a : WayCache cfg} {req : Request} {w w₁ : W} {i : ℕ}
    {t : WaySet cfg} {regs : Regs} (hch : Chosen E c c' a req w i t regs w₁)
    (hp : cfg.policy = .drrip) (h : Refines c a) {sets : ℕ → WaySet cfg}
    (h' : Refines c' ⟨(t.fill E regs req i w₁).2.2.1, sets⟩) {ty : SetType}
    (hty : (a.sets (cfg.set req.addr).toNat).setType = ty) :
    ((c'.sets.get (cfg.set req.addr).toNat).line i).rrpv = (drripInsert ty c.regs).1 ∧
      c'.regs.psel = (drripInsert ty c.regs).2.psel ∧
      c'.regs.bipctr = (drripInsert ty c.regs).2.bipctr := by
  have hinv := h.inv _ (Config.set_lt req.addr)
  have hi := (hinv.mem i).mp (selectVictim_spec hinv hch.select).1.mem
  obtain ⟨hpsel, hbipctr⟩ := t.fill_duel E regs req i w₁
  obtain ⟨k, -, hval⟩ := selectVictim_drrip hp hch.select
  have hregs := selectVictim_drrip_regs hp hch.select
  rw [hty] at hval hregs
  refine ⟨?_, ?_, ?_⟩
  · rw [hch.rrpv i hi, hval i, if_pos rfl, drripInsert_fst, drripInsert_fst, h.regs]
  · rw [h'.regs, h.regs, drripInsert_psel]
    dsimp only
    rw [hpsel, hregs, drripInsert_psel]
  · rw [h'.regs, h.regs, drripInsert_bipctr]
    dsimp only
    rw [hbipctr, hregs, drripInsert_bipctr]

namespace Dueled

variable {s s' : Dueled W cfg} {a : WayCache cfg}

/-- **An access**: what it inserts, and how it moves the counters. -/
theorem Rel.step (h : s.Rel a) (hp : cfg.policy = .drrip) {req : Request} {r : Reply}
    (hs : duelStep E s req = some (r, s')) :
    RatioExact E s req s' ∧
      s'.cache.regs.psel = (if s.cache.probe req.addr then s.cache.regs.psel else
        (drripInsert (cfg.setType (cfg.set req.addr).toNat) s.cache.regs).2.psel) ∧
      ∃ a', s'.Rel a' := by
  obtain ⟨⟨r', c', w'⟩, hacc, heq⟩ := Option.map_eq_some_iff.mp hs
  obtain ⟨-, rfl⟩ := Prod.mk.inj heq
  have hlt : (cfg.set req.addr).toNat < cfg.nsets := Config.set_lt req.addr
  rcases h.refines.access_cases hacc with
    ⟨hprobe, i, t, regs, w₁, hch, h'⟩ | ⟨hprobe, i, hl, h'⟩
  · -- a miss; the counter counts the insertions in bimodal mode
    obtain ⟨hrrpv, hpsel, hbip⟩ := hch.inserted hp h.refines h' (h.setType _ hlt)
    rw [drripInsert_fst] at hrrpv
    rw [drripInsert_bipctr] at hbip
    refine ⟨fun _ => ⟨i, hch.victim, ?_⟩, ?_, _, h', ?_, ?_⟩
    · have hzero : s.cache.regs.bipctr = 0 ↔ bipctrMax + 1 ∣ (s.bimodal : ℤ) := by
        rw [h.bipctr, Int.dvd_iff_emod_eq_zero]
      dsimp only
      rw [hrrpv, hbip]
      split_ifs <;> simp_all
    · dsimp only
      rw [if_neg (by simp [hprobe])]
      exact hpsel
    · refine WayCache.setType_update h.setType ?_
      obtain ⟨ready, data, hline⟩ := t.fill_line E regs req i w₁
      rw [hline, WaySet.setLine_setType]
      exact (selectVictim_spec (h.refines.inv _ hlt) hch.select).1.setType
    · dsimp only
      rw [hbip]
      by_cases hmode : BrripMode (cfg.setType (cfg.set req.addr).toNat) s.cache.regs.psel
      · rw [if_pos hmode, if_pos (show _ ∧ _ from ⟨hprobe, hmode⟩)]
        exact bipctr_succ h.bipctr
      · rw [if_neg hmode, if_neg fun hboth : _ ∧ _ => hmode hboth.2]
        exact h.bipctr
  · -- a hit inserts nothing
    refine ⟨fun hmiss => absurd (hprobe.symm.trans hmiss) (by decide), ?_, _, h', ?_, ?_⟩
    · dsimp only
      rw [if_pos hprobe, h'.regs, h.refines.regs]
      rfl
    · refine WayCache.setType_update h.setType ?_
      rw [WaySet.hit]
      split_ifs <;> rfl
    · dsimp only
      rw [if_neg (by simp [hprobe]), h'.regs, ← h.bipctr, h.refines.regs]
      rfl

/-- Within its bounds the counter has a top bit. -/
theorem psel_shift {p : ℤ} (h : 0 ≤ p) (h' : p ≤ pselMax) :
    p >>> (pselLength - 1) = 0 ∨ p >>> (pselLength - 1) = 1 := by
  have hmax : pselMax = 1023 := rfl
  have hshift : p >>> (pselLength - 1) = p / 512 := Int.shiftRight_eq_div_pow p 9
  rw [hshift]
  omega

theorem referencePsel_mem {p : ℤ} (ty : SetType) (h : 0 ≤ p) (h' : p ≤ pselMax) :
    0 ≤ referencePsel ty p ∧ referencePsel ty p ≤ pselMax := by
  have hmax : pselMax = 1023 := rfl
  cases ty <;> simp only [referencePsel] <;> omega

/-- **The counter and its reference** part at a miss of an SRRIP leader at the upper bound. -/
theorem drripInsert_psel_eq_iff {ty : SetType} {regs : Regs} (h : 0 ≤ regs.psel)
    (h' : regs.psel ≤ pselMax) :
    (drripInsert ty regs).2.psel = referencePsel ty regs.psel ↔
      (ty = .srrip → regs.psel ≠ pselMax) := by
  rw [drripInsert_psel]
  cases ty <;> simp only [referencePsel, reduceCtorEq, false_imp_iff, true_imp_iff, iff_true]
  case srrip =>
    rw [if_pos h']
    omega
  case brrip =>
    split_ifs <;> omega

/-- An access keeps `PSEL` exact if and only if the condition holds. -/
theorem Rel.pselExact_iff (h : s.Rel a) (hexact : s.PselExact) (hp : cfg.policy = .drrip)
    {req : Request} {r : Reply} (hs : duelStep E s req = some (r, s')) :
    s'.PselExact ↔ s.PselSafe req := by
  obtain ⟨-, hpsel, -⟩ := h.step hp hs
  obtain ⟨hnn, hle, -, heq⟩ := hexact
  have href : s'.psel = if s.cache.probe req.addr then s.psel else
      referencePsel (cfg.setType (cfg.set req.addr).toNat) s.psel := by
    obtain ⟨p, -, hp'⟩ := Option.map_eq_some_iff.mp hs
    obtain ⟨-, rfl⟩ := Prod.mk.inj hp'
    rfl
  have hmem : 0 ≤ s'.psel ∧ s'.psel ≤ pselMax := by
    rw [href, ← heq]
    split_ifs
    · exact ⟨hnn, hle⟩
    · exact referencePsel_mem _ hnn hle
  have hiff : s'.PselExact ↔ s'.cache.regs.psel = s'.psel := by
    constructor
    · exact fun hex => hex.2.2.2
    · intro heq'
      rw [PselExact, heq']
      exact ⟨hmem.1, hmem.2, psel_shift hmem.1 hmem.2, rfl⟩
  rw [hiff, hpsel, href, PselSafe, ← heq]
  rcases hprobe : s.cache.probe req.addr
  · simp only [Bool.false_eq_true, if_false, true_imp_iff]
    exact drripInsert_psel_eq_iff hnn hle
  · simp

end Dueled

/-- The references of a new cache. -/
def Dueled.create (c : CacheT cfg) (w : W) : Dueled W cfg := ⟨c, w, pselInit, 0⟩

theorem Dueled.rel_create {c : CacheT cfg} (hc : cacheCreate cfg = some c) (w : W) :
    (Dueled.create c w).Rel (WayCache.create cfg) := by
  have h := refines_create hc
  refine ⟨h, fun i _ => rfl, ?_⟩
  rw [create, h.regs]
  rfl

/-- **`PSEL`** starts within its bounds, and along a run it stays there and equal to its reference
if and only if no miss of an SRRIP leader comes at the upper bound. -/
theorem psel_exact_iff (hp : cfg.policy = .drrip) {c : CacheT cfg} (hc : cacheCreate cfg = some c)
    (E : Extern W cfg) (w : W) (reqs : List Request) :
    (Dueled.create c w).PselExact ∧
      (EveryStep (duelStep E) (fun _ _ _ s' => s'.PselExact) (Dueled.create c w) reqs ↔
        EveryStep (duelStep E) (fun s req _ _ => s.PselSafe req) (Dueled.create c w) reqs) := by
  have hinit : (Dueled.create c w).PselExact := by
    have hpsel : c.regs.psel = pselInit := by
      rw [(refines_create hc).regs]
      rfl
    rw [Dueled.PselExact, Dueled.create, hpsel]
    exact ⟨by decide, by decide, by decide, rfl⟩
  refine ⟨hinit, EveryStep.iff_of_invariant (C := fun _ => True)
    (I := fun s => (∃ a, s.Rel a) ∧ s.PselExact) ?_ ?_ (fun _ _ => trivial)
    ⟨⟨_, Dueled.rel_create hc w⟩, hinit⟩⟩
  · rintro s req r s' ⟨⟨a, h⟩, hexact⟩ - hs
    exact h.pselExact_iff hexact hp hs
  · rintro s req r s' ⟨⟨a, h⟩, -⟩ - hs hexact
    exact ⟨(h.step hp hs).2.2, hexact⟩

/-- Misses of both kinds of leader below the bound. -/
theorem psel_exact_sample : ∃ c, cacheCreate bimodalConfig = some c ∧
    (run (duelStep (journal _)) (Dueled.create c []) [readAt 16, readAt 8, readAt 528]).isSome =
      true ∧
    EveryStep (duelStep (journal _)) (fun _ _ _ s' => s'.PselExact) (Dueled.create c [])
      [readAt 16, readAt 8, readAt 528] := by
  let c := (cacheCreate bimodalConfig).get (by decide)
  have hc : cacheCreate bimodalConfig = some c := (Option.some_get _).symm
  exact ⟨c, hc, by decide +kernel,
    (psel_exact_iff rfl hc (journal _) [] [readAt 16, readAt 8, readAt 528]).2.mpr
      (by decide +kernel)⟩

/-- Accesses that all miss in one set of a cache of thirty-two sets. -/
def missesOf (n : ℕ) : List Request :=
  (List.range n).map fun k => readAt (BitVec.ofNat 64 (8 + 256 * k))

/-- Five hundred and thirteen misses of an SRRIP leader take `PSEL` past its bound. -/
theorem psel_past_bound : ∃ c replies s, cacheCreate drripConfig = some c ∧
    run (duelStep (journal _)) (Dueled.create c []) (missesOf 513) = some (replies, s) ∧
    s.cache.regs.psel = 1024 ∧ s.cache.regs.psel >>> (pselLength - 1) = 2 ∧ s.psel = pselMax := by
  let c := (cacheCreate drripConfig).get (by decide)
  have hc : cacheCreate drripConfig = some c := (Option.some_get _).symm
  have hs : (run (duelStep (journal _)) (Dueled.create c []) (missesOf 513)).map
      (fun r => (r.2.cache.regs.psel, r.2.psel)) = some (1024, pselMax) := by decide +kernel
  obtain ⟨⟨replies, s⟩, hr, heq⟩ := Option.map_eq_some_iff.mp hs
  obtain ⟨hpsel, href⟩ := Prod.mk.inj heq
  refine ⟨c, replies, s, hc, hr, hpsel, ?_, href⟩
  have hval : s.cache.regs.psel = 1024 := hpsel
  rw [hval]
  decide

/-- **The bimodal ratio** is exact, over all sets. -/
theorem bimodal_ratio (hp : cfg.policy = .drrip) {c : CacheT cfg} (hc : cacheCreate cfg = some c)
    (E : Extern W cfg) (w : W) (reqs : List Request) :
    EveryStep (duelStep E) (fun s req _ s' => RatioExact E s req s') (Dueled.create c w) reqs := by
  refine EveryStep.of_invariant (I := fun s => ∃ a, s.Rel a) (C := fun _ => True) ?_
    (fun _ _ => trivial) ⟨_, Dueled.rel_create hc w⟩
  rintro s req r s' ⟨a, h⟩ - hs
  obtain ⟨hratio, -, hrel⟩ := h.step hp hs
  exact ⟨hratio, hrel⟩

/-- Two bimodal insertions with another between them. -/
theorem bimodal_ratio_sample : ∃ c, cacheCreate bimodalConfig = some c ∧
    (run (duelStep (journal _)) (Dueled.create c []) [readAt 8, readAt 16, readAt 520]).isSome =
      true ∧
    EveryStep (duelStep (journal _)) (fun s req _ s' => RatioExact (journal _) s req s')
      (Dueled.create c []) [readAt 8, readAt 16, readAt 520] := by
  let c := (cacheCreate bimodalConfig).get (by decide)
  have hc : cacheCreate bimodalConfig = some c := (Option.some_get _).symm
  exact ⟨c, hc, by decide +kernel, bimodal_ratio rfl hc (journal _) [] _⟩

end AdvancedArchitecture.Cache
