import Mathlib.Data.Option.Basic
import Mathlib.Tactic.Ring
import AdvancedArchitecture.Cache.Ways

/-!
# Sets with links and sets without

`SetRefines s t` says that the set `s` of `cache.c` lists the blocks of `t`, with the same
lines, and that its hash chains hold all of them. Each operation on the links of a set does to
`s` what its counterpart does to `t`: the lookup by chain or by list (`SetRefines.lookup`), the
moves along the way list (`SetRefines.updateWayList`), and the victim search with its restarts
at the second block (`SetRefines.victimLoop`).
-/

namespace AdvancedArchitecture.Cache

open CacheSet

variable {cfg : Config}

/-- `s` lists the blocks of `t`; the blocks that satisfy `live` are on its hash chains. -/
structure SetRel (live : ℕ → Prop) (s : CacheSet cfg) (t : WaySet cfg) : Prop where
  ways : s.ways.Represents t.order
  line : ∀ i ∈ t.order, s.line i = t.lines i
  setType : s.setType = t.setType
  mem : ∀ i, i ∈ t.order ↔ i < cfg.assoc
  chains : cfg.hsize ≠ 0 → s.Chains live

/-- `s` lists the blocks of `t`, and its hash chains hold all of them. -/
def SetRefines (s : CacheSet cfg) (t : WaySet cfg) : Prop := SetRel (fun i => i < cfg.assoc) s t

/-- No two valid blocks of a set have the same tag. -/
def WaySet.Unique (t : WaySet cfg) : Prop :=
  ∀ i ∈ t.order, ∀ j ∈ t.order, (t.lines i).valid = true → (t.lines j).valid = true →
    (t.lines i).tag = (t.lines j).tag → i = j

namespace SetRel

variable {live : ℕ → Prop} {s : CacheSet cfg} {t : WaySet cfg} {i : ℕ}

theorem length_le (h : SetRel live s t) : t.order.length ≤ cfg.assoc :=
  length_le_of_nodup h.ways.nodup fun i hi => (h.mem i).mp hi

theorem wayHead (h : SetRel live s t) : s.wayHead = t.order.head? := h.ways.head_eq

theorem wayTail (h : SetRel live s t) : s.wayTail = t.order.getLast? := h.ways.tail_eq

/-- The line of a block replaced, on both sides. A block on a hash chain keeps its tag. -/
theorem setLine (h : SetRel live s t) (hi : i ∈ t.order) (line : Line cfg)
    (htag : live i → line.tag = (t.lines i).tag) :
    SetRel live (s.modifyLine i fun _ => line) (t.setLine i line) where
  ways := by
    rw [ways_modifyLine]
    exact h.ways
  line j hj := by
    rw [line_modifyLine _ _ ((h.mem i).mp hi), WaySet.setLine_lines]
    by_cases hji : j = i
    · rw [hji, Function.update_self, Function.update_self]
    · rw [Function.update_of_ne hji, Function.update_of_ne hji]
      exact h.line j hj
  setType := h.setType
  mem := h.mem
  chains hh k hk := by
    obtain ⟨l, hseg, hnd, hmem⟩ := h.chains hh k hk
    refine ⟨l, by simpa using hseg, hnd, fun j => ?_⟩
    rw [hmem j, line_modifyLine _ _ ((h.mem i).mp hi)]
    refine and_congr_right fun hj => ?_
    by_cases hji : j = i
    · subst hji
      rw [Function.update_self, htag hj, h.line j hi]
    · rw [Function.update_of_ne hji]

/-- `update_way_list` on both sides. -/
theorem updateWayList (h : SetRel live s t) (hi : i ∈ t.order) (loc : ListLoc) :
    ∃ s', s.updateWayList i loc = some s' ∧ SetRel live s' (t.move loc i) := by
  obtain ⟨s', hs', hsame, hrep⟩ :=
    updateWayList_spec h.ways (fun j hj => (h.mem j).mp hj) hi loc
  have hperm : ∀ j, j ∈ moveTo loc i t.order ↔ j ∈ t.order := by
    intro j
    cases loc <;> by_cases hji : j = i <;> simp [moveTo, hji, hi]
  refine ⟨s', hs', hrep, fun j hj => ?_, ?_, fun j => ?_, fun hh => ?_⟩
  · rw [hsame.line]
    exact h.line j ((hperm j).mp hj)
  · rw [hsame.setType]
    exact h.setType
  · exact (hperm j).trans (h.mem j)
  · have hc := h.chains hh
    rw [Chains] at hc ⊢
    rw [hsame.line, hsame.hash, hsame.hashNext]
    exact hc

end SetRel

namespace SetRefines

variable {s : CacheSet cfg} {t : WaySet cfg} {i : ℕ}

/-- **Lookups agree**, along the hash chain of the tag and along the way list. -/
theorem lookup (h : SetRefines s t) (hu : t.Unique) (tag : MdAddr) :
    s.lookup tag = t.lookup tag := by
  have hfind : t.order.find? (fun i => (s.line i).tag = tag ∧ (s.line i).valid) =
      t.lookup tag := by
    refine List.find?_congr fun i hi => ?_
    rw [h.line i hi]
    rfl
  rw [CacheSet.lookup, ← hfind]
  dsimp only
  split_ifs with hh
  · obtain ⟨l, hseg, hnd, hmem⟩ := h.chains hh _ (hash_lt hh tag)
    have hlen := length_le_of_nodup hnd fun j hj => ((hmem j).mp hj).1
    rw [searchFrom_eq hseg _ hlen]
    refine find?_eq_of_unique (fun i j hi hj hil hjl => ?_) fun i hi => ?_
    · simp only [decide_eq_true_eq] at hi hj
      have hio : i ∈ t.order := (h.mem i).mpr ((hmem i).mp hil).1
      rw [h.line i hio] at hi
      rw [h.line j hjl] at hj
      exact hu i hio j hjl hi.2 hj.2 (hi.1.trans hj.1.symm)
    · simp only [decide_eq_true_eq] at hi
      rw [hmem i, h.mem i, hi.1]
      exact and_iff_left rfl
  · exact searchFrom_eq h.ways.fwd _ h.length_le

/-- The loop that renews every block. -/
theorem mapWays (h : SetRefines s t) {f : Line cfg → Line cfg} (hf : ∀ l, (f l).tag = l.tag) :
    SetRefines (s.mapWays f) (t.renew f) := by
  have hfold : s.mapWays f = t.order.foldl (fun s i => s.modifyLine i f) s :=
    foldFrom_eq CacheSet.wayNext _ (fun a i j => by simp) h.ways.fwd h.length_le
  -- the loop over any of the blocks rewrites their lines and nothing else
  have hinv : ∀ l : List ℕ, l.Nodup → (∀ i ∈ l, i < cfg.assoc) → ∀ s : CacheSet cfg,
      let s' := l.foldl (fun s i => s.modifyLine i f) s
      (∀ j, s'.line j = if j ∈ l then f (s.line j) else s.line j) ∧
        s'.ways = s.ways ∧ s'.hash = s.hash ∧ s'.hashNext = s.hashNext ∧
        s'.setType = s.setType := by
    intro l
    induction l with
    | nil => exact fun _ _ s => ⟨fun j => by simp, rfl, rfl, rfl, rfl⟩
    | cons i l ih =>
      intro hnd hlt s
      obtain ⟨hline, hw, hhash, hnext, hty⟩ := ih (List.nodup_cons.mp hnd).2
        (fun j hj => hlt j (List.mem_cons_of_mem i hj)) (s.modifyLine i f)
      refine ⟨fun j => ?_, hw.trans (ways_modifyLine s i f), hhash, hnext.trans (by simp), hty⟩
      rw [List.foldl_cons, hline, line_modifyLine _ _ (hlt i List.mem_cons_self)]
      by_cases hji : j = i
      · subst hji
        rw [if_neg (List.nodup_cons.mp hnd).1, Function.update_self, if_pos List.mem_cons_self]
      · rw [Function.update_of_ne hji]
        simp [hji]
  obtain ⟨hline, hw, hhash, hnext, hty⟩ :=
    hinv t.order h.ways.nodup (fun i hi => (h.mem i).mp hi) s
  rw [hfold]
  refine ⟨?_, fun i hi => ?_, hty.trans h.setType, h.mem, fun hh k hk => ?_⟩
  · rw [hw]
    exact h.ways
  · rw [WaySet.renew_order] at hi
    rw [hline, if_pos hi, h.line i hi, WaySet.renew_lines]
  · obtain ⟨l, hseg, hnd, hmem⟩ := h.chains hh k hk
    refine ⟨l, by rw [hhash, hnext]; exact hseg, hnd, fun j => ?_⟩
    rw [hmem j, hline]
    split_ifs
    · rw [hf]
    · exact Iff.rfl

end SetRefines

/-! ### Victim searches -/

section victim

variable {found : Line cfg → Bool} {f : Line cfg → Line cfg} {s s' : CacheSet cfg}
  {t t' : WaySet cfg} {i : ℕ}

theorem victimLoop_none (fuel : ℕ) (s : CacheSet cfg) : victimLoop found f fuel s none = none := by
  cases fuel <;> rfl

/-- A search that ends in time also ends with more time. -/
theorem victimLoop_mono {fuel m : ℕ} {b : Option ℕ} {r : ℕ × CacheSet cfg}
    (h : victimLoop found f fuel s b = some r) : victimLoop found f (fuel + m) s b = some r := by
  induction fuel generalizing s b with
  | zero => exact absurd h (by simp [victimLoop])
  | succ fuel ih =>
    cases b with
    | none => exact absurd h (by simp [victimLoop])
    | some blk =>
      rw [Nat.add_right_comm]
      simp only [victimLoop] at h ⊢
      split_ifs at h ⊢
      · exact h
      · rcases hw : (s.mapWays f).wayHead with _ | x
        · rw [hw] at h
          exact absurd h (by simp)
        · rw [hw] at h
          exact ih h
      · exact ih h

/-- A search along a single block finds nothing. -/
theorem searchRounds_of_tail_eq_nil (ht : t.order.tail = []) (n : ℕ) :
    t.searchRounds found f n = none := by
  induction n generalizing t with
  | zero => rfl
  | succ n ih =>
    rw [WaySet.searchRounds, ht]
    exact ih ht

namespace SetRefines

/-- **One pass** of the search loop along the rest of the way list: it ends at the first block
found, or renews all blocks and goes on with the second. -/
theorem victimLoop_pass (found : Line cfg → Bool) (h : SetRefines s t)
    (hf : ∀ l, (f l).tag = l.tag) (pre rest : List ℕ) (ho : t.order = pre ++ rest)
    (hne : rest ≠ []) (fuel : ℕ) :
    CacheSet.victimLoop found f (rest.length + fuel) s rest.head? =
      match rest.find? fun i => found (t.lines i) with
      | some i => some (i, s)
      | none => CacheSet.victimLoop found f fuel (s.mapWays f) t.order.tail.head? := by
  induction rest generalizing pre with
  | nil => exact absurd rfl hne
  | cons i rest ih =>
    have hi : i ∈ t.order := by simp [ho]
    have hnext : s.wayNext i = rest.head? := by
      have hrep := h.ways
      rw [ho] at hrep
      exact hrep.next_eq
    rw [List.length_cons, Nat.add_right_comm, List.head?_cons, victimLoop, h.line i hi, hnext,
      List.find?_cons]
    cases hfound : found (t.lines i)
    · rw [if_neg (by simp)]
      -- not this block: the loop goes on with the next one, if there is one
      rcases rest with _ | ⟨j, rest⟩
      · -- the last block of the list
        rw [if_pos List.head?_nil]
        have hren := h.mapWays hf
        obtain ⟨x, l, hl⟩ : ∃ x l, t.order = x :: l :=
          List.exists_cons_of_ne_nil (List.ne_nil_of_mem hi)
        have hhead : (s.mapWays f).wayHead = some x := by
          rw [hren.wayHead, WaySet.renew_order, hl]
          rfl
        have hsecond : (s.mapWays f).wayNext x = t.order.tail.head? := by
          have hrep := hren.ways
          rw [WaySet.renew_order, hl, ← List.nil_append (x :: l)] at hrep
          rw [hl]
          exact hrep.next_eq
        simp only [hhead, hsecond, List.length_nil, Nat.zero_add, List.find?_nil]
      · rw [if_neg (by simp)]
        exact ih (pre ++ [i]) (ho.trans (List.append_cons pre i (j :: rest))) (by simp)
    · rw [if_pos rfl]

/-- A search in the source that ends was a search in rounds. -/
theorem searchRounds_of_victimLoop (h : SetRefines s t) (hf : ∀ l, (f l).tag = l.tag)
    {fuel : ℕ}
    (hv : CacheSet.victimLoop found f fuel (s.mapWays f) t.order.tail.head? = some (i, s')) :
    ∃ n t', t.searchRounds found f n = some (i, t') ∧ SetRefines s' t' := by
  induction fuel using Nat.strong_induction_on generalizing s t with
  | _ fuel ih =>
    have hren := h.mapWays hf
    rcases hl : t.order with _ | ⟨x, l⟩
    · rw [hl, List.tail_nil, List.head?_nil, victimLoop_none] at hv
      exact absurd hv (by simp)
    rcases hl' : l with _ | ⟨y, l'⟩
    · rw [hl, List.tail_cons, hl', List.head?_nil, victimLoop_none] at hv
      exact absurd hv (by simp)
    have hlne : l ≠ [] := by simp [hl']
    have hpass := fun m => victimLoop_pass found hren hf [x] l
      (by rw [WaySet.renew_order, hl]; rfl) hlne m
    rw [hl, List.tail_cons] at hv
    simp only [WaySet.renew_order, WaySet.renew_lines, hl, List.tail_cons] at hpass
    -- what one pass finds, one round finds
    have hround : ∀ m, t.searchRounds found f (m + 1) =
        match l.find? fun i => found (f (t.lines i)) with
        | some i => some (i, t.renew f)
        | none => (t.renew f).searchRounds found f m := by
      intro m
      rw [WaySet.searchRounds, hl]
      rfl
    by_cases hlen : l.length ≤ fuel
    · obtain ⟨m, rfl⟩ := Nat.exists_eq_add_of_le hlen
      rw [hpass m] at hv
      rcases hfind : l.find? fun i => found (f (t.lines i)) with _ | j
      · simp only [hfind] at hv
        have hm : m < l.length + m := by
          have : 0 < l.length := List.length_pos_iff.mpr hlne
          omega
        obtain ⟨n, t', hn, hr⟩ := ih m hm hren (by rw [WaySet.renew_order, hl]; exact hv)
        exact ⟨n + 1, t', by rw [hround, hfind]; exact hn, hr⟩
      · simp only [hfind] at hv
        obtain ⟨rfl, rfl⟩ := Prod.mk.inj (Option.some.inj hv)
        exact ⟨1, t.renew f, by rw [hround, hfind], hren⟩
    · -- the time runs out during this pass, so this pass finds the victim
      have hv' := victimLoop_mono (m := l.length - fuel) hv
      rw [show fuel + (l.length - fuel) = l.length + 0 by omega, hpass 0] at hv'
      rcases hfind : l.find? fun i => found (f (t.lines i)) with _ | j
      · simp [hfind, victimLoop] at hv'
      · simp only [hfind] at hv'
        obtain ⟨rfl, rfl⟩ := Prod.mk.inj (Option.some.inj hv')
        exact ⟨1, t.renew f, by rw [hround, hfind], hren⟩

/-- A search in rounds is a search in the source, in time for as many passes. -/
theorem victimLoop_of_searchRounds (h : SetRefines s t) (hf : ∀ l, (f l).tag = l.tag) {n : ℕ}
    (hn : t.searchRounds found f n = some (i, t')) {fuel : ℕ} (hfuel : n * cfg.assoc ≤ fuel) :
    ∃ s', CacheSet.victimLoop found f fuel (s.mapWays f) t.order.tail.head? = some (i, s') ∧
      SetRefines s' t' := by
  induction n generalizing s t fuel with
  | zero => exact absurd hn (by simp [WaySet.searchRounds])
  | succ n ih =>
    have hren := h.mapWays hf
    by_cases htail : t.order.tail = []
    · rw [searchRounds_of_tail_eq_nil htail] at hn
      exact absurd hn (by simp)
    obtain ⟨x, l, hl⟩ : ∃ x l, t.order = x :: l :=
      List.exists_cons_of_ne_nil fun h0 => htail (by rw [h0]; rfl)
    rw [hl, List.tail_cons] at htail
    have hlen : l.length ≤ cfg.assoc := by
      have hle := h.length_le
      rw [hl, List.length_cons] at hle
      omega
    obtain ⟨m, hm⟩ : ∃ m, fuel = l.length + m := by
      refine Nat.exists_eq_add_of_le ?_
      rw [Nat.succ_mul] at hfuel
      omega
    have hmle : n * cfg.assoc ≤ m := by
      rw [Nat.succ_mul] at hfuel
      omega
    -- a round is a pass from the second block on, of one iteration for each
    have hpass := victimLoop_pass found hren hf [x] l
      (by rw [WaySet.renew_order, hl]; rfl) htail m
    simp only [WaySet.renew_order, WaySet.renew_lines, hl, List.tail_cons] at hpass
    rw [hl, List.tail_cons, hm, hpass]
    rw [WaySet.searchRounds, hl, List.tail_cons] at hn
    rcases hfind : l.find? fun i => found (f (t.lines i)) with _ | j
    · simp only [hfind] at hn ⊢
      obtain ⟨s', hs', hr⟩ := ih hren hn hmle
      rw [WaySet.renew_order, hl] at hs'
      exact ⟨s', hs', hr⟩
    · simp only [hfind] at hn ⊢
      obtain ⟨rfl, rfl⟩ := Prod.mk.inj (Option.some.inj hn)
      exact ⟨_, rfl, hren⟩

/-- **Victim searches agree**, if `RRPV_MAX` rounds are enough for a search that ends. -/
theorem victimLoop_rel (found : Line cfg → Bool) (h : SetRefines s t)
    (hf : ∀ l, (f l).tag = l.tag)
    (hbound : ∀ n r, t.searchRounds found f n = some r →
      t.searchRounds found f rrpvMax.toNat = some r) :
    Option.Rel (fun p q => p.1 = q.1 ∧ SetRefines p.2 q.2)
      (CacheSet.victimLoop found f (victimFuel cfg) s s.wayHead) (t.search found f) := by
  have hne : t.order ≠ [] := List.ne_nil_of_mem ((h.mem 0).mpr cfg.assoc_ok.pos)
  have hlen := h.length_le
  obtain ⟨m, hm, hmle⟩ : ∃ m, victimFuel cfg = t.order.length + m ∧
      rrpvMax.toNat * cfg.assoc ≤ m := by
    refine ⟨victimFuel cfg - t.order.length, ?_, ?_⟩ <;>
    · simp only [victimFuel, show rrpvMax.toNat = 7 from rfl]
      omega
  rw [h.wayHead, hm, victimLoop_pass found h hf [] t.order rfl hne m, WaySet.search]
  rcases hfind : t.order.find? fun i => found (t.lines i) with _ | i
  · dsimp only
    rcases hs : t.searchRounds found f rrpvMax.toNat with _ | ⟨i, t'⟩
    · -- a victim in the source would be one of some round
      rcases hv : CacheSet.victimLoop found f m (s.mapWays f) t.order.tail.head? with _ | ⟨i, s'⟩
      · exact Option.Rel.none
      · obtain ⟨n, t', hn, -⟩ := h.searchRounds_of_victimLoop hf hv
        rw [hbound n _ hn] at hs
        exact absurd hs (by simp)
    · obtain ⟨s', hs', hr⟩ := h.victimLoop_of_searchRounds hf hs hmle
      rw [hs']
      exact Option.Rel.some ⟨rfl, hr⟩
  · exact Option.Rel.some ⟨rfl, h⟩

end SetRefines

/-- A search finds a block of the set. -/
theorem searchRounds_mem {n : ℕ} (h : t.searchRounds found f n = some (i, t')) :
    i ∈ t.order ∧ t'.order = t.order ∧ t'.setType = t.setType := by
  induction n generalizing t with
  | zero => exact absurd h (by simp [WaySet.searchRounds])
  | succ n ih =>
    rw [WaySet.searchRounds] at h
    rcases hfind : t.order.tail.find? fun i => found (f (t.lines i)) with _ | j
    · simp only [hfind] at h
      exact ih (t := t.renew f) h
    · simp only [hfind] at h
      obtain ⟨rfl, rfl⟩ := Prod.mk.inj (Option.some.inj h)
      exact ⟨List.mem_of_mem_tail (List.mem_of_find?_eq_some hfind), rfl, rfl⟩

theorem search_mem (h : t.search found f = some (i, t')) :
    i ∈ t.order ∧ t'.order = t.order ∧ t'.setType = t.setType := by
  rw [WaySet.search] at h
  rcases hfind : t.order.find? fun i => found (t.lines i) with _ | j
  · simp only [hfind] at h
    exact searchRounds_mem h
  · simp only [hfind] at h
    obtain ⟨rfl, rfl⟩ := Prod.mk.inj (Option.some.inj h)
    exact ⟨List.mem_of_find?_eq_some hfind, rfl, rfl⟩

/-- What renewing keeps of a line, a search keeps. -/
theorem search_induction {P : Line cfg → Prop} (hP : ∀ l, P l → P (f l))
    (h : t.search found f = some (i, t')) {j : ℕ} (hj : P (t.lines j)) : P (t'.lines j) := by
  have hrounds : ∀ n (t : WaySet cfg), t.searchRounds found f n = some (i, t') →
      P (t.lines j) → P (t'.lines j) := by
    intro n
    induction n with
    | zero => exact fun t h => absurd h (by simp [WaySet.searchRounds])
    | succ n ih =>
      intro t h hj
      rw [WaySet.searchRounds] at h
      rcases hfind : t.order.tail.find? fun i => found (f (t.lines i)) with _ | k
      · simp only [hfind] at h
        exact ih _ h (hP _ hj)
      · simp only [hfind] at h
        obtain ⟨-, rfl⟩ := Prod.mk.inj (Option.some.inj h)
        exact hP _ hj
  rw [WaySet.search] at h
  rcases hfind : t.order.find? fun i => found (t.lines i) with _ | k
  · simp only [hfind] at h
    exact hrounds _ t h hj
  · simp only [hfind] at h
    obtain ⟨-, rfl⟩ := Prod.mk.inj (Option.some.inj h)
    exact hj

end victim

/-! ### How many rounds a search takes -/

/-- An `NRU` search that renews ends with its first round. -/
theorem nru_bound {t : WaySet cfg} {n : ℕ} {r : ℕ × WaySet cfg}
    (h : t.searchRounds (fun l => l.nruBit) (fun l => { l with nruBit := true }) n = some r) :
    t.searchRounds (fun l => l.nruBit) (fun l => { l with nruBit := true }) rrpvMax.toNat =
      some r := by
  cases n with
  | zero => exact absurd h (by simp [WaySet.searchRounds])
  | succ n =>
    rcases hl : t.order.tail with _ | ⟨x, l⟩
    · rw [searchRounds_of_tail_eq_nil hl] at h
      exact absurd h (by simp)
    · rw [WaySet.searchRounds, hl] at h
      rw [show rrpvMax.toNat = 6 + 1 from rfl, WaySet.searchRounds, hl]
      exact h

/-- A `DRRIP` search from values of at least `RRPV_MAX - k` takes at most `k` rounds. -/
theorem drrip_bound {t : WaySet cfg} {n k : ℕ} {r : ℕ × WaySet cfg}
    (hk : ∀ i ∈ t.order, rrpvMax - k ≤ (t.lines i).rrpv)
    (h : t.searchRounds (fun l => l.rrpv = rrpvMax) (fun l => { l with rrpv := l.rrpv + 1 }) n =
      some r) :
    t.searchRounds (fun l => l.rrpv = rrpvMax) (fun l => { l with rrpv := l.rrpv + 1 }) k =
      some r := by
  induction n generalizing t k with
  | zero => exact absurd h (by simp [WaySet.searchRounds])
  | succ n ih =>
    rw [WaySet.searchRounds] at h
    cases k with
    | zero =>
      -- all values are past the one that is looked for
      rcases hfind : t.order.tail.find? fun i =>
          decide ((t.lines i).rrpv + 1 = rrpvMax) with _ | j
      · simp only [hfind] at h
        refine ih (t := t.renew _) (k := 0) (fun i hi => ?_) h
        have := hk i hi
        simp only [WaySet.renew_lines]
        omega
      · have hj := List.find?_some hfind
        have := hk j (List.mem_of_mem_tail (List.mem_of_find?_eq_some hfind))
        simp only [decide_eq_true_eq] at hj
        omega
    | succ k =>
      rw [WaySet.searchRounds]
      rcases hfind : t.order.tail.find? fun i =>
          decide ((t.lines i).rrpv + 1 = rrpvMax) with _ | j
      · simp only [hfind] at h ⊢
        refine ih (t := t.renew _) (k := k) (fun i hi => ?_) h
        have := hk i hi
        simp only [WaySet.renew_lines]
        omega
      · simp only [hfind] at h ⊢
        exact h

end AdvancedArchitecture.Cache
