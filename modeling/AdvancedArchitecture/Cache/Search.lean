import AdvancedArchitecture.Cache.Decomposition

/-!
# Searches that end

The loops of `NRU` and `DRRIP` have no bound on their iterations. `SearchEnds` is what such a loop
does, and `searchEnds_iff` says when it ends, with which block and after how many rounds: without
a round at the first block found, or after some rounds at the first found behind the first block
of the way list, which no round looks at.

A set of two blocks or more has a block behind the first. It is never aged past the bound as long
as it stays behind, so every search ends (`search_ends`).
-/

namespace AdvancedArchitecture.Cache

open CacheSet

variable {W : Type} {cfg : Config} {E : Extern W cfg}

/-! ### The loop -/

/-- The search loop from a block on ends with `repl` after `k` rounds of renewal and leaves `s'`.
After a round it goes on with the second block. -/
inductive SearchEnds (found : Line cfg → Bool) (renew : Line cfg → Line cfg) :
    CacheSet cfg → Option ℕ → ℕ → ℕ → CacheSet cfg → Prop
  | found {s : CacheSet cfg} {blk : ℕ} (hf : found (s.line blk) = true) :
    SearchEnds found renew s (some blk) 0 blk s
  | next {s s' : CacheSet cfg} {blk k repl : ℕ} (hf : found (s.line blk) = false)
    (hnext : s.wayNext blk ≠ none)
    (hrest : SearchEnds found renew s (s.wayNext blk) k repl s') :
    SearchEnds found renew s (some blk) k repl s'
  | round {s s' : CacheSet cfg} {blk head k repl : ℕ} (hf : found (s.line blk) = false)
    (hlast : s.wayNext blk = none) (hhead : (s.mapWays renew).wayHead = some head)
    (hrest : SearchEnds found renew (s.mapWays renew) ((s.mapWays renew).wayNext head) k repl s') :
    SearchEnds found renew s (some blk) (k + 1) repl s'

section loop

variable {found : Line cfg → Bool} {renew : Line cfg → Line cfg} {s s' : CacheSet cfg}
  {t : WaySet cfg} {b : Option ℕ} {k repl i : ℕ}

/-- **The loop of the model** is this loop, with a bound on its iterations. -/
theorem exists_searchEnds_iff : (∃ k, SearchEnds found renew s b k repl s') ↔
    ∃ fuel, victimLoop found renew fuel s b = some (repl, s') := by
  constructor
  · rintro ⟨k, h⟩
    induction h with
    | found hf => exact ⟨1, by rw [victimLoop, if_pos hf]⟩
    | next hf hnext _ ih =>
      obtain ⟨fuel, ih⟩ := ih
      refine ⟨fuel + 1, ?_⟩
      rw [victimLoop, if_neg (by simp [hf]), if_neg hnext]
      exact ih
    | round hf hlast hhead _ ih =>
      obtain ⟨fuel, ih⟩ := ih
      refine ⟨fuel + 1, ?_⟩
      rw [victimLoop, if_neg (by simp [hf]), if_pos hlast]
      simp only [hhead]
      exact ih
  · rintro ⟨fuel, h⟩
    induction fuel generalizing s b with
    | zero => exact absurd h (by simp [victimLoop])
    | succ fuel ih =>
      rcases b with _ | blk
      · exact absurd h (by simp [victimLoop])
      rw [victimLoop] at h
      split_ifs at h with hf hlast
      · obtain ⟨rfl, rfl⟩ := Prod.mk.inj (Option.some.inj h)
        exact ⟨0, .found hf⟩
      · rcases hhead : (s.mapWays renew).wayHead with _ | head
        · simp [hhead] at h
        · simp only [hhead] at h
          obtain ⟨k, hk⟩ := ih h
          exact ⟨k + 1, .round (by simpa using hf) hlast hhead hk⟩
      · obtain ⟨k, hk⟩ := ih h
        exact ⟨k, .next (by simpa using hf) hlast hk⟩

theorem not_searchEnds_none : ¬ SearchEnds found renew s none k repl s' := by
  rintro ⟨⟩

section iteration

variable {blk next head : ℕ}

theorem searchEnds_found_iff (hf : found (s.line blk) = true) :
    SearchEnds found renew s (some blk) k repl s' ↔ blk = repl ∧ k = 0 ∧ s' = s := by
  constructor
  · rintro (_ | ⟨hf', -⟩ | ⟨hf', -⟩)
    · exact ⟨rfl, rfl, rfl⟩
    all_goals exact absurd (hf.symm.trans hf') (by decide)
  · rintro ⟨rfl, rfl, rfl⟩
    exact .found hf

theorem searchEnds_next_iff (hf : found (s.line blk) = false) (hnext : s.wayNext blk = some next) :
    SearchEnds found renew s (some blk) k repl s' ↔
      SearchEnds found renew s (some next) k repl s' := by
  constructor
  · rintro (hf' | ⟨-, -, hrest⟩ | ⟨-, hlast, -⟩)
    · exact absurd (hf.symm.trans hf') (by decide)
    · exact hnext ▸ hrest
    · exact absurd (hnext.symm.trans hlast) (by simp)
  · exact fun hrest => .next hf (by simp [hnext]) (hnext ▸ hrest)

/-- Behind the last block a new round starts. -/
theorem searchEnds_last_iff (hf : found (s.line blk) = false) (hlast : s.wayNext blk = none)
    (hhead : (s.mapWays renew).wayHead = some head) :
    SearchEnds found renew s (some blk) k repl s' ↔ ∃ k', k = k' + 1 ∧
      SearchEnds found renew (s.mapWays renew) ((s.mapWays renew).wayNext head) k' repl s' := by
  constructor
  · rintro (hf' | ⟨-, hnext, -⟩ | ⟨-, -, hhead', hrest⟩)
    · exact absurd (hf.symm.trans hf') (by decide)
    · exact absurd hlast hnext
    · obtain rfl := Option.some.inj (hhead.symm.trans hhead')
      exact ⟨_, rfl, hrest⟩
  · rintro ⟨k', rfl, hrest⟩
    exact .round hf hlast hhead hrest

end iteration

/-- The new round looks at the second block of the way list. -/
theorem mapWays_second (h : SetRefines s t) (hren : ∀ l, (renew l).tag = l.tag)
    (hne : t.order ≠ []) : ∃ head, (s.mapWays renew).wayHead = some head ∧
      (s.mapWays renew).wayNext head = t.order.tail.head? := by
  obtain ⟨x, l, hl⟩ := List.exists_cons_of_ne_nil hne
  have hways := h.mapWays hren
  have hrep := hways.ways
  rw [WaySet.renew_order, hl, ← List.nil_append (x :: l)] at hrep
  refine ⟨x, ?_, ?_⟩
  · rw [hways.wayHead, WaySet.renew_order, hl]
    rfl
  · rw [hl]
    exact hrep.next_eq

/-- **One pass** of the loop along the rest of the way list: it ends at the first block found, or
renews all blocks and goes on with the second. -/
theorem searchEnds_pass (h : SetRefines s t) (hren : ∀ l, (renew l).tag = l.tag)
    {pre rest : List ℕ} (ho : t.order = pre ++ rest) (hne : rest ≠ []) :
    SearchEnds found renew s rest.head? k repl s' ↔
      (rest.find? fun j => found (t.lines j)) = some repl ∧ k = 0 ∧ s' = s ∨
        (rest.find? fun j => found (t.lines j)) = none ∧ ∃ k', k = k' + 1 ∧
          SearchEnds found renew (s.mapWays renew) t.order.tail.head? k' repl s' := by
  induction rest generalizing pre with
  | nil => exact absurd rfl hne
  | cons i rest ih =>
    have hi : i ∈ t.order := by simp [ho]
    have hline : found (s.line i) = found (t.lines i) := congrArg found (h.line i hi)
    have hnext : s.wayNext i = rest.head? := by
      have hrep := h.ways
      rw [ho] at hrep
      exact hrep.next_eq
    rw [List.head?_cons, List.find?_cons]
    cases hfound : found (t.lines i) with
    | true =>
      rw [searchEnds_found_iff (hline.trans hfound)]
      simp
    | false =>
      rcases rest with _ | ⟨j, rest⟩
      · -- the last block
        obtain ⟨head, hhead, hsecond⟩ := mapWays_second h hren
          (List.ne_nil_of_mem hi)
        rw [searchEnds_last_iff (hline.trans hfound) hnext hhead, hsecond]
        simp
      · rw [searchEnds_next_iff (hline.trans hfound) hnext]
        have ho' : t.order = (pre ++ [i]) ++ j :: rest :=
          ho.trans (List.append_cons pre i (j :: rest))
        exact ih ho' (by simp)

/-- **One round**: the loop looks at the blocks behind the first. -/
theorem searchEnds_round (h : SetRefines s t) (hren : ∀ l, (renew l).tag = l.tag) :
    (∃ s', SearchEnds found renew (s.mapWays renew) t.order.tail.head? k repl s') ↔
      (t.order.tail.find? fun j => found (renew (t.lines j))) = some repl ∧ k = 0 ∨
        (t.order.tail.find? fun j => found (renew (t.lines j))) = none ∧ ∃ k', k = k' + 1 ∧
          ∃ s', SearchEnds found renew ((s.mapWays renew).mapWays renew) t.order.tail.head?
            k' repl s' := by
  rcases htail : t.order.tail with _ | ⟨y, l⟩
  · simp [not_searchEnds_none]
  · obtain ⟨x, hx⟩ : ∃ x, t.order = [x] ++ y :: l := by
      rw [← htail]
      exact ⟨t.order.head (by rintro h0; simp [h0] at htail), (List.cons_head_tail _).symm⟩
    have hpass : ∀ s', SearchEnds found renew (s.mapWays renew) (y :: l).head? k repl s' ↔ _ :=
      fun s' => searchEnds_pass (h.mapWays hren) hren (t := t.renew renew) hx
        (List.cons_ne_nil y l)
    simp only [WaySet.renew_order, htail, WaySet.renew_lines] at hpass
    constructor
    · rintro ⟨s', hs⟩
      rcases (hpass s').mp hs with ⟨hfind, hk, -⟩ | ⟨hnone, k', hk, hrest⟩
      · exact Or.inl ⟨hfind, hk⟩
      · exact Or.inr ⟨hnone, k', hk, s', hrest⟩
    · rintro (⟨hfind, hk⟩ | ⟨hnone, k', hk, s', hrest⟩)
      · exact ⟨_, (hpass _).mpr (Or.inl ⟨hfind, hk, rfl⟩)⟩
      · exact ⟨s', (hpass s').mpr (Or.inr ⟨hnone, k', hk, hrest⟩)⟩

/-- The loop after a round ends in the first round that finds a block. -/
theorem searchEnds_rounds (h : SetRefines s t) (hren : ∀ l, (renew l).tag = l.tag) :
    (∃ s', SearchEnds found renew (s.mapWays renew) t.order.tail.head? k repl s') ↔
      (t.order.tail.find? fun j => found (renew^[k + 1] (t.lines j))) = some repl ∧
        ∀ k' < k, (t.order.tail.find? fun j => found (renew^[k' + 1] (t.lines j))) = none := by
  induction k generalizing s t with
  | zero =>
    rw [searchEnds_round h hren]
    simp
  | succ k ih =>
    have hrest := ih (h.mapWays hren)
    simp only [WaySet.renew_order, WaySet.renew_lines, ← Function.iterate_succ_apply] at hrest
    rw [searchEnds_round h hren]
    constructor
    · rintro (⟨-, hk⟩ | ⟨hnone, k', hk, hs⟩)
      · exact absurd hk (Nat.succ_ne_zero k)
      · obtain rfl : k = k' := Nat.succ.inj hk
        obtain ⟨hfind, hbefore⟩ := hrest.mp hs
        refine ⟨hfind, fun n hn => ?_⟩
        rcases n with _ | n
        · exact hnone
        · exact hbefore n (by omega)
    · rintro ⟨hfind, hbefore⟩
      refine Or.inr ⟨hbefore 0 (Nat.succ_pos k), k, rfl, hrest.mpr ⟨hfind, fun n hn => ?_⟩⟩
      exact hbefore (n + 1) (by omega)

/-- **When a search ends**: at the first block found, or after `k` rounds with the first block
that they let be found behind the first. -/
theorem searchEnds_iff (h : SetRefines s t) (hren : ∀ l, (renew l).tag = l.tag) :
    (∃ s', SearchEnds found renew s s.wayHead k repl s') ↔
      (t.order.find? fun j => found (t.lines j)) = some repl ∧ k = 0 ∨
        (t.order.find? fun j => found (t.lines j)) = none ∧ ∃ k', k = k' + 1 ∧
          (t.order.tail.find? fun j => found (renew^[k' + 1] (t.lines j))) = some repl ∧
          ∀ n < k', (t.order.tail.find? fun j => found (renew^[n + 1] (t.lines j))) = none := by
  have hne : t.order ≠ [] := List.ne_nil_of_mem ((h.mem 0).mpr cfg.assoc_ok.pos)
  have hpass : ∀ s', SearchEnds found renew s t.order.head? k repl s' ↔ _ := fun s' =>
    searchEnds_pass h hren (List.nil_append t.order).symm hne
  rw [SetRel.wayHead h]
  constructor
  · rintro ⟨s', hs⟩
    rcases (hpass s').mp hs with ⟨hfind, hk, -⟩ | ⟨hnone, k', hk, hrest⟩
    · exact Or.inl ⟨hfind, hk⟩
    · exact Or.inr ⟨hnone, k', hk, (searchEnds_rounds h hren).mp ⟨s', hrest⟩⟩
  · rintro (⟨hfind, hk⟩ | ⟨hnone, k', hk, hrest⟩)
    · exact ⟨s, (hpass s).mpr (Or.inl ⟨hfind, hk, rfl⟩)⟩
    · obtain ⟨s', hs⟩ := (searchEnds_rounds h hren).mpr hrest
      exact ⟨s', (hpass s').mpr (Or.inr ⟨hnone, k', hk, hs⟩)⟩

end loop

/-! ### The searches of the two policies -/

/-- The search of the policy for a victim ends with block `repl` after `k` rounds. -/
def CacheSet.VictimSearch (s : CacheSet cfg) (k repl : ℕ) : Prop :=
  match cfg.policy with
  | .nru => ∃ s', SearchEnds (fun l => l.nruBit) (fun l => { l with nruBit := true })
      s s.wayHead k repl s'
  | .drrip => ∃ s', SearchEnds (fun l => l.rrpv = rrpvMax)
      (fun l => { l with rrpv := l.rrpv + 1 }) s s.wayHead k repl s'
  | _ => False

/-- The rounds that a search of the policy may take. -/
def CachePolicy.maxRounds : CachePolicy → ℕ
  | .nru => 1
  | .drrip => rrpvMax.toNat
  | _ => 0

section policies

variable {s : CacheSet cfg} {t t' : WaySet cfg} {i k : ℕ} {regs regs' : Regs} {w w' : W}

/-- A `DRRIP` search ends where aging brings a block to the bound. -/
theorem SetRefines.victimSearch_iff_aged (h : SetRefines s t) (hp : cfg.policy = .drrip) :
    s.VictimSearch k i ↔ Aged t.order (fun j => (t.lines j).rrpv) i k := by
  simp only [VictimSearch, hp]
  refine Iff.trans (searchEnds_iff h fun _ => rfl) ?_
  simp only [rrpv_iterate]
  constructor
  · rintro (⟨hfind, rfl⟩ | ⟨hnone, k', rfl, hfind, hbefore⟩)
    · refine ⟨?_, fun _ => hfind, fun hk => absurd hk (lt_irrefl 0),
        fun hk => absurd hk (lt_irrefl 0), fun n _ hn => absurd hn (Nat.not_lt_zero n)⟩
      simpa using List.find?_some hfind
    · refine ⟨?_, fun hk => absurd hk (Nat.succ_ne_zero k'), fun _ => hfind, fun _ j hj => ?_,
        fun n hn hlt j hj => ?_⟩
      · simpa using List.find?_some hfind
      · simpa using List.find?_eq_none.mp hnone j hj
      · obtain ⟨m, rfl⟩ := Nat.exists_eq_succ_of_ne_zero hn.ne'
        simpa using List.find?_eq_none.mp (hbefore m (by omega)) j hj
  · intro haged
    rcases k with _ | k
    · exact Or.inl ⟨haged.first rfl, rfl⟩
    · have hpos := Nat.succ_pos k
      refine Or.inr ⟨?_, k, rfl, haged.later hpos, fun n hn => ?_⟩
      · exact List.find?_eq_none.mpr fun j hj => by simpa using haged.none hpos j hj
      · refine List.find?_eq_none.mpr fun j hj => ?_
        simpa using haged.before (n + 1) (Nat.succ_pos n) (by omega) j hj

/-- **What is chosen is what the loop finds**, in the rounds that the policy may take. -/
theorem SetRefines.victimSearch (h : SetRefines s t) (hinv : t.Inv)
    (hp : cfg.policy = .nru ∨ cfg.policy = .drrip)
    (hsel : t.selectVictim E regs w = some (i, t', regs', w')) :
    ∃ k ≤ cfg.policy.maxRounds, s.VictimSearch k i := by
  rcases hp with hp | hp
  · rcases selectVictim_nru hp hsel with ⟨hfind, -⟩ | ⟨hnone, hsecond, -⟩
    · refine ⟨0, Nat.zero_le _, ?_⟩
      simp only [VictimSearch, hp]
      exact Iff.mpr (searchEnds_iff h fun _ => rfl) (Or.inl ⟨hfind, rfl⟩)
    · refine ⟨1, by simp [hp, CachePolicy.maxRounds], ?_⟩
      simp only [VictimSearch, hp]
      refine Iff.mpr (searchEnds_iff h fun _ => rfl)
        (Or.inr ⟨hnone, 0, rfl, ?_, fun n hn => absurd hn (Nat.not_lt_zero n)⟩)
      rw [← hsecond]
      cases t.order.tail <;> rfl
  · obtain ⟨k, haged, -⟩ := selectVictim_drrip hp hsel
    refine ⟨k, ?_, (h.victimSearch_iff_aged hp).mpr haged⟩
    have hnn := hinv.rrpv_nonneg i (selectVictim_spec hinv hsel).1.mem
    have hval := haged.value
    have hmax : rrpvMax = 7 := rfl
    simp only [hp, CachePolicy.maxRounds]
    omega

end policies

/-! ### Reachable caches -/

/-- A call that leaves the order of the way lists alone, under `NRU` and `DRRIP`. -/
def Op.KeepsWays : Op → Prop
  | .flushAddr _ _ => False
  | _ => True

instance : ∀ op : Op, Decidable op.KeepsWays
  | .flushAddr _ _ => isFalse id
  | .access _ | .probe _ | .flush _ => isTrue trivial

/-- A `DRRIP` access keeps the sets searchable. -/
theorem WayCache.Searchable.access {a a' : WayCache cfg} (h : a.Searchable) {req : Request}
    {w w' : W} {r : Reply} (ha : a.access E req w = some (r, a', w')) : a'.Searchable := by
  have hlt : (cfg.set req.addr).toNat < cfg.nsets := Config.set_lt req.addr
  obtain ⟨-, ⟨-, hm⟩ | ⟨i, -, -, rfl, -⟩⟩ := WayCache.access_eq_some ha
  · obtain ⟨i, t, regs, w₁, hsel, -, rfl, -⟩ := WayCache.miss_eq_some hm
    obtain ⟨ready, data, hfill⟩ := t.fill_line E regs req i w₁
    refine h.update (fun hp => ?_) _
    rw [hfill]
    exact (h hp _ hlt).miss hp hsel rfl
  · exact h.update (fun hp => (h hp _ hlt).hit hp req i) _

/-- The calls that keep the way lists keep the sets searchable. -/
theorem WayCache.Searchable.step {a a' : WayCache cfg} (h : a.Searchable) {op : Op}
    (hop : op.KeepsWays) {w w' : W} {ans : Answer}
    (hs : WayCache.step E (a, w) op = some (ans, (a', w'))) : a'.Searchable := by
  cases op with
  | access req =>
    obtain ⟨r, -, ha⟩ := WayCache.step_access hs
    exact h.access ha
  | probe addr =>
    obtain ⟨-, rfl, -⟩ := WayCache.step_probe hs
    exact h
  | flush now =>
    obtain ⟨-, rfl, -⟩ := WayCache.step_flush hs
    intro hp i hi j hj
    have he := a.flush_emptied E now w hi
    obtain ⟨data, hd⟩ := he.line j
    rw [he.order] at hj
    rw [hd]
    exact h hp i hi j hj
  | flushAddr addr now => exact hop.elim

theorem Refines.run_searchable {c c' : CacheT cfg} {a : WayCache cfg} (h : Refines c a)
    (hs : a.Searchable) {ops : List Op} (hops : ∀ op ∈ ops, op.KeepsWays) {w w' : W}
    {answers : List Answer}
    (hr : AdvancedArchitecture.run (CacheT.step E) (c, w) ops = some (answers, (c', w'))) :
    ∃ a', Refines c' a' ∧ a'.Searchable := by
  have hstep : ∀ (s : CacheT cfg × W) (t : WayCache cfg × W) op ans s',
      Refines s.1 t.1 ∧ t.1.Searchable ∧ s.2 = t.2 → op.KeepsWays →
      CacheT.step E s op = some (ans, s') → ∃ ans' t', WayCache.step E t op = some (ans', t') ∧
        ans = ans' ∧ Refines s'.1 t'.1 ∧ t'.1.Searchable ∧ s'.2 = t'.2 := by
    rintro ⟨c, w⟩ ⟨a, -⟩ op ans ⟨c', w'⟩ ⟨h, hs, rfl⟩ hop hstep
    obtain ⟨a', ha, h'⟩ := h.step_of_eq_some E hstep
    exact ⟨ans, (a', w'), ha, rfl, h', hs.step hop ha, rfl⟩
  obtain ⟨-, t', -, -, h', hs', -⟩ := run_match hstep hops (t := (a, w)) ⟨h, hs, rfl⟩ hr
  exact ⟨t'.1, h', hs'⟩

/-- An access that misses outside block 0 is not to the last tag and set. -/
theorem Refines.tagset_ne {c : CacheT cfg} {a : WayCache cfg} (h : Refines c a) {req : Request}
    (hz : cfg.baddr req.addr ≠ 0) (hmiss : c.probe req.addr = false) :
    cfg.tagset req.addr ≠ c.lastTagset := by
  intro ht
  obtain ⟨blk, -, hrem⟩ := h.remembered hz ht
  have hl := h.lookup_of_probe hmiss
  exact WaySet.lookup_eq_none.mp hl blk hrem.mem hrem.holds

/-- **Searches end.** In a cache of two blocks or more to a set, on which no address has been
flushed, the search of every `NRU` or `DRRIP` miss ends with a block of the set: under `NRU` after
one round at most, under `DRRIP` after `RRPV_MAX`. -/
theorem search_ends (hp : cfg.policy = .nru ∨ cfg.policy = .drrip) (hassoc : 2 ≤ cfg.assoc)
    {c₀ c : CacheT cfg} (hc : cacheCreate cfg = some c₀) (E : Extern W cfg) {w₀ w : W}
    {ops : List Op} (hops : ∀ op ∈ ops, op.KeepsWays) {answers : List Answer}
    (hr : run (CacheT.step E) (c₀, w₀) ops = some (answers, (c, w))) {req : Request}
    (hok : req.ok cfg = true) (hz : cfg.baddr req.addr ≠ 0) (hmiss : c.probe req.addr = false) :
    ∃ k repl, k ≤ cfg.policy.maxRounds ∧ repl < cfg.assoc ∧
      (c.sets.get (cfg.set req.addr).toNat).VictimSearch k repl ∧
      c.victim E req w = some repl ∧ ∃ p, c.access E req w = some p := by
  obtain ⟨a, h, hs⟩ := (refines_create hc).run_searchable WayCache.searchable_create hops hr
  have hlt : (cfg.set req.addr).toNat < cfg.nsets := Config.set_lt req.addr
  have hinv := h.inv _ hlt
  obtain ⟨⟨i, t, regs, w₁⟩, hsel⟩ := selectVictim_returns hinv (fun _ => hassoc)
    (fun hp => hs hp _ hlt) (E := E) { a.regs with misses := a.regs.misses + 1 } w
  obtain ⟨p, hp'⟩ := h.access_returns hok (h.tagset_ne hz hmiss) hmiss
    (Option.isSome_iff_exists.mpr ⟨_, hsel⟩)
  obtain ⟨j, t', regs', w₂, hch⟩ := h.chosen hp' hmiss
  obtain rfl : i = j := by
    have heq := hsel.symm.trans hch.select
    simp only [Option.some.injEq, Prod.mk.injEq] at heq
    exact heq.1
  obtain ⟨k, hk, hsearch⟩ := (h.sets _ hlt).victimSearch hinv hp hsel
  have hi := (hinv.mem i).mp (selectVictim_spec hinv hsel).1.mem
  exact ⟨k, i, hk, hi, hsearch, hch.victim, p, hp'⟩

/-- The second miss of a set of two blocks finds one of them. -/
theorem search_ends_sample : ∃ c₀ answers c w, cacheCreate drripConfig = some c₀ ∧
    run (CacheT.step (journal _)) (c₀, []) [.access (readAt 8), .probe 264] =
      some (answers, (c, w)) ∧
    ∃ k repl, k ≤ rrpvMax.toNat ∧ repl < 2 ∧
      (c.sets.get (drripConfig.set (readAt 264).addr).toNat).VictimSearch k repl ∧
      c.victim (journal _) (readAt 264) w = some repl := by
  let c₀ := (cacheCreate drripConfig).get (by decide)
  have hc : cacheCreate drripConfig = some c₀ := (Option.some_get _).symm
  have hs : (run (CacheT.step (journal _)) (c₀, []) [.access (readAt 8), .probe 264]).map
      (fun r => r.2.1.probe (readAt 264).addr) = some false := by decide +kernel
  obtain ⟨⟨answers, c, w⟩, hr, hmiss⟩ := Option.map_eq_some_iff.mp hs
  have hreq : (readAt 264).ok drripConfig = true := by decide
  obtain ⟨k, repl, hk, hrepl, hsearch, hv, -⟩ := search_ends (Or.inr rfl) (by decide) hc
    (journal _) (by decide) hr hreq (by decide) hmiss
  exact ⟨c₀, answers, c, w, hc, hr, k, repl, hk, hrepl, hsearch, hv⟩

/-! ### After the flush of an address -/

/-- An access as a step. -/
def CacheT.accessStep (E : Extern W cfg) (s : CacheT cfg × W) (req : Request) :
    Option (Reply × (CacheT cfg × W)) := s.1.access E req s.2

/-- The caches that accesses make are searchable. -/
theorem Refines.of_accesses {c c' : CacheT cfg} {a : WayCache cfg} (h : Refines c a)
    (hs : a.Searchable) {reqs : List Request} {w w' : W} {replies : List Reply}
    (hr : AdvancedArchitecture.run (CacheT.accessStep E) (c, w) reqs =
      some (replies, (c', w'))) : ∃ a', Refines c' a' ∧ a'.Searchable := by
  refine run_invariant (I := fun s : CacheT cfg × W => ∃ a, Refines s.1 a ∧ a.Searchable) _ ?_
    ⟨a, h, hs⟩ hr
  rintro ⟨c, w⟩ req r ⟨c', w'⟩ ⟨a, h, hs⟩ hacc
  obtain ⟨a', ha, h'⟩ := h.access_of_eq_some E hacc
  exact ⟨a', h', hs.access ha⟩

/-- A flush of an address leaves what its counterpart does. -/
theorem Refines.of_flushAddr {c c' : CacheT cfg} {a : WayCache cfg} (h : Refines c a)
    {addr : MdAddr} {now lat : ℤ} {w w' : W} (hf : c.flushAddr E addr now w = some (lat, c', w')) :
    Refines c' (a.flushAddr E addr now w).2.1 := by
  obtain ⟨c₁, hc₁, hr⟩ := h.flushAddr E addr now w
  have heq := hc₁.symm.trans hf
  simp only [Option.some.injEq, Prod.mk.injEq] at heq
  rw [← heq.2.1]
  exact hr

section terminates

variable {s : CacheSet cfg} {t : WaySet cfg}

/-- **When a `DRRIP` search ends**: if some block has reached the bound, or one that is not the
first is below it. -/
theorem SetRefines.victimSearch_drrip_iff (h : SetRefines s t) (hp : cfg.policy = .drrip) :
    (∃ k repl, repl < cfg.assoc ∧ s.VictimSearch k repl) ↔
      (∃ j ∈ t.order, (t.lines j).rrpv = rrpvMax) ∨
        ∃ j ∈ t.order.tail, (t.lines j).rrpv < rrpvMax := by
  constructor
  · rintro ⟨k, i, -, hsearch⟩
    have haged := (h.victimSearch_iff_aged hp).mp hsearch
    have hval := haged.value
    rcases Nat.eq_zero_or_pos k with hk | hk
    · exact Or.inl ⟨i, List.mem_of_find?_eq_some (haged.first hk), by omega⟩
    · exact Or.inr ⟨i, List.mem_of_find?_eq_some (haged.later hk), by omega⟩
  · intro hcond
    by_cases hmax : ∃ j ∈ t.order, (t.lines j).rrpv = rrpvMax
    · -- a block at the bound is found without ageing
      obtain ⟨j, hj, hjm⟩ := hmax
      have hsome : (t.order.find? fun j => (t.lines j).rrpv = rrpvMax).isSome = true :=
        List.find?_isSome.mpr ⟨j, hj, decide_eq_true hjm⟩
      obtain ⟨i, hfind⟩ := Option.isSome_iff_exists.mp hsome
      refine ⟨0, i, (h.mem i).mp (List.mem_of_find?_eq_some hfind),
        (h.victimSearch_iff_aged hp).mpr ⟨?_, fun _ => hfind, fun hk => absurd hk (lt_irrefl 0),
          fun hk => absurd hk (lt_irrefl 0), fun n _ hn => absurd hn (Nat.not_lt_zero n)⟩⟩
      simpa using List.find?_some hfind
    · -- the first round that brings a block to the bound
      have hround : ∃ k : ℕ, 0 < k ∧ ∃ j ∈ t.order.tail, (t.lines j).rrpv + k = rrpvMax := by
        obtain ⟨j, hj, hlt⟩ := hcond.resolve_left hmax
        exact ⟨(rrpvMax - (t.lines j).rrpv).toNat, by omega, j, hj, by omega⟩
      classical
      obtain ⟨hk, j, hj, hjk⟩ := Nat.find_spec hround
      have hsome : (t.order.tail.find? fun j =>
          (t.lines j).rrpv + (Nat.find hround : ℕ) = rrpvMax).isSome = true :=
        List.find?_isSome.mpr ⟨j, hj, decide_eq_true hjk⟩
      obtain ⟨i, hfind⟩ := Option.isSome_iff_exists.mp hsome
      have hi := List.mem_of_mem_tail (List.mem_of_find?_eq_some hfind)
      refine ⟨Nat.find hround, i, (h.mem i).mp hi, (h.victimSearch_iff_aged hp).mpr
        ⟨?_, fun h0 => absurd h0 hk.ne', fun _ => hfind, fun _ y hy hym => hmax ⟨y, hy, hym⟩,
          fun n hn hlt y hy hyn => Nat.find_min hround hlt ⟨hn, y, hy, hyn⟩⟩⟩
      simpa using List.find?_some hfind

/-- What hits do to a set: some blocks are given the value 0, and nothing else changes in the
order, the valid bits and the values. -/
structure Promoted (t t' : WaySet cfg) : Prop where
  order : t'.order = t.order
  valid : ∀ j, (t'.lines j).valid = (t.lines j).valid
  rrpv : ∀ j, (t'.lines j).rrpv = (t.lines j).rrpv ∨
    (t.lines j).valid = true ∧ (t'.lines j).rrpv = 0

theorem Promoted.refl (t : WaySet cfg) : Promoted t t := ⟨rfl, fun _ => rfl, fun _ => Or.inl rfl⟩

theorem Promoted.trans {t₁ t₂ t₃ : WaySet cfg} (h : Promoted t₁ t₂) (h' : Promoted t₂ t₃) :
    Promoted t₁ t₃ where
  order := h'.order.trans h.order
  valid j := (h'.valid j).trans (h.valid j)
  rrpv j := by
    rcases h'.rrpv j with heq | ⟨hv, hzero⟩
    · rw [heq]
      exact h.rrpv j
    · exact Or.inr ⟨by rw [← h.valid, hv], hzero⟩

/-- The values of the lines after a `DRRIP` hit. -/
theorem WaySet.hit_lines (hp : cfg.policy = .drrip) (t : WaySet cfg) (req : Request) (i j : ℕ) :
    ((t.hit req i).lines j).valid = (t.lines j).valid ∧
      ((t.hit req i).lines j).rrpv = if j = i then 0 else (t.lines j).rrpv := by
  rw [WaySet.hit, if_neg (by simp [hp]), setLine_lines]
  by_cases hji : j = i
  · rw [hji, Function.update_self, if_pos rfl, promote]
    exact ⟨rfl, if_pos hp⟩
  · rw [Function.update_of_ne hji, if_neg hji]
    exact ⟨rfl, rfl⟩

/-- A `DRRIP` hit promotes its block. -/
theorem promoted_hit (hp : cfg.policy = .drrip) (req : Request) {i : ℕ}
    (hv : (t.lines i).valid = true) : Promoted t (t.hit req i) where
  order := by rw [WaySet.hit, if_neg (by simp [hp]), WaySet.setLine_order]
  valid j := (t.hit_lines hp req i j).1
  rrpv j := by
    rw [(t.hit_lines hp req i j).2]
    split_ifs with hji
    · rw [hji]
      exact Or.inr ⟨hv, rfl⟩
    · exact Or.inl rfl

/-- **Accesses that do not miss in a set** promote blocks of it: none if the set is not accessed,
and at least one if it is. -/
theorem Refines.run_promoted (hp : cfg.policy = .drrip) {set : MdAddr} {reqs : List Request}
    {c c' : CacheT cfg} {a : WayCache cfg} (h : Refines c a) {w w' : W} {replies : List Reply}
    (hr : AdvancedArchitecture.run (CacheT.accessStep E) (c, w) reqs = some (replies, (c', w')))
    (hhits : EveryStep (CacheT.accessStep E)
      (fun s req _ _ => cfg.set req.addr = set → s.1.probe req.addr = true) (c, w) reqs) :
    ∃ a', Refines c' a' ∧ Promoted (a.sets set.toNat) (a'.sets set.toNat) ∧
      ((∀ req ∈ reqs, cfg.set req.addr ≠ set) → a'.sets set.toNat = a.sets set.toNat) ∧
      ((∃ req ∈ reqs, cfg.set req.addr = set) → ∃ j ∈ (a.sets set.toNat).order,
        ((a.sets set.toNat).lines j).valid = true ∧ ((a'.sets set.toNat).lines j).rrpv = 0) := by
  induction reqs generalizing c a w replies with
  | nil =>
    obtain ⟨-, heq⟩ := Prod.mk.inj (Option.some.inj hr)
    obtain ⟨rfl, -⟩ := Prod.mk.inj heq
    exact ⟨a, h, Promoted.refl _, fun _ => rfl, fun ⟨req, hreq, _⟩ => absurd hreq (by simp)⟩
  | cons req reqs ih =>
    obtain ⟨r, ⟨c₁, w₁⟩, replies', hs, hr', -⟩ := (run_cons_eq_some _).mp hr
    obtain ⟨hhit, hhits'⟩ := everyStep_cons.mp hhits r _ hs
    obtain ⟨a₁, ha, h₁⟩ := h.access_of_eq_some E hs
    obtain ⟨a', h', hprom, hnone, hsome⟩ := ih h₁ hr' hhits'
    by_cases hset : cfg.set req.addr = set
    · -- a hit
      subst hset
      obtain ⟨-, ⟨hl, -⟩ | ⟨i, hl, -, rfl, -⟩⟩ := WayCache.access_eq_some ha
      · exact absurd ((h.probe_of_lookup hl).symm.trans (hhit rfl)) (by decide)
      obtain ⟨hi, hh⟩ := (h.inv _ (Config.set_lt req.addr)).lookup_eq_some.mp hl
      have hupdate : (a.hit req i).2.sets (cfg.set req.addr).toNat =
          (a.sets (cfg.set req.addr).toNat).hit req i := Function.update_self _ _ _
      rw [hupdate] at hprom hnone hsome
      have hzero : (((a.sets (cfg.set req.addr).toNat).hit req i).lines i).rrpv = 0 := by
        rw [(WaySet.hit_lines hp _ req i i).2, if_pos rfl]
      refine ⟨a', h', (promoted_hit hp req hh.2).trans hprom, fun hall => ?_, fun _ => ?_⟩
      · exact absurd rfl (hall req List.mem_cons_self)
      · refine ⟨i, hi, hh.2, ?_⟩
        rcases hprom.rrpv i with heq | ⟨-, heq⟩
        · rw [heq, hzero]
        · exact heq
    · -- an access to another set
      have hframe : a₁.sets set.toNat = a.sets set.toNat :=
        WayCache.access_frame ha fun heq => hset (BitVec.eq_of_toNat_eq heq)
      rw [hframe] at hprom hnone hsome
      refine ⟨a', h', hprom, fun hall => ?_, fun hex => ?_⟩
      · exact hnone fun req' hreq => hall req' (List.mem_cons_of_mem req hreq)
      · obtain ⟨req', hreq, heq⟩ := hex
        rcases List.mem_cons.mp hreq with rfl | hreq
        · exact absurd heq hset
        · exact hsome ⟨req', hreq, heq⟩

end terminates

/-- The condition under which the flush of `addr` leaves a set in which the next miss finds a
victim, after the accesses `reqs`: unless the block is the first of the way list of a set of two
blocks and has been aged past the bound. Then the other block must be at the bound, and stay there
for want of an access to the set. -/
def FlushSafe (c : CacheT cfg) (addr : MdAddr) (reqs : List Request) : Prop :=
  let s := c.sets.get (cfg.set addr).toNat
  ∀ blk other, s.lookup (cfg.tag addr) = some blk → s.wayList = [blk, other] →
    (s.line blk).rrpv ≤ rrpvMax ∨
      (s.line other).rrpv = rrpvMax ∧ ∀ req ∈ reqs, cfg.set req.addr ≠ cfg.set addr

/-- The set of a flushed address: its block is the last of the list, and invalid. -/
theorem Refines.flushAddr_set {c c' : CacheT cfg} {a : WayCache cfg} (h : Refines c a)
    {addr : MdAddr} {now lat : ℤ} {w w' : W} {i : ℕ}
    (hl : (a.sets (cfg.set addr).toNat).lookup (cfg.tag addr) = some i)
    (hf : c.flushAddr E addr now w = some (lat, c', w')) :
    ∃ a', Refines c' a' ∧
      (a'.sets (cfg.set addr).toNat).order = (a.sets (cfg.set addr).toNat).order.erase i ++ [i] ∧
      (∀ j, ((a'.sets (cfg.set addr).toNat).lines j).rrpv =
        ((a.sets (cfg.set addr).toNat).lines j).rrpv) ∧
      ((a'.sets (cfg.set addr).toNat).lines i).valid = false := by
  refine ⟨_, h.of_flushAddr hf, ?_⟩
  rw [WayCache.flushAddr]
  dsimp only
  rw [hl]
  dsimp only
  rw [Function.update_self, WaySet.move_lines, WaySet.setLine_lines, invalidateLine_line]
  refine ⟨rfl, fun j => ?_, by rw [Function.update_self]⟩
  by_cases hji : j = i
  · rw [hji, Function.update_self]
  · rw [Function.update_of_ne hji]

/-- What the flush of block `i` and hits after it make of the set `t`. -/
structure Displaced (t t' : WaySet cfg) (i : ℕ) : Prop where
  order : t'.order = t.order.erase i ++ [i]
  rrpv : ∀ j, (t'.lines j).rrpv = (t.lines j).rrpv ∨ (t'.lines j).rrpv = 0
  self : (t'.lines i).rrpv = (t.lines i).rrpv

/-- A set of more than two blocks, or one whose first block is not the one that is flushed, has a
block behind the first that is not past the bound. -/
theorem Displaced.exists_tail {t t' : WaySet cfg} {i : ℕ} (h : Displaced t t' i)
    (hs : t.Searchable) (hnd : t.order.Nodup) (hi : i ∈ t.order) (hlen : 2 ≤ t.order.length)
    (hne : ∀ other, t.order ≠ [i, other]) :
    ∃ j ∈ t'.order.tail, (t'.lines j).rrpv ≤ rrpvMax := by
  have hmax : (0 : ℤ) ≤ rrpvMax := by decide
  rw [h.order]
  obtain ⟨x, l, hl⟩ := List.exists_cons_of_ne_nil (List.ne_nil_of_mem hi)
  rw [WaySet.Searchable, hl, List.tail_cons] at hs
  rw [hl] at hnd hi hlen hne ⊢
  by_cases hxi : x = i
  · -- the third block is behind the second
    subst hxi
    rw [List.erase_cons_head]
    rcases l with _ | ⟨y, _ | ⟨z, l⟩⟩
    · simp at hlen
    · exact absurd rfl (hne y)
    · refine ⟨z, by simp, ?_⟩
      rcases h.rrpv z with heq | heq <;> rw [heq]
      · exact hs z (by simp)
      · exact hmax
  · -- the flushed block is behind the first
    have hil : i ∈ l := (List.mem_cons.mp hi).resolve_left fun h => hxi h.symm
    rw [List.erase_cons_tail (by simpa using hxi)]
    refine ⟨i, by simp, ?_⟩
    rw [h.self]
    exact hs i hil

/-- The flush of block `i` and hits after it displace it. -/
theorem Promoted.displaced {t t₁ t₂ : WaySet cfg} {i : ℕ} (h : Promoted t₁ t₂)
    (ho : t₁.order = t.order.erase i ++ [i]) (hv : ∀ j, (t₁.lines j).rrpv = (t.lines j).rrpv)
    (hinvalid : (t₁.lines i).valid = false) : Displaced t t₂ i where
  order := h.order.trans ho
  rrpv j := by
    rw [← hv]
    exact (h.rrpv j).imp_right And.right
  self := by
    rw [← hv]
    refine (h.rrpv i).resolve_right fun hvalid => ?_
    rw [hinvalid] at hvalid
    exact Bool.false_ne_true hvalid.1

/-- **When the search of a displaced set ends**: unless the flushed block was the first of two and
is past the bound. If it is, the other block must be at the bound, which it is no more once the
set has been accessed. -/
theorem Displaced.search_iff {t t' : WaySet cfg} {i : ℕ} {quiet : Prop} (h : Displaced t t' i)
    (hs : t.Searchable) (hnd : t.order.Nodup) (hi : i ∈ t.order) (hlen : 2 ≤ t.order.length)
    (hkept : quiet → ∀ j, (t'.lines j).rrpv = (t.lines j).rrpv)
    (hzero : ¬quiet → ∃ j ∈ t'.order, j ≠ i ∧ (t'.lines j).rrpv = 0) :
    ((∃ j ∈ t'.order, (t'.lines j).rrpv = rrpvMax) ∨
        ∃ j ∈ t'.order.tail, (t'.lines j).rrpv < rrpvMax) ↔
      ∀ other, t.order = [i, other] →
        (t.lines i).rrpv ≤ rrpvMax ∨ (t.lines other).rrpv = rrpvMax ∧ quiet := by
  have hmax : rrpvMax = 7 := rfl
  by_cases htwo : ∃ other, t.order = [i, other]
  · -- the flushed block is the only one that a round looks at
    obtain ⟨other, ho⟩ := htwo
    have ho' : t'.order = [other, i] := by
      rw [h.order, ho, List.erase_cons_head]
      rfl
    have hall : (∀ other', t.order = [i, other'] →
        (t.lines i).rrpv ≤ rrpvMax ∨ (t.lines other').rrpv = rrpvMax ∧ quiet) ↔
        (t.lines i).rrpv ≤ rrpvMax ∨ (t.lines other).rrpv = rrpvMax ∧ quiet := by
      refine ⟨fun hcond => hcond other ho, fun hcond other' ho₂ => ?_⟩
      have heq : [i, other] = [i, other'] := ho.symm.trans ho₂
      simp only [List.cons.injEq, true_and, and_true] at heq
      rwa [← heq]
    rw [hall, ho', List.tail_cons]
    simp only [List.exists_mem_cons_iff, List.not_mem_nil, false_and, exists_false, or_false,
      h.self]
    by_cases hq : quiet
    · rw [hkept hq, and_iff_left hq]
      omega
    · obtain ⟨j, hj, hji, hjz⟩ := hzero hq
      rw [ho'] at hj
      have hjo : j = other := by simpa [hji] using hj
      rw [← hjo, hjz, iff_false_intro hq]
      simp only [and_false, or_false]
      omega
  · -- with three blocks or more, some other block is looked at in every round
    push Not at htwo
    obtain ⟨j, hj, hle⟩ := h.exists_tail hs hnd hi hlen htwo
    refine iff_of_true ?_ fun other ho => absurd ho (htwo other)
    rcases hle.lt_or_eq with hlt | heq
    · exact Or.inr ⟨j, hj, hlt⟩
    · exact Or.inl ⟨j, List.mem_of_mem_tail hj, heq⟩

/-- The condition, said of the ways. -/
theorem Refines.flushSafe_iff {c : CacheT cfg} {a : WayCache cfg} (h : Refines c a)
    {addr : MdAddr} {reqs : List Request} {i : ℕ}
    (hl : (a.sets (cfg.set addr).toNat).lookup (cfg.tag addr) = some i) :
    FlushSafe c addr reqs ↔ ∀ other, (a.sets (cfg.set addr).toNat).order = [i, other] →
      ((a.sets (cfg.set addr).toNat).lines i).rrpv ≤ rrpvMax ∨
        ((a.sets (cfg.set addr).toNat).lines other).rrpv = rrpvMax ∧
          ∀ req ∈ reqs, cfg.set req.addr ≠ cfg.set addr := by
  have hset := h.sets _ (Config.set_lt addr)
  have hline : ∀ other, (a.sets (cfg.set addr).toNat).order = [i, other] →
      ((c.sets.get (cfg.set addr).toNat).line i).rrpv =
          ((a.sets (cfg.set addr).toNat).lines i).rrpv ∧
        ((c.sets.get (cfg.set addr).toNat).line other).rrpv =
          ((a.sets (cfg.set addr).toNat).lines other).rrpv := by
    intro other ho
    constructor
    · rw [hset.line i (by simp [ho])]
    · rw [hset.line other (by simp [ho])]
  rw [FlushSafe, h.lookup, hl, hset.wayList]
  constructor
  · intro hcond other ho
    rw [← (hline other ho).1, ← (hline other ho).2]
    exact hcond i other rfl ho
  · rintro hcond blk other hblk ho
    obtain rfl := Option.some.inj hblk
    rw [(hline other ho).1, (hline other ho).2]
    exact hcond other ho

/-- **The flush of an address** leaves a set in which the next miss finds a victim, if and only if
the condition holds. -/
theorem flush_safe_iff (hp : cfg.policy = .drrip) (hassoc : 2 ≤ cfg.assoc) {c₀ c c₁ c₂ : CacheT cfg}
    (hc : cacheCreate cfg = some c₀) (E : Extern W cfg) {w₀ w w₁ w₂ : W} {reqs reqs' : List Request}
    {replies replies' : List Reply}
    (hr : run (CacheT.accessStep E) (c₀, w₀) reqs = some (replies, (c, w)))
    {addr : MdAddr} (hheld : c.probe addr = true) {now lat : ℤ}
    (hf : c.flushAddr E addr now w = some (lat, c₁, w₁))
    (hr' : run (CacheT.accessStep E) (c₁, w₁) reqs' = some (replies', (c₂, w₂)))
    (hhits : EveryStep (CacheT.accessStep E)
      (fun s req _ _ => cfg.set req.addr = cfg.set addr → s.1.probe req.addr = true)
      (c₁, w₁) reqs') :
    ∀ req : Request, cfg.set req.addr = cfg.set addr → c₂.probe req.addr = false →
      ((∃ k repl, repl < cfg.assoc ∧
          (c₂.sets.get (cfg.set req.addr).toNat).VictimSearch k repl) ↔
        FlushSafe c addr reqs') := by
  obtain ⟨a, h, hs⟩ := (refines_create hc).of_accesses WayCache.searchable_create hr
  have hlt : (cfg.set addr).toNat < cfg.nsets := Config.set_lt addr
  have hinv := h.inv _ hlt
  obtain ⟨i, hl⟩ : ∃ i, (a.sets (cfg.set addr).toNat).lookup (cfg.tag addr) = some i := by
    rw [h.probe, WayCache.probe] at hheld
    exact Option.isSome_iff_exists.mp hheld
  obtain ⟨a₁, h₁, ho₁, hv₁, hinvalid⟩ := h.flushAddr_set hl hf
  obtain ⟨a₂, h₂, hprom, hnone, hsome⟩ := h₁.run_promoted hp hr' hhits
  intro req hreq _
  rw [hreq, (h₂.sets _ hlt).victimSearch_drrip_iff hp, h.flushSafe_iff hl]
  refine (hprom.displaced ho₁ hv₁ hinvalid).search_iff (hs hp _ hlt) hinv.nodup
    (hinv.lookup_eq_some.mp hl).1 (by rw [hinv.length_order]; exact hassoc) (fun hquiet j => ?_)
    (fun hquiet => ?_)
  · rw [hnone hquiet, hv₁]
  · -- a hit gives the value 0 to a valid block, which the flushed one is not
    push Not at hquiet
    obtain ⟨j, hj, hjv, hjz⟩ := hsome hquiet
    refine ⟨j, hprom.order.symm ▸ hj, ?_, hjz⟩
    rintro rfl
    rw [hinvalid] at hjv
    exact Bool.false_ne_true hjv

/-- Two misses, the flush of the first block of the list, a hit on the other, and the search of
the next miss. -/
theorem flush_safe_sample : ∃ c₀ c c₁ c₂ w w₁ w₂ lat replies replies',
    cacheCreate drripConfig = some c₀ ∧
    run (CacheT.accessStep (journal _)) (c₀, []) [readAt 8, readAt 264] = some (replies, (c, w)) ∧
    c.flushAddr (journal _) 264 3 w = some (lat, c₁, w₁) ∧
    run (CacheT.accessStep (journal _)) (c₁, w₁) [readAt 8] = some (replies', (c₂, w₂)) ∧
    ∃ k repl, repl < 2 ∧
      (c₂.sets.get (drripConfig.set (readAt 520).addr).toNat).VictimSearch k repl := by
  let c₀ := (cacheCreate drripConfig).get (by decide)
  have hc : cacheCreate drripConfig = some c₀ := (Option.some_get _).symm
  have hs : ((run (CacheT.accessStep (journal _)) (c₀, []) [readAt 8, readAt 264]).bind fun r =>
      (r.2.1.flushAddr (journal _) 264 3 r.2.2).bind fun f =>
        (run (CacheT.accessStep (journal _)) f.2 [readAt 8]).map fun r' =>
          (((r.2.1.sets.get 1).lookup (drripConfig.tag 264)).map fun blk =>
            ((r.2.1.sets.get 1).line blk).rrpv, r.2.1.probe 264, f.2.1.probe 8,
            r'.2.1.probe 520)) = some (some 6, true, true, false) := by decide +kernel
  obtain ⟨⟨replies, c, w⟩, hr, hs⟩ := Option.bind_eq_some_iff.mp hs
  obtain ⟨⟨lat, c₁, w₁⟩, hf, hs⟩ := Option.bind_eq_some_iff.mp hs
  obtain ⟨⟨replies', c₂, w₂⟩, hr', hs⟩ := Option.map_eq_some_iff.mp hs
  simp only [Prod.mk.injEq] at hs
  obtain ⟨hblk, hheld, hhit, hmiss⟩ := hs
  refine ⟨c₀, c, c₁, c₂, w, w₁, w₂, lat, replies, replies', hc, hr, hf, hr',
    (flush_safe_iff rfl (by decide) hc (journal _) hr hheld hf hr'
      (everyStep_cons.mpr fun _ _ _ => ⟨fun _ => hhit, trivial⟩) (readAt 520) (by decide)
      hmiss).mpr ?_⟩
  intro blk other hlookup _
  obtain ⟨blk', hlookup', hval⟩ := Option.map_eq_some_iff.mp hblk
  obtain rfl : blk = blk' := Option.some.inj (hlookup.symm.trans hlookup')
  exact Or.inl (hval.trans_le (by decide))

/-- Two misses, a hit and a third miss leave a value of 13 in the first of two blocks. After its
address has been flushed no search of the set ends. -/
theorem flush_addr_stuck : ∃ c₀ c c₁ w w₁ lat replies,
    cacheCreate drripConfig = some c₀ ∧
    run (CacheT.accessStep (journal _)) (c₀, []) [readAt 8, readAt 264, readAt 8, readAt 520] =
      some (replies, (c, w)) ∧ c.probe 264 = true ∧
    c.flushAddr (journal _) 264 5 w = some (lat, c₁, w₁) ∧ c₁.probe (readAt 776).addr = false ∧
    ¬ ∃ k repl, repl < 2 ∧
      (c₁.sets.get (drripConfig.set (readAt 776).addr).toNat).VictimSearch k repl := by
  -- only the run is evaluated; that no search ends is a matter of the values it leaves
  let c₀ := (cacheCreate drripConfig).get (by decide)
  have hc : cacheCreate drripConfig = some c₀ := (Option.some_get _).symm
  have hs : ((run (CacheT.accessStep (journal _)) (c₀, [])
      [readAt 8, readAt 264, readAt 8, readAt 520]).bind fun r =>
        (r.2.1.flushAddr (journal _) 264 5 r.2.2).map fun f =>
          (r.2.1.probe 264, f.2.1.probe 776, (f.2.1.sets.get 1).wayList,
            ((f.2.1.sets.get 1).line 0).rrpv, ((f.2.1.sets.get 1).line 1).rrpv)) =
      some (true, false, [0, 1], 6, 13) := by decide +kernel
  obtain ⟨⟨replies, c, w⟩, hr, hs⟩ := Option.bind_eq_some_iff.mp hs
  obtain ⟨⟨lat, c₁, w₁⟩, hf, hs⟩ := Option.map_eq_some_iff.mp hs
  simp only [Prod.mk.injEq] at hs
  obtain ⟨hheld, hmiss, hlist, hzero, hone⟩ := hs
  refine ⟨c₀, c, c₁, w, w₁, lat, replies, hc, hr, hheld, hf, hmiss, ?_⟩
  obtain ⟨a, h, -⟩ := (refines_create hc).of_accesses WayCache.searchable_create hr
  have hset := (h.of_flushAddr hf).sets _ (Config.set_lt (readAt 776).addr)
  have hset₁ : (drripConfig.set (readAt 776).addr).toNat = 1 := by decide
  rw [hset₁] at hset ⊢
  refine mt (hset.victimSearch_drrip_iff rfl).mp ?_
  rw [← hset.wayList, hlist, List.tail_cons]
  have hmem : ∀ j ∈ [0, 1], (((a.flushAddr (journal _) 264 5 w).2.1.sets 1).lines j).rrpv =
      ((c₁.sets.get 1).line j).rrpv := fun j hj => by
    rw [hset.line j (by rw [← hset.wayList, hlist]; exact hj)]
  rintro (⟨j, hj, hval⟩ | ⟨j, hj, hval⟩)
  · rw [hmem j hj] at hval
    rcases List.mem_pair.mp hj with rfl | rfl
    · exact absurd (hzero.symm.trans hval) (by decide)
    · exact absurd (hone.symm.trans hval) (by decide)
  · obtain rfl := List.mem_singleton.mp hj
    rw [hmem 1 (by decide), hone] at hval
    exact absurd hval (by decide)

end AdvancedArchitecture.Cache
