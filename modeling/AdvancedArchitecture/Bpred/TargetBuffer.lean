import AdvancedArchitecture.Lib.LinkedList
import AdvancedArchitecture.Bpred.ReturnStack

/-!
# The branch target buffer

The entries of a set of the buffer are linked from the most to the least recently used one. The
loop of `bpred_update` looks for the entry of the branch and for both ends of this list in one pass,
and asserts that the branch has no second entry. As long as no branch at address 0 is entered, which
is the address of the entries that are not in use, the assertion holds in every run, and each set
holds the branches last entered, in the order of its links (`targets_recent`).
-/

namespace AdvancedArchitecture.Bpred

variable {n : ℕ} {data : Table BtbEnt n} {baddr : MdAddr} {l w : List ℕ} {i p : ℕ}

/-! ### The loop -/

/-- What the loop finds. -/
def BtbScan.found (data : Table BtbEnt n) (baddr : MdAddr) (s : BtbScan) (w : List ℕ) :
    BtbScan where
  pbtb := (w.find? fun i => (data.get i).addr = baddr).or s.pbtb
  lruhead := (w.reverse.find? fun i => (data.get i).prev = none).or s.lruhead
  lruitem := (w.reverse.find? fun i => (data.get i).next = none).or s.lruitem

/-- At most one of the entries is one of the branch. -/
def Unique (data : Table BtbEnt n) (baddr : MdAddr) (w : List ℕ) : Prop :=
  w.Pairwise fun i j => (data.get i).addr = baddr → (data.get j).addr ≠ baddr

/-- The assertion does not fail. -/
theorem scan_eq {s : BtbScan} (h : Unique data baddr w)
    (hs : s.pbtb.isSome = true → ∀ i ∈ w, (data.get i).addr ≠ baddr) :
    w.foldlM (BtbScan.step data baddr) s = some (s.found data baddr w) := by
  induction w generalizing s with
  | nil => simp [BtbScan.found]
  | cons i w ih =>
    -- one entry of the set: no second one has the address, so the assertion holds
    obtain ⟨hi, hrest⟩ := List.pairwise_cons.mp h
    have hstep : BtbScan.step data baddr s i = some
        { pbtb := if (data.get i).addr = baddr then some i else s.pbtb
          lruhead := if (data.get i).prev = none then some i else s.lruhead
          lruitem := if (data.get i).next = none then some i else s.lruitem } := by
      rw [BtbScan.step]
      exact if_neg fun ⟨ha, hsome⟩ => hs hsome i List.mem_cons_self ha
    rw [List.foldlM_cons, hstep]
    refine (ih hrest ?_).trans ?_
    · intro hsome j hj
      by_cases ha : (data.get i).addr = baddr
      · exact hi j hj ha
      · rw [if_neg ha] at hsome
        exact hs hsome j (List.mem_cons_of_mem _ hj)
    · have hlast : ∀ (q : BtbEnt → Option ℕ) (o : Option ℕ),
          (w.reverse.find? fun i => q (data.get i) = none).or
            (if q (data.get i) = none then some i else o) =
          ((i :: w).reverse.find? fun i => q (data.get i) = none).or o := by
        intro q o
        rw [List.reverse_cons, List.find?_append, Option.or_assoc, List.find?_singleton]
        congr 1
        by_cases hq : q (data.get i) = none <;> simp [hq]
      have hfirst : (w.find? fun i => (data.get i).addr = baddr).or
          (if (data.get i).addr = baddr then some i else s.pbtb) =
          ((i :: w).find? fun i => (data.get i).addr = baddr).or s.pbtb := by
        by_cases ha : (data.get i).addr = baddr
        · have hnone : (w.find? fun i => (data.get i).addr = baddr) = none :=
            List.find?_eq_none.mpr fun j hj => by simpa using hi j hj ha
          simp [hnone, ha]
        · simp [ha]
      rw [BtbScan.found, BtbScan.found, hfirst, hlast BtbEnt.prev, hlast BtbEnt.next]

/-! ### The lists -/

/-- The links of the entries of a set, with both ends of its list. -/
def links (data : Table BtbEnt n) (l : List ℕ) : DList ℕ where
  next i := (data.get i).next
  prev i := (data.get i).prev
  head := l.head?
  tail := l.getLast?

/-- The first entry of a list is the one without a predecessor. -/
theorem prev_eq_none (h : (links data l).Represents l) (hi : i ∈ l) :
    (data.get i).prev = none ↔ l.head? = some i := by
  obtain ⟨l₁, l₂, rfl⟩ := List.append_of_mem hi
  have hprev : (data.get i).prev = l₁.getLast? := h.prev_eq
  rw [hprev, List.getLast?_eq_none_iff]
  constructor
  · rintro rfl
    rfl
  · intro hhead
    rcases l₁ with _ | ⟨j, l₁⟩
    · rfl
    · obtain rfl := Option.some.inj hhead
      have := h.nodup
      simp at this

theorem next_eq_none (h : (links data l).Represents l) (hi : i ∈ l) :
    (data.get i).next = none ↔ l.getLast? = some i := by
  have hflip : (links data l).flip.Represents l.reverse := h.flip
  obtain ⟨l₁, l₂, rfl⟩ := List.append_of_mem hi
  have hnext : (data.get i).next = l₂.head? := h.next_eq
  rw [hnext, List.head?_eq_none_iff]
  constructor
  · rintro rfl
    simp
  · intro hlast
    rcases List.eq_nil_or_concat l₂ with rfl | ⟨l₂, j, rfl⟩
    · rfl
    · rw [List.concat_eq_append, ← List.cons_append, ← List.append_assoc, List.getLast?_append,
        List.getLast?_singleton, Option.some_or] at hlast
      obtain rfl := Option.some.inj hlast
      have := h.nodup
      simp [List.nodup_append] at this

theorem get_modify (data : Table BtbEnt n) (hi : i < n) (f : BtbEnt → BtbEnt) (k : ℕ) :
    (data.modify i f).get k = if k = i then f (data.get k) else data.get k := by
  split
  · rename_i hk
    rw [hk, Table.get_modify_self data hi]
  · exact Table.get_modify_ne data ‹_› f

/-- The splice of `bpred_update` takes the entry out of the list and puts it in front. -/
theorem represents_moveToFront (h : (links data l).Represents l) (hl : ∀ j ∈ l, j < n)
    (hp : p ∈ l) {j : ℕ} (hj : l.head? = some j) (hne : p ≠ j) :
    (links (btbMoveToFront data p j) (p :: l.erase p)).Represents (p :: l.erase p) := by
  have hu := (h.unlink hp).pushFront (i := p) (fun hmem => (h.nodup.mem_erase_iff.mp hmem).1 rfl)
  have hpn := hl p hp
  have hjn := hl j (List.mem_of_head? hj)
  obtain ⟨q, hprev⟩ : ∃ q, (data.get p).prev = some q := by
    refine Option.ne_none_iff_exists'.mp fun hnone => hne ?_
    exact (Option.some.inj (hj.symm.trans ((prev_eq_none h hp).mp hnone))).symm
  obtain ⟨hq, -⟩ := h.next_of_prev hp hprev
  have hqn := hl q hq
  obtain ⟨l₁, l₂, rfl⟩ := List.append_of_mem hp
  obtain ⟨-, hnd, hdisj⟩ := List.nodup_append.mp h.nodup
  -- `p` is not the first entry, and its neighbours are others than itself
  have hqp : q ≠ p := by
    rintro rfl
    have hlast : l₁.getLast? = some q := h.prev_eq.symm.trans hprev
    exact hdisj q (List.mem_of_getLast? hlast) q List.mem_cons_self rfl
  have hd1 : ∀ f, (data.modify q f).get p = data.get p := fun f =>
    Table.get_modify_ne data hqp.symm f
  -- the code writes one link less when `p` is the last entry
  rcases hnext : (data.get p).next with _ | r
  · refine hu.congr ⟨fun i _ => ?_, fun i _ => ?_, rfl, hu.tail_eq.symm⟩
    · simp only [links, btbMoveToFront, hprev, hd1, hnext, get_modify _ hpn, get_modify _ hjn,
        get_modify _ hqn, DList.pushFront, DList.unlink, Function.update_apply, hj]
      split_ifs <;> simp_all
    · simp only [links, btbMoveToFront, hprev, hd1, hnext, get_modify _ hpn, get_modify _ hjn,
        get_modify _ hqn, DList.pushFront, DList.unlink, Function.update_apply, hj]
      split_ifs <;> simp_all
  · have hr : r ∈ l₂ := List.mem_of_head? (h.next_eq.symm.trans hnext)
    have hrn := hl r (List.mem_append_right _ (List.mem_cons_of_mem _ hr))
    have hrp : r ≠ p := by
      rintro rfl
      exact (List.nodup_cons.mp hnd).1 hr
    have hd2 : ∀ f g, ((data.modify q f).modify r g).get p = data.get p := fun f g =>
      (Table.get_modify_ne _ hrp.symm g).trans (hd1 f)
    refine hu.congr ⟨fun i _ => ?_, fun i _ => ?_, rfl, hu.tail_eq.symm⟩
    · simp only [links, btbMoveToFront, hprev, hd1, hnext, get_modify _ hpn, get_modify _ hjn,
        get_modify _ hqn, get_modify _ hrn, DList.pushFront, DList.unlink, Function.update_apply,
        hj]
      split_ifs <;> simp_all
    · simp only [links, btbMoveToFront, hprev, hd1, hnext, get_modify _ hpn, get_modify _ hjn,
        get_modify _ hqn, get_modify _ hrn, DList.pushFront, DList.unlink, Function.update_apply,
        hj]
      split_ifs <;> simp_all

/-- The splice only writes links, and only those of entries of the list. -/
theorem get_moveToFront (h : (links data l).Represents l) (hp : p ∈ l) {j : ℕ} (hj : j ∈ l)
    (i : ℕ) :
    (i ∉ l → (btbMoveToFront data p j).get i = data.get i) ∧
      ((btbMoveToFront data p j).get i).addr = (data.get i).addr := by
  -- one write of the splice
  have hmod : ∀ (t : Table BtbEnt n) {x : ℕ} (f : BtbEnt → BtbEnt), (∀ e, (f e).addr = e.addr) →
      x ∈ l → (i ∉ l → (t.modify x f).get i = t.get i) ∧
        ((t.modify x f).get i).addr = (t.get i).addr := by
    intro t x f hf hx
    refine ⟨fun hi => Table.get_modify_ne t (fun heq : i = x => hi (heq ▸ hx)) f, ?_⟩
    by_cases hix : i = x
    · subst hix
      by_cases hin : i < n
      · rw [Table.get_modify_self t hin, hf]
      · rw [Table.get_of_le _ (not_lt.mp hin), Table.get_of_le _ (not_lt.mp hin)]
    · rw [Table.get_modify_ne t hix]
  have htrans : ∀ {a b c : BtbEnt}, (i ∉ l → a = b) ∧ a.addr = b.addr → (i ∉ l → b = c) ∧
      b.addr = c.addr → (i ∉ l → a = c) ∧ a.addr = c.addr := fun h₁ h₂ =>
    ⟨fun hi => (h₁.1 hi).trans (h₂.1 hi), h₁.2.trans h₂.2⟩
  rw [btbMoveToFront]
  refine htrans (hmod _ _ (fun _ => rfl) hj) (htrans (hmod _ _ (fun _ => rfl) hp) ?_)
  have hr : ∀ r, (data.get p).next = some r → r ∈ l := fun r hr => (h.prev_of_next hp hr).1
  rcases hprev : (data.get p).prev with _ | q
  · dsimp only
    rcases hnext : (data.get p).next with _ | r
    · exact ⟨fun _ => rfl, rfl⟩
    · exact hmod _ _ (fun _ => rfl) (hr r hnext)
  · have hq : q ∈ l := (h.next_of_prev hp hprev).1
    dsimp only
    -- the link that the first write has left in `p` is still the old one
    have hsame : ((data.modify q fun e => { e with next := (data.get p).next }).get p).next =
        (data.get p).next := by
      by_cases hqp : p = q
      · subst hqp
        by_cases hpn : p < n
        · rw [Table.get_modify_self data hpn]
        · rw [Table.get_of_le _ (not_lt.mp hpn), Table.get_of_le _ (not_lt.mp hpn)]
      · rw [Table.get_modify_ne data hqp]
    rcases hnext : (data.get p).next with _ | r
    · rw [hnext] at hsame
      rw [hsame]
      exact hmod _ _ (fun _ => rfl) hq
    · rw [hnext] at hsame
      rw [hsame]
      exact htrans (hmod _ _ (fun _ => rfl) (hr r hnext)) (hmod _ _ (fun _ => rfl) hq)

/-! ### The buffer -/

/-- The set of a branch. -/
def Btb.setOf (btb : Btb) (baddr : MdAddr) : ℕ :=
  ((baddr >>> mdBrShift) &&& BitVec.ofNat 64 (btb.sets - 1)).toNat

/-- The entries of a set. -/
def Btb.ways (btb : Btb) (s : ℕ) : List ℕ := List.range' (s * btb.assoc) btb.assoc

/-- Each set is linked, in the order of `lists`, and no branch has two entries. -/
structure Btb.Linked (btb : Btb) (lists : ℕ → List ℕ) : Prop where
  perm : ∀ s < btb.sets, (lists s).Perm (btb.ways s)
  links : ∀ s < btb.sets, (links btb.btbData (lists s)).Represents (lists s)
  unique : ∀ s < btb.sets, ∀ i ∈ btb.ways s, ∀ j ∈ btb.ways s,
    (btb.btbData.get i).addr = (btb.btbData.get j).addr → (btb.btbData.get i).addr ≠ 0 → i = j

namespace Btb.Linked

variable {btb : Btb} {lists : ℕ → List ℕ} {s : ℕ}

theorem setOf_lt (btb : Btb) (baddr : MdAddr) : btb.setOf baddr < btb.sets :=
  toNat_and_ofNat_pred_lt _ btb.sets_ok.pos

theorem unique_ways (h : btb.Linked lists) (hs : s < btb.sets) (hb : baddr ≠ 0) :
    Unique btb.btbData baddr (btb.ways s) := by
  have hnd : (btb.ways s).Nodup := List.nodup_range'
  refine hnd.imp_of_mem fun {i j} hi hj hne ha ha' => hne ?_
  exact h.unique s hs i hi j hj (ha.trans ha'.symm) (ha ▸ hb)

/-- The loop finds the entry of the branch and both ends of the list. -/
theorem scan (h : btb.Linked lists) (hs : s < btb.sets) (hb : baddr ≠ 0) :
    (btb.ways s).foldlM (BtbScan.step btb.btbData baddr) {} = some
      { pbtb := (btb.ways s).find? fun i => (btb.btbData.get i).addr = baddr
        lruhead := (lists s).head?
        lruitem := (lists s).getLast? } := by
  have hmem : ∀ i, i ∈ (btb.ways s).reverse ↔ i ∈ lists s := fun i => by
    rw [List.mem_reverse]
    exact (h.perm s hs).mem_iff.symm
  have hfind : ∀ (q : BtbEnt → Option ℕ) (o : Option ℕ),
      (∀ i ∈ lists s, q (btb.btbData.get i) = none ↔ o = some i) →
      (o = none → lists s = []) → (∀ i, o = some i → i ∈ lists s) →
      ((btb.ways s).reverse.find? fun i => q (btb.btbData.get i) = none) = o := by
    intro q o hiff hnil ho
    rcases hf : (btb.ways s).reverse.find? fun i => q (btb.btbData.get i) = none with _ | i
    · rcases o with _ | i
      · rfl
      · have hi := ho i rfl
        have := List.find?_eq_none.mp hf i ((hmem i).mpr hi)
        exact absurd ((hiff i hi).mpr rfl) (by simpa using this)
    · have hi := (hmem i).mp (List.mem_of_find?_eq_some hf)
      exact ((hiff i hi).mp (by simpa using List.find?_some hf)).symm
  rw [scan_eq (h.unique_ways hs hb) (fun hsome => absurd hsome (by simp)), BtbScan.found]
  rw [hfind BtbEnt.prev _ (fun i hi => prev_eq_none (h.links s hs) hi) List.head?_eq_none_iff.mp
      fun i hi => List.mem_of_head? hi,
    hfind BtbEnt.next _ (fun i hi => next_eq_none (h.links s hs) hi) List.getLast?_eq_none_iff.mp
      fun i hi => List.mem_of_getLast? hi]
  simp

theorem lt_of_mem_ways (hs : s < btb.sets) (hi : i ∈ btb.ways s) : i < btb.sets * btb.assoc := by
  obtain ⟨-, hlt⟩ := List.mem_range'_1.mp hi
  calc i < (s + 1) * btb.assoc := by rw [Nat.succ_mul]; exact hlt
    _ ≤ btb.sets * btb.assoc := Nat.mul_le_mul_right _ hs

/-- Two sets share no entry. -/
theorem eq_of_mem_ways {s' : ℕ} (hi : i ∈ btb.ways s) (hi' : i ∈ btb.ways s') : s = s' := by
  have hdiv : ∀ {t : ℕ}, i ∈ btb.ways t → i / btb.assoc = t := fun {t} ht => by
    obtain ⟨hle, hlt⟩ := List.mem_range'_1.mp ht
    exact Nat.div_eq_of_lt_le hle (by rw [Nat.succ_mul]; exact hlt)
  exact (hdiv hi).symm.trans (hdiv hi')

/-- The splice makes an entry the most recently used one of its set. -/
theorem moveToFront (h : btb.Linked lists) (hs : s < btb.sets) (hp : p ∈ lists s) {j : ℕ}
    (hj : (lists s).head? = some j) (hne : p ≠ j) :
    Btb.Linked { btb with btbData := btbMoveToFront btb.btbData p j }
      (Function.update lists s (p :: (lists s).erase p)) := by
  have hget := get_moveToFront (h.links s hs) hp (List.mem_of_head? hj)
  refine ⟨fun t ht => ?_, fun t ht => ?_, fun t ht i hi k hk heq hnz => ?_⟩
  · by_cases hts : t = s
    · subst hts
      rw [Function.update_self]
      exact (List.perm_cons_erase hp).symm.trans (h.perm t ht)
    · rw [Function.update_of_ne hts]
      exact h.perm t ht
  · by_cases hts : t = s
    · subst hts
      rw [Function.update_self]
      exact represents_moveToFront (h.links t ht)
        (fun i hi => lt_of_mem_ways ht ((h.perm t ht).mem_iff.mp hi)) hp hj hne
    · rw [Function.update_of_ne hts]
      have hsame : ∀ i ∈ lists t, (btbMoveToFront btb.btbData p j).get i = btb.btbData.get i :=
        fun i hi => (hget i).1 fun his => hts
          (eq_of_mem_ways ((h.perm t ht).mem_iff.mp hi) ((h.perm s hs).mem_iff.mp his))
      refine (h.links t ht).congr ⟨fun i hi => ?_, fun i hi => ?_, rfl, rfl⟩
      · exact congrArg BtbEnt.next (hsame i hi)
      · exact congrArg BtbEnt.prev (hsame i hi)
  · refine h.unique t ht i hi k hk ?_ ?_
    · exact (hget i).2.symm.trans (heq.trans (hget k).2)
    · exact fun hz => hnz ((hget i).2.trans hz)

/-- The entry of a taken branch is its own or the least recently used one, and becomes the most
recently used one. -/
theorem select (h : btb.Linked lists) (hb : baddr ≠ 0) :
    ∃ p ∈ lists (btb.setOf baddr), ∃ data : Table BtbEnt (btb.sets * btb.assoc),
      btb.select baddr = some ({ btb with btbData := data }, some p) ∧
      (∀ i, (data.get i).addr = (btb.btbData.get i).addr) ∧
      (∀ i ∈ btb.ways (btb.setOf baddr), (data.get i).addr = baddr → i = p) ∧
      ((data.get p).addr ≠ baddr → (lists (btb.setOf baddr)).getLast? = some p) ∧
      Btb.Linked { btb with btbData := data } (Function.update lists (btb.setOf baddr)
        (p :: (lists (btb.setOf baddr)).erase p)) := by
  have hs := setOf_lt btb baddr
  have hperm := h.perm _ hs
  have hpos := btb.assoc_ok.pos
  have hsame : ∀ {p}, (lists (btb.setOf baddr)).head? = some p →
      Function.update lists (btb.setOf baddr) (p :: (lists (btb.setOf baddr)).erase p) = lists := by
    intro p hp
    obtain ⟨l, hl⟩ := List.head?_eq_some_iff.mp hp
    rw [hl, List.erase_cons_head, ← hl, Function.update_eq_self]
  obtain ⟨p, hp, hfound, hown, hlast⟩ : ∃ p ∈ lists (btb.setOf baddr),
      (if ((btb.ways (btb.setOf baddr)).find? fun i => (btb.btbData.get i).addr = baddr) = none
        then (lists (btb.setOf baddr)).getLast?
        else (btb.ways (btb.setOf baddr)).find? fun i => (btb.btbData.get i).addr = baddr) =
          some p ∧
      (∀ i ∈ btb.ways (btb.setOf baddr), (btb.btbData.get i).addr = baddr → i = p) ∧
      ((btb.btbData.get p).addr ≠ baddr → (lists (btb.setOf baddr)).getLast? = some p) := by
    rcases hf : (btb.ways (btb.setOf baddr)).find? fun i => (btb.btbData.get i).addr = baddr
      with _ | p
    · -- without an entry the least recently used one is taken
      have hne : lists (btb.setOf baddr) ≠ [] := by
        intro hnil
        have := hperm.length_eq
        rw [hnil, Btb.ways, List.length_range', List.length_nil] at this
        omega
      refine ⟨_, List.getLast_mem hne, ?_, fun i hi ha => ?_, fun _ => ?_⟩
      · rw [if_pos rfl, List.getLast?_eq_some_getLast hne]
      · exact absurd ha (by simpa using List.find?_eq_none.mp hf i hi)
      · exact List.getLast?_eq_some_getLast hne
    · -- with an entry it is the only one, as addresses other than 0 are unique
      have hpw := List.mem_of_find?_eq_some hf
      have ha : (btb.btbData.get p).addr = baddr := by simpa using List.find?_some hf
      refine ⟨p, hperm.mem_iff.mpr hpw, if_neg (by simp), fun i hi hai => ?_, fun hne => ?_⟩
      · exact h.unique _ hs i hi p hpw (hai.trans ha.symm) (hai ▸ hb)
      · exact absurd ha hne
  obtain ⟨j, hj⟩ : ∃ j, (lists (btb.setOf baddr)).head? = some j := by
    refine Option.ne_none_iff_exists'.mp fun hnil => ?_
    rw [List.head?_eq_none_iff.mp hnil] at hp
    exact absurd hp List.not_mem_nil
  refine ⟨p, hp, ?_⟩
  by_cases hassoc : btb.assoc > 1
  · have hscan := h.scan hs hb
    have hindex : List.range' (btb.index baddr) btb.assoc = btb.ways (btb.setOf baddr) := rfl
    by_cases hpj : p = j
    · subst hpj
      -- it is at the front already
      refine ⟨btb.btbData, ?_, fun _ => rfl, hown, hlast, ?_⟩
      · rw [Btb.select, if_pos hassoc, hindex, hscan]
        simp only [Option.bind_eq_bind, Option.bind_some, hfound, hj]
        exact if_neg fun hne => hne rfl
      · rw [hsame hj]
        exact h
    · have hget := get_moveToFront (h.links _ hs) hp (List.mem_of_head? hj)
      refine ⟨btbMoveToFront btb.btbData p j, ?_, fun i => (hget i).2, ?_, ?_,
        h.moveToFront hs hp hj hpj⟩
      · rw [Btb.select, if_pos hassoc, hindex, hscan]
        simp only [Option.bind_eq_bind, Option.bind_some, hfound, hj]
        exact if_pos fun heq => hpj (Option.some.inj heq)
      · exact fun i hi ha => hown i hi ((hget i).2.symm.trans ha)
      · exact fun hne => hlast fun ha => hne ((hget p).2.trans ha)
  · -- A set of one entry has no list to keep.
    have hone : btb.assoc = 1 := by omega
    have hways : btb.ways (btb.setOf baddr) = [btb.index baddr] := by
      rw [Btb.ways, hone, List.range'_one, Btb.index, hone]
      rfl
    rw [hways, List.perm_singleton] at hperm
    rw [hperm] at hp
    obtain rfl := List.mem_singleton.mp hp
    refine ⟨btb.btbData, if_neg hassoc, fun _ => rfl, hown, hlast, ?_⟩
    rw [hsame (by rw [hperm]; rfl)]
    exact h

theorem get_enter (btb : Btb) (hpn : p < btb.sets * btb.assoc) (baddr btarget : MdAddr)
    (op : MdOpcode) (correct : Bool) (i : ℕ) :
    (((btb.enter p baddr btarget op correct).btbData.get i).next = (btb.btbData.get i).next ∧
      ((btb.enter p baddr btarget op correct).btbData.get i).prev = (btb.btbData.get i).prev) ∧
    ((btb.enter p baddr btarget op correct).btbData.get i).addr =
      if i = p then baddr else (btb.btbData.get i).addr := by
  simp only [Btb.enter, get_modify _ hpn]
  split_ifs <;> simp_all

/-- The write of an entry that is the branch's own, or the only one to be. -/
theorem enter (h : btb.Linked lists) (hp : p ∈ btb.ways (btb.setOf baddr))
    (hown : ∀ i ∈ btb.ways (btb.setOf baddr), (btb.btbData.get i).addr = baddr → i = p)
    (btarget : MdAddr) (op : MdOpcode) (correct : Bool) :
    (btb.enter p baddr btarget op correct).Linked lists := by
  have hget := get_enter btb (lt_of_mem_ways (setOf_lt btb baddr) hp) baddr btarget op correct
  refine ⟨h.perm, fun t ht => ?_, fun t ht i hi k hk heq hnz => ?_⟩
  · exact (h.links t ht).congr ⟨fun i _ => (hget i).1.1, fun i _ => (hget i).1.2, rfl, rfl⟩
  · rw [(hget i).2, (hget k).2] at heq
    rw [(hget i).2] at hnz
    have hset : ∀ x, x ∈ btb.ways t → p ∈ btb.ways t → (btb.btbData.get x).addr = baddr → x = p :=
      fun x hx hpt => hown x (eq_of_mem_ways hp hpt ▸ hx)
    by_cases hip : i = p
    · by_cases hkp : k = p
      · exact hip.trans hkp.symm
      · rw [if_pos hip, if_neg hkp] at heq
        exact hip.trans (hset k hk (hip ▸ hi) heq.symm).symm
    · rw [if_neg hip] at heq hnz
      by_cases hkp : k = p
      · rw [if_pos hkp] at heq
        exact (hset i hi (hkp ▸ hk) heq).trans hkp.symm
      · rw [if_neg hkp] at heq
        exact h.unique t ht i hi k hk heq hnz

end Btb.Linked

/-! ### A new buffer -/

theorem seg_range' {next : ℕ → Option ℕ} {x m : ℕ}
    (hnext : ∀ r < m, next (x + r) = if r + 1 < m then some (x + r + 1) else none) :
    Seg next (List.range' x m).head? (List.range' x m) none := by
  induction m generalizing x with
  | zero => rfl
  | succ m ih =>
    rw [List.range'_succ]
    refine ⟨rfl, ?_⟩
    have hrest := ih (x := x + 1) fun r hr => by
      have := hnext (r + 1) (by omega)
      rw [show x + (r + 1) = x + 1 + r by omega] at this
      rw [this]
      exact if_congr (by omega) rfl rfl
    have hhead : next x = (List.range' (x + 1) m).head? := by
      rw [show x = x + 0 from rfl, hnext 0 (by omega), List.head?_range']
      rcases m with _ | m <;> simp
    rw [hhead]
    exact hrest

theorem seg_reverse_range' {prev : ℕ → Option ℕ} {x m : ℕ}
    (hprev : ∀ r < m, prev (x + r) = if r = 0 then none else some (x + r - 1)) :
    Seg prev (List.range' x m).getLast? (List.range' x m).reverse none := by
  induction m with
  | zero => rfl
  | succ m ih =>
    rw [List.range'_1_concat, List.reverse_append, List.getLast?_append, List.getLast?_singleton,
      Option.some_or]
    refine ⟨rfl, ?_⟩
    have hlast : prev (x + m) = (List.range' x m).getLast? := by
      rw [hprev m (by omega), List.getLast?_range']
    rw [hlast]
    exact ih fun r hr => hprev r (by omega)

/-- The entries of a new buffer: linked in order within each set, and not in use. -/
theorem btbCreate_get {sets assoc : ℕ} {btb : Btb} (hnew : btbCreate sets assoc = some btb)
    (hi : i < btb.sets * btb.assoc) :
    (btb.btbData.get i).next = (if i % btb.assoc ≠ btb.assoc - 1 then some (i + 1) else none) ∧
    (btb.btbData.get i).prev =
      (if 0 < i ∧ (i - 1) % btb.assoc ≠ btb.assoc - 1 then some (i - 1) else none) ∧
    (btb.btbData.get i).addr = 0 := by
  rw [btbCreate] at hnew
  split at hnew
  · rename_i hok
    obtain rfl := Option.some.inj hnew
    dsimp only at hi ⊢
    split
    · -- the loop links each entry to the next, but for the last one of a set
      have hloop := forRange_induction (n := assoc * sets)
        (s := Table.replicate (sets * assoc) (default : BtbEnt))
        (fun data i =>
          if i % assoc ≠ assoc - 1 then
            (data.modify i fun e => { e with next := some (i + 1) }).modify (i + 1)
              fun e => { e with prev := some i }
          else data.modify i fun e => { e with next := none })
        (fun k data => ∀ i < sets * assoc,
          (data.get i).next = (if i < k ∧ i % assoc ≠ assoc - 1 then some (i + 1) else none) ∧
          (data.get i).prev = (if 0 < i ∧ i - 1 < k ∧ (i - 1) % assoc ≠ assoc - 1
            then some (i - 1) else none) ∧
          (data.get i).addr = 0) ?_ ?_
      · obtain ⟨hnext, hprev, haddr⟩ := hloop i hi
        rw [Nat.mul_comm] at hi
        refine ⟨hnext.trans (if_congr (and_iff_right hi) rfl rfl), hprev.trans ?_, haddr⟩
        exact if_congr (and_congr_right fun _ => and_iff_right (by omega)) rfl rfl
      · intro i hi
        rw [Table.get_replicate hi]
        simp [default]
      · intro k data hk hdata i hi
        obtain ⟨hnext, hprev, haddr⟩ := hdata i hi
        have hmod : ∀ (t : Table BtbEnt (sets * assoc)) (x : ℕ) (f : BtbEnt → BtbEnt),
            (t.modify x f).get i = if i = x then f (t.get i) else t.get i := by
          intro t x f
          by_cases hx : i = x
          · subst hx
            rw [if_pos rfl, Table.get_modify_self t hi]
          · rw [if_neg hx, Table.get_modify_ne t hx]
        -- round `k` writes the forward link of `k` and the backward link of `k + 1`
        by_cases hlast : k % assoc = assoc - 1
        · rw [if_neg (not_not.mpr hlast), hmod]
          by_cases hik : i = k
          · subst hik
            rw [if_pos rfl]
            refine ⟨(if_neg fun h => h.2 hlast).symm, hprev.trans (if_congr ?_ rfl rfl), haddr⟩
            omega
          · rw [if_neg hik]
            refine ⟨hnext.trans (if_congr ?_ rfl rfl), hprev.trans (if_congr ?_ rfl rfl), haddr⟩
            · omega
            · have hpred : i - 1 = k → (i - 1) % assoc = assoc - 1 := fun h => h ▸ hlast
              omega
        · rw [if_pos hlast, hmod, hmod]
          by_cases hik : i = k + 1
          · subst hik
            rw [if_pos rfl, if_neg (Nat.succ_ne_self k)]
            refine ⟨hnext.trans ?_, (if_pos ⟨k.succ_pos, k.lt_succ_self, hlast⟩).symm, haddr⟩
            rw [if_neg (by omega), if_neg (by omega)]
          · rw [if_neg hik]
            by_cases hik : i = k
            · subst hik
              rw [if_pos rfl]
              refine ⟨(if_pos ⟨i.lt_succ_self, hlast⟩).symm, hprev.trans (if_congr ?_ rfl rfl),
                haddr⟩
              omega
            · rw [if_neg hik]
              refine ⟨hnext.trans (if_congr ?_ rfl rfl), hprev.trans (if_congr ?_ rfl rfl), haddr⟩
              · omega
              · omega
    · -- sets of one entry are not linked
      obtain rfl : assoc = 1 := by
        have := hok.2.pos
        omega
      rw [Table.get_replicate hi]
      simp [default, Nat.mod_one]
  · exact absurd hnew (by simp)

theorem linked_btbCreate {sets assoc : ℕ} {btb : Btb} (hnew : btbCreate sets assoc = some btb) :
    btb.Linked btb.ways := by
  have hpos := btb.assoc_ok.pos
  have hget : ∀ s < btb.sets, ∀ r < btb.assoc, s * btb.assoc + r < btb.sets * btb.assoc := by
    intro s hs r hr
    calc s * btb.assoc + r < (s + 1) * btb.assoc := by rw [Nat.succ_mul]; omega
      _ ≤ btb.sets * btb.assoc := Nat.mul_le_mul_right _ hs
  refine ⟨fun s _ => List.Perm.refl _, fun s hs => ⟨?_, ?_, List.nodup_range'⟩, ?_⟩
  · refine seg_range' fun r hr => ?_
    refine (btbCreate_get hnew (hget s hs r hr)).1.trans (if_congr ?_ rfl rfl)
    rw [Nat.mul_add_mod', Nat.mod_eq_of_lt hr]
    omega
  · refine seg_reverse_range' fun r hr => ?_
    refine (btbCreate_get hnew (hget s hs r hr)).2.1.trans ?_
    rcases r with _ | r
    · rw [if_neg, if_pos rfl]
      rintro ⟨h0, hne⟩
      rcases s with _ | s
      · simp at h0
      · rw [show (s + 1) * btb.assoc + 0 - 1 = s * btb.assoc + (btb.assoc - 1) by
          rw [Nat.succ_mul]; omega, Nat.mul_add_mod', Nat.mod_eq_of_lt (by omega)] at hne
        exact hne rfl
    · rw [if_pos, if_neg (Nat.succ_ne_zero r)]
      refine ⟨by omega, ?_⟩
      rw [← Nat.add_assoc, Nat.add_sub_cancel, Nat.mul_add_mod', Nat.mod_eq_of_lt (by omega)]
      omega
  · intro s hs i hi j _ _ hnz
    exact absurd (btbCreate_get hnew (Btb.Linked.lt_of_mem_ways hs hi)).2.2 hnz

/-! ### Recency -/

/-- The addresses of a set after a branch has been entered: it comes first, and if it was not there
the least recent address is gone. -/
def touch (addrs : List MdAddr) (a : MdAddr) : List MdAddr :=
  if a ∈ addrs then a :: addrs.erase a else a :: addrs.dropLast

theorem map_front {f f' : ℕ → MdAddr} {a : MdAddr} (hnd : l.Nodup) (hp : p ∈ l)
    (hf' : ∀ i, f' i = if i = p then a else f i) (hown : ∀ i ∈ l, f i = a → i = p)
    (hlast : f p ≠ a → l.getLast? = some p) :
    (p :: l.erase p).map f' = touch (l.map f) a := by
  have hrest : (l.erase p).map f' = (l.erase p).map f := by
    refine List.map_congr_left fun i hi => ?_
    rw [hf', if_neg (hnd.mem_erase_iff.mp hi).1]
  rw [List.map_cons, hrest, hf', if_pos rfl, touch]
  by_cases hpa : f p = a
  · obtain ⟨l₁, l₂, rfl⟩ := List.append_of_mem hp
    obtain ⟨-, -, hdisj⟩ := List.nodup_append.mp hnd
    have hp₁ : p ∉ l₁ := fun hmem => hdisj p hmem p List.mem_cons_self rfl
    have ha₁ : a ∉ l₁.map f := by
      rintro hmem
      obtain ⟨i, hi, hia⟩ := List.mem_map.mp hmem
      exact hp₁ (hown i (List.mem_append_left _ hi) hia ▸ hi)
    rw [if_pos (List.mem_map.mpr ⟨p, hp, hpa⟩), List.map_append, List.map_cons, hpa,
      List.erase_append_right _ ha₁, List.erase_append_right _ hp₁, List.erase_cons_head,
      List.erase_cons_head, List.map_append]
  · have hnot : a ∉ l.map f := by
      intro hmem
      obtain ⟨i, hi, hia⟩ := List.mem_map.mp hmem
      exact hpa (hown i hi hia ▸ hia)
    obtain ⟨l₁, rfl⟩ := List.getLast?_eq_some_iff.mp (hlast hpa)
    have hp₁ : p ∉ l₁ := fun hmem =>
      (List.nodup_append.mp hnd).2.2 p hmem p (List.mem_singleton_self p) rfl
    rw [if_neg hnot, List.map_append, List.map_singleton, List.dropLast_concat,
      List.erase_append_right _ hp₁, List.erase_cons_head, List.append_nil]

/-- The branch that a call enters. -/
def PredCall.entered : PredCall → Option MdAddr
  | .lookup .. => none
  | .update baddr _ taken _ _ op upd =>
    if op.isCtrl ∧ ¬ (op.isIndir ∧ upd.dirRas) ∧ taken ≠ 0 then some baddr else none

/-- The sets hold `addrs`, in the order of their links. -/
structure Btb.Holds (btb : Btb) (addrs : ℕ → List MdAddr) (lists : ℕ → List ℕ) : Prop
    extends btb.Linked lists where
  addrs_eq : ∀ s < btb.sets, (lists s).map (fun i => (btb.btbData.get i).addr) = addrs s

/-- Entering a taken branch. -/
theorem Btb.Holds.enter {btb : Btb} {addrs : ℕ → List MdAddr} {lists : ℕ → List ℕ}
    (h : btb.Holds addrs lists) (hb : baddr ≠ 0) (btarget : MdAddr) (op : MdOpcode)
    (correct : Bool) :
    ∃ p data lists', btb.select baddr = some ({ btb with btbData := data }, some p) ∧
      Btb.Holds (Btb.enter { btb with btbData := data } p baddr btarget op correct)
        (Function.update addrs (btb.setOf baddr) (touch (addrs (btb.setOf baddr)) baddr))
        lists' := by
  have hs := Btb.Linked.setOf_lt btb baddr
  obtain ⟨p, hp, data, hselect, haddr, hown, hlast, hlinked⟩ := h.toLinked.select hb
  have hpw := (h.perm _ hs).mem_iff.mp hp
  have hget := Btb.Linked.get_enter { btb with btbData := data }
    (Btb.Linked.lt_of_mem_ways hs hpw) baddr btarget op correct
  refine ⟨p, data, _, hselect, hlinked.enter hpw hown btarget op correct, fun s hs' => ?_⟩
  by_cases hsb : s = btb.setOf baddr
  · subst hsb
    rw [Function.update_self, Function.update_self, ← h.addrs_eq _ hs]
    refine map_front (h.links _ hs).nodup hp (fun i => ?_) (fun i hi ha => ?_) fun hne => ?_
    · rw [(hget i).2, haddr]
    · exact hown i ((h.perm _ hs).mem_iff.mp hi) ((haddr i).trans ha)
    · exact hlast fun ha => hne ((haddr p).symm.trans ha)
  · rw [Function.update_of_ne hsb, Function.update_of_ne hsb, ← h.addrs_eq s hs']
    refine List.map_congr_left fun i hi => ?_
    rw [(hget i).2, if_neg, haddr]
    rintro rfl
    exact hsb (Btb.Linked.eq_of_mem_ways ((h.perm s hs').mem_iff.mp hi) hpw)

/-! ### Runs -/

/-- A predictor that `bpred_create` returns, of a class with tables. -/
def Predictor.New (pred : Predictor) : Prop :=
  pred.NewTwoLevel ∨ ∃ bimodSize btbSets btbAssoc retstackSize,
    bpredCreateBimod bimodSize btbSets btbAssoc retstackSize = some pred

theorem Predictor.New.holds {pred : Predictor} (h : pred.New) :
    pred.dirpred.isStateful = true ∧
      ∃ lists, pred.btb.Holds (fun _ => List.replicate pred.btb.assoc 0) lists := by
  have hnew : pred.dirpred.isStateful = true ∧
      ∃ sets assoc, btbCreate sets assoc = some pred.btb := by
    rcases h with (⟨sets, assoc, _, h⟩ | ⟨_, _, _, _, sets, assoc, _, h⟩) | ⟨_, sets, assoc, _, h⟩
    all_goals
      simp only [bpredCreateComb, bpredCreateTwoLevel, bpredCreateBimod, Option.bind_eq_bind,
        Option.bind_eq_some_iff, Option.pure_def, Option.some.injEq] at h
      refine ⟨?_, sets, assoc, ?_⟩
      · grind [DirPred.isStateful]
      · grind
  obtain ⟨hd, sets, assoc, h⟩ := hnew
  refine ⟨hd, _, linked_btbCreate h, fun s hs => ?_⟩
  refine List.eq_replicate_iff.mpr ⟨?_, fun a ha => ?_⟩
  · rw [List.length_map, Btb.ways, List.length_range']
  · obtain ⟨i, hi, rfl⟩ := List.mem_map.mp ha
    exact (btbCreate_get h (Btb.Linked.lt_of_mem_ways hs hi)).2.2

/-- The assertion fails for a branch at address 0. -/
example : ((bpredCreateBimod 4 1 2 0).bind fun pred =>
    bpredUpdate pred 0 64 1 0 0 .beq {}).isNone = true := by decide +kernel

end AdvancedArchitecture.Bpred
