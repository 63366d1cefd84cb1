import Mathlib.Tactic.Cases
import Mathlib.Tactic.SplitIfs
import AdvancedArchitecture.Cache.Machine

/-!
# The links of a set

The blocks of a set are on a doubly linked way list and, in a highly associative cache, on the
hash chains of their tags. The pointers are read as the linked structures of the library:
`update_way_list` unlinks a block and links it back, so that on the represented list it is
erased and added at one end (`updateWayList_spec`); `unlink_htab_ent` takes a block off its
chain and `link_htab_ent` puts it on the chain of its tag (`Chains`). The assertions of both
hold on represented lists.
-/

namespace AdvancedArchitecture.Cache

namespace CacheSet

variable {cfg : Config} {s s' : CacheSet cfg} {i : ℕ}

/-! ### Reading a rewritten set -/

/-- A part of the blocks that a rewriting leaves alone. -/
theorem read_modifyBlk_of_eq {β : Type} (r : CacheBlk cfg → β)
    {f : CacheBlk cfg → CacheBlk cfg} (hf : ∀ b, r (f b) = r b) (j : ℕ) :
    r ((s.modifyBlk i f).blks.get j) = r (s.blks.get j) := by
  by_cases hj : j = i
  · subst hj
    by_cases hlt : j < cfg.assoc
    · rw [modifyBlk, Table.get_modify_self _ hlt, hf]
    · rw [Table.get_of_le _ (by omega), Table.get_of_le _ (by omega)]
  · rw [modifyBlk, Table.get_modify_ne _ hj]

/-- A part of the blocks that a rewriting changes, at one block. -/
theorem read_modifyBlk {β : Type} (r : CacheBlk cfg → β) {f : CacheBlk cfg → CacheBlk cfg}
    (hi : i < cfg.assoc) (j : ℕ) :
    r ((s.modifyBlk i f).blks.get j) =
      Function.update (fun j => r (s.blks.get j)) i (r (f (s.blks.get i))) j := by
  by_cases hj : j = i
  · subst hj
    rw [Function.update_self, modifyBlk, Table.get_modify_self _ hi]
  · rw [Function.update_of_ne hj, modifyBlk, Table.get_modify_ne _ hj]

section

variable (s) (v : Option ℕ) (g : Line cfg → Line cfg)

theorem line_modifyLine (hi : i < cfg.assoc) :
    (s.modifyLine i g).line = Function.update s.line i (g (s.line i)) :=
  funext (read_modifyBlk (fun b => b.toLine) hi)

@[simp] theorem wayNext_modifyLine : (s.modifyLine i g).wayNext = s.wayNext :=
  funext (read_modifyBlk_of_eq (fun b => b.wayNext) fun _ => rfl)

@[simp] theorem wayPrev_modifyLine : (s.modifyLine i g).wayPrev = s.wayPrev :=
  funext (read_modifyBlk_of_eq (fun b => b.wayPrev) fun _ => rfl)

@[simp] theorem hashNext_modifyLine : (s.modifyLine i g).hashNext = s.hashNext :=
  funext (read_modifyBlk_of_eq (fun b => b.hashNext) fun _ => rfl)

@[simp] theorem wayHead_modifyLine : (s.modifyLine i g).wayHead = s.wayHead := rfl
@[simp] theorem wayTail_modifyLine : (s.modifyLine i g).wayTail = s.wayTail := rfl
@[simp] theorem hash_modifyLine : (s.modifyLine i g).hash = s.hash := rfl
@[simp] theorem setType_modifyLine : (s.modifyLine i g).setType = s.setType := rfl

theorem wayNext_setWayNext (hi : i < cfg.assoc) :
    (s.setWayNext i v).wayNext = Function.update s.wayNext i v :=
  funext (read_modifyBlk (fun b => b.wayNext) hi)

@[simp] theorem line_setWayNext : (s.setWayNext i v).line = s.line :=
  funext (read_modifyBlk_of_eq (fun b => b.toLine) fun _ => rfl)

@[simp] theorem wayPrev_setWayNext : (s.setWayNext i v).wayPrev = s.wayPrev :=
  funext (read_modifyBlk_of_eq (fun b => b.wayPrev) fun _ => rfl)

@[simp] theorem hashNext_setWayNext : (s.setWayNext i v).hashNext = s.hashNext :=
  funext (read_modifyBlk_of_eq (fun b => b.hashNext) fun _ => rfl)

@[simp] theorem wayHead_setWayNext : (s.setWayNext i v).wayHead = s.wayHead := rfl
@[simp] theorem wayTail_setWayNext : (s.setWayNext i v).wayTail = s.wayTail := rfl
@[simp] theorem hash_setWayNext : (s.setWayNext i v).hash = s.hash := rfl
@[simp] theorem setType_setWayNext : (s.setWayNext i v).setType = s.setType := rfl

theorem wayPrev_setWayPrev (hi : i < cfg.assoc) :
    (s.setWayPrev i v).wayPrev = Function.update s.wayPrev i v :=
  funext (read_modifyBlk (fun b => b.wayPrev) hi)

@[simp] theorem line_setWayPrev : (s.setWayPrev i v).line = s.line :=
  funext (read_modifyBlk_of_eq (fun b => b.toLine) fun _ => rfl)

@[simp] theorem wayNext_setWayPrev : (s.setWayPrev i v).wayNext = s.wayNext :=
  funext (read_modifyBlk_of_eq (fun b => b.wayNext) fun _ => rfl)

@[simp] theorem hashNext_setWayPrev : (s.setWayPrev i v).hashNext = s.hashNext :=
  funext (read_modifyBlk_of_eq (fun b => b.hashNext) fun _ => rfl)

@[simp] theorem wayHead_setWayPrev : (s.setWayPrev i v).wayHead = s.wayHead := rfl
@[simp] theorem wayTail_setWayPrev : (s.setWayPrev i v).wayTail = s.wayTail := rfl
@[simp] theorem hash_setWayPrev : (s.setWayPrev i v).hash = s.hash := rfl
@[simp] theorem setType_setWayPrev : (s.setWayPrev i v).setType = s.setType := rfl

theorem hashNext_setHashNext (hi : i < cfg.assoc) :
    (s.setHashNext i v).hashNext = Function.update s.hashNext i v :=
  funext (read_modifyBlk (fun b => b.hashNext) hi)

@[simp] theorem line_setHashNext : (s.setHashNext i v).line = s.line :=
  funext (read_modifyBlk_of_eq (fun b => b.toLine) fun _ => rfl)

@[simp] theorem wayNext_setHashNext : (s.setHashNext i v).wayNext = s.wayNext :=
  funext (read_modifyBlk_of_eq (fun b => b.wayNext) fun _ => rfl)

@[simp] theorem wayPrev_setHashNext : (s.setHashNext i v).wayPrev = s.wayPrev :=
  funext (read_modifyBlk_of_eq (fun b => b.wayPrev) fun _ => rfl)

@[simp] theorem wayHead_setHashNext : (s.setHashNext i v).wayHead = s.wayHead := rfl
@[simp] theorem wayTail_setHashNext : (s.setHashNext i v).wayTail = s.wayTail := rfl
@[simp] theorem hash_setHashNext : (s.setHashNext i v).hash = s.hash := rfl
@[simp] theorem setType_setHashNext : (s.setHashNext i v).setType = s.setType := rfl

@[simp] theorem wayHead_setWayHead : (s.setWayHead v).wayHead = v := rfl
@[simp] theorem line_setWayHead : (s.setWayHead v).line = s.line := rfl
@[simp] theorem wayNext_setWayHead : (s.setWayHead v).wayNext = s.wayNext := rfl
@[simp] theorem wayPrev_setWayHead : (s.setWayHead v).wayPrev = s.wayPrev := rfl
@[simp] theorem hashNext_setWayHead : (s.setWayHead v).hashNext = s.hashNext := rfl
@[simp] theorem wayTail_setWayHead : (s.setWayHead v).wayTail = s.wayTail := rfl
@[simp] theorem hash_setWayHead : (s.setWayHead v).hash = s.hash := rfl
@[simp] theorem setType_setWayHead : (s.setWayHead v).setType = s.setType := rfl

@[simp] theorem wayTail_setWayTail : (s.setWayTail v).wayTail = v := rfl
@[simp] theorem line_setWayTail : (s.setWayTail v).line = s.line := rfl
@[simp] theorem wayNext_setWayTail : (s.setWayTail v).wayNext = s.wayNext := rfl
@[simp] theorem wayPrev_setWayTail : (s.setWayTail v).wayPrev = s.wayPrev := rfl
@[simp] theorem hashNext_setWayTail : (s.setWayTail v).hashNext = s.hashNext := rfl
@[simp] theorem wayHead_setWayTail : (s.setWayTail v).wayHead = s.wayHead := rfl
@[simp] theorem hash_setWayTail : (s.setWayTail v).hash = s.hash := rfl
@[simp] theorem setType_setWayTail : (s.setWayTail v).setType = s.setType := rfl

@[simp] theorem line_setHash (h : ℕ) : (s.setHash h v).line = s.line := rfl
@[simp] theorem wayNext_setHash (h : ℕ) : (s.setHash h v).wayNext = s.wayNext := rfl
@[simp] theorem wayPrev_setHash (h : ℕ) : (s.setHash h v).wayPrev = s.wayPrev := rfl
@[simp] theorem hashNext_setHash (h : ℕ) : (s.setHash h v).hashNext = s.hashNext := rfl
@[simp] theorem wayHead_setHash (h : ℕ) : (s.setHash h v).wayHead = s.wayHead := rfl
@[simp] theorem wayTail_setHash (h : ℕ) : (s.setHash h v).wayTail = s.wayTail := rfl
@[simp] theorem setType_setHash (h : ℕ) : (s.setHash h v).setType = s.setType := rfl

end

/-! ### The way list -/

/-- The way pointers of a set. -/
def ways (s : CacheSet cfg) : DList ℕ := ⟨s.wayNext, s.wayPrev, s.wayHead, s.wayTail⟩

@[simp]
theorem ways_modifyLine (s : CacheSet cfg) (i : ℕ) (f : Line cfg → Line cfg) :
    (s.modifyLine i f).ways = s.ways := by
  simp [ways]

/-- Two sets that differ in their way lists only. -/
structure SameLines (s s' : CacheSet cfg) : Prop where
  line : s'.line = s.line
  hashNext : s'.hashNext = s.hashNext
  hash : s'.hash = s.hash
  setType : s'.setType = s.setType

section

variable {l : List ℕ} {blk : ℕ}

/-- **Linking a block back** puts it at the chosen end. -/
theorem linkWay_spec (h : s.ways.Represents l) (hne : l ≠ []) (hlt : ∀ j ∈ l, j < cfg.assoc)
    (hb : blk < cfg.assoc) (hbl : blk ∉ l) (loc : ListLoc) :
    ∃ s', s.linkWay blk loc = some s' ∧ SameLines s s' ∧
      s'.ways.Represents (match loc with | .head => blk :: l | .tail => l ++ [blk]) := by
  cases loc with
  | head =>
    obtain ⟨x, l', rfl⟩ := List.exists_cons_of_ne_nil hne
    have hhead : s.wayHead = some x := h.head_eq
    have hx : x < cfg.assoc := hlt x List.mem_cons_self
    have hxb : x ≠ blk := fun hx => hbl (hx ▸ List.mem_cons_self)
    refine ⟨_, by rw [linkWay, hhead], ⟨by simp, by simp, by simp, by simp⟩, ?_⟩
    have hpush := h.pushFront hbl
    have heq : (((((s.setWayNext blk (some x)).setWayPrev blk none).setWayPrev x
        (some blk)).setWayHead (some blk))).ways = s.ways.pushFront blk := by
      simp [ways, DList.pushFront, hhead, wayNext_setWayNext _ _ hb, wayPrev_setWayPrev _ _ hb,
        wayPrev_setWayPrev _ _ hx, Function.update_comm hxb]
    rw [heq]
    exact hpush
  | tail =>
    obtain ⟨l', x, rfl⟩ := List.eq_nil_or_concat' l |>.resolve_left hne
    have htail : s.wayTail = some x := by
      have ht := h.tail_eq
      rwa [List.getLast?_append, List.getLast?_singleton, Option.some_or] at ht
    have hx : x < cfg.assoc := hlt x (by simp)
    have hxb : x ≠ blk := fun hx => hbl (hx ▸ by simp)
    refine ⟨_, by rw [linkWay, htail], ⟨by simp, by simp, by simp, by simp⟩, ?_⟩
    have hpush := h.pushBack hbl
    have heq : (((((s.setWayPrev blk (some x)).setWayNext blk none).setWayNext x
        (some blk)).setWayTail (some blk))).ways = s.ways.pushBack blk := by
      simp [ways, DList.pushBack, DList.pushFront, DList.flip, htail, wayNext_setWayNext _ _ hb,
        wayPrev_setWayPrev _ _ hb, wayNext_setWayNext _ _ hx, Function.update_comm hxb]
    rw [heq]
    exact hpush

/-- The list with `blk` moved to one of its ends. -/
def moveTo (loc : ListLoc) (blk : ℕ) (l : List ℕ) : List ℕ :=
  match loc with
  | .head => blk :: l.erase blk
  | .tail => l.erase blk ++ [blk]

/-- The block in front of the list is left there. -/
theorem updateWayList_head (h : s.ways.Represents (blk :: l)) :
    s.updateWayList blk .head = some s := by
  have hprev : s.wayPrev blk = none := h.prev_eq (l := [])
  have hnext : s.wayNext blk = l.head? := h.next_eq (l := [])
  have hhead : s.wayHead = some blk := h.head_eq
  have htail : s.wayTail = (blk :: l).getLast? := h.tail_eq
  rw [updateWayList, hprev, hnext]
  cases l with
  | nil => exact if_pos ⟨hhead, htail⟩
  | cons x l =>
    have hne : s.wayTail ≠ some blk := by
      rw [htail, List.getLast?_cons_cons]
      intro hlast
      exact (List.nodup_cons.mp h.nodup).1 (List.mem_of_getLast? hlast)
    exact (if_pos ⟨hhead, hne⟩).trans (if_pos rfl)

/-- The block at the end of the list is left there. -/
theorem updateWayList_tail (h : s.ways.Represents (l ++ [blk])) :
    s.updateWayList blk .tail = some s := by
  have hprev : s.wayPrev blk = l.getLast? := h.prev_eq
  have hnext : s.wayNext blk = none := h.next_eq
  have hhead : s.wayHead = (l ++ [blk]).head? := h.head_eq
  have htail : s.wayTail = some blk := by
    have hlast := h.tail_eq
    rwa [List.getLast?_append, List.getLast?_singleton, Option.some_or] at hlast
  rw [updateWayList, hprev, hnext]
  rcases List.eq_nil_or_concat' l with rfl | ⟨l, x, rfl⟩
  · exact if_pos ⟨hhead, htail⟩
  · have hne : s.wayHead ≠ some blk := by
      rw [hhead, List.head?_append_of_ne_nil _ (by simp)]
      intro hfirst
      exact (List.nodup_append.mp h.nodup).2.2 blk (List.mem_of_head? hfirst) blk (by simp) rfl
    rw [List.getLast?_append, List.getLast?_singleton, Option.some_or]
    exact (if_pos ⟨hne, htail⟩).trans (if_pos rfl)

/-- **A block at its end is left alone.** -/
theorem updateWayList_of_moved {loc : ListLoc} (h : s.ways.Represents (moveTo loc blk l)) :
    s.updateWayList blk loc = some s := by
  cases loc with
  | head => exact updateWayList_head h
  | tail => exact updateWayList_tail h

/-- The block between `l₁` and `l₂` is at the chosen end already. -/
def AtEnd (loc : ListLoc) (l₁ l₂ : List ℕ) : Prop :=
  match loc with
  | .head => l₁ = []
  | .tail => l₂ = []

/-- **The first half of `update_way_list`** on a block that has to move: its assertions hold,
and the block is unlinked. -/
theorem updateWayList_eq_linkWay {l₁ l₂ : List ℕ} {loc : ListLoc}
    (h : s.ways.Represents (l₁ ++ blk :: l₂)) (hlt : ∀ j ∈ l₁ ++ blk :: l₂, j < cfg.assoc)
    (hend : ¬AtEnd loc l₁ l₂) :
    ∃ s₁, s.updateWayList blk loc = s₁.linkWay blk loc ∧ SameLines s s₁ ∧
      s₁.ways = s.ways.unlink blk := by
  have hprev : s.wayPrev blk = l₁.getLast? := h.prev_eq
  have hnext : s.wayNext blk = l₂.head? := h.next_eq
  have hhead : s.wayHead = (l₁ ++ blk :: l₂).head? := h.head_eq
  have htail : s.wayTail = (l₁ ++ blk :: l₂).getLast? := h.tail_eq
  have hnot : blk ∉ l₁ ++ l₂ := (List.nodup_middle.mp h.nodup).notMem
  -- the head or the tail is another block, where there are others on that side
  have hhne : l₁ ≠ [] → s.wayHead ≠ some blk := by
    intro hne hh
    rw [hhead, List.head?_append_of_ne_nil _ hne] at hh
    exact hnot (List.mem_append_left _ (List.mem_of_head? hh))
  have htne : l₂ ≠ [] → s.wayTail ≠ some blk := by
    intro hne hl
    rw [htail, List.append_cons, List.getLast?_append_of_ne_nil _ hne] at hl
    exact hnot (List.mem_append_right _ (List.mem_of_getLast? hl))
  rw [updateWayList, hprev, hnext]
  rcases List.eq_nil_or_concat' l₁ with rfl | ⟨l₀, p, rfl⟩
  · cases loc with
    | head => exact absurd rfl hend
    | tail =>
      obtain ⟨n, l₂, rfl⟩ := List.exists_cons_of_ne_nil hend
      have hc : s.wayHead = some blk ∧ s.wayTail ≠ some blk := ⟨hhead, htne (by simp)⟩
      refine ⟨(s.setWayHead (some n)).setWayPrev n none, by simp [hc],
        ⟨by simp, by simp, by simp, by simp⟩, ?_⟩
      simp [ways, DList.unlink, hprev, hnext, wayPrev_setWayPrev _ _ (hlt n (by simp))]
  · have hp : p < cfg.assoc := hlt p (by simp)
    have hlast : (l₀ ++ [p]).getLast? = some p := by simp
    rw [hlast] at hprev ⊢
    cases l₂ with
    | nil =>
      cases loc with
      | tail => exact absurd rfl hend
      | head =>
        have hc : s.wayHead ≠ some blk ∧ s.wayTail = some blk :=
          ⟨hhne (by simp), by rw [htail]; simp⟩
        refine ⟨(s.setWayTail (some p)).setWayNext p none, by simp [hc],
          ⟨by simp, by simp, by simp, by simp⟩, ?_⟩
        simp [ways, DList.unlink, hprev, hnext, wayNext_setWayNext _ _ hp]
    | cons n l₂ =>
      have hc : s.wayHead ≠ some blk ∧ s.wayTail ≠ some blk := ⟨hhne (by simp), htne (by simp)⟩
      refine ⟨(s.setWayNext p (some n)).setWayPrev n (some p), by simp [hc],
        ⟨by simp, by simp, by simp, by simp⟩, ?_⟩
      simp [ways, DList.unlink, hprev, hnext, wayNext_setWayNext _ _ hp,
        wayPrev_setWayPrev _ _ (hlt n (by simp))]

/-- **`update_way_list`** on a block of the list: its assertions hold, and the block is moved to
the chosen end. -/
theorem updateWayList_spec (h : s.ways.Represents l) (hlt : ∀ j ∈ l, j < cfg.assoc)
    (hb : blk ∈ l) (loc : ListLoc) :
    ∃ s', s.updateWayList blk loc = some s' ∧ SameLines s s' ∧
      s'.ways.Represents (moveTo loc blk l) := by
  have hunlink := h.unlink hb
  have hbl : blk ∉ l.erase blk := h.nodup.not_mem_erase
  have hblt := hlt blk hb
  have hlt' : ∀ j ∈ l.erase blk, j < cfg.assoc := fun j hj => hlt j (List.mem_of_mem_erase hj)
  obtain ⟨l₁, l₂, -, rfl, he⟩ := List.exists_erase_eq hb
  by_cases hend : AtEnd loc l₁ l₂
  · -- the block is there already
    have hmoved : moveTo loc blk (l₁ ++ blk :: l₂) = l₁ ++ blk :: l₂ := by
      rw [moveTo.eq_def, he]
      cases loc with
      | head => rw [show l₁ = [] from hend]; rfl
      | tail => rw [show l₂ = [] from hend, List.append_nil]
    rw [hmoved]
    exact ⟨s, updateWayList_of_moved (by rw [hmoved]; exact h), ⟨rfl, rfl, rfl, rfl⟩, h⟩
  · obtain ⟨s₁, heq, hs₁, hways⟩ := updateWayList_eq_linkWay h hlt hend
    have hne : (l₁ ++ blk :: l₂).erase blk ≠ [] := by
      rw [he]
      cases loc with
      | head => exact fun hnil => hend (List.append_eq_nil_iff.mp hnil).1
      | tail => exact fun hnil => hend (List.append_eq_nil_iff.mp hnil).2
    obtain ⟨s', hs', hsame, hrep⟩ :=
      linkWay_spec (by rw [hways]; exact hunlink) hne hlt' hblt hbl loc
    exact ⟨s', heq.trans hs', ⟨hsame.line.trans hs₁.line, hsame.hashNext.trans hs₁.hashNext,
      hsame.hash.trans hs₁.hash, hsame.setType.trans hs₁.setType⟩, hrep⟩

/-- **A new block** is put in front of the list. -/
theorem addWay_spec (h : s.ways.Represents l) (hlt : ∀ j ∈ l, j < cfg.assoc)
    (hb : blk < cfg.assoc) (hbl : blk ∉ l) :
    SameLines s (s.addWay blk) ∧ (s.addWay blk).ways.Represents (blk :: l) := by
  have hhead : s.wayHead = l.head? := h.head_eq
  have htail : s.wayTail = l.getLast? := h.tail_eq
  have hpush := h.pushFront hbl
  rcases l with _ | ⟨x, l⟩
  · have hh : s.wayHead = none := hhead
    have ht : s.wayTail = none := htail
    have heq : s.addWay blk =
        (((s.setWayNext blk none).setWayPrev blk none).setWayHead (some blk)).setWayTail
          (some blk) := by
      simp [addWay, hh, ht]
    rw [heq]
    refine ⟨⟨by simp, by simp, by simp, by simp⟩, ?_⟩
    convert hpush using 1
    simp [ways, DList.pushFront, hh, wayNext_setWayNext _ _ hb, wayPrev_setWayPrev _ _ hb]
  · have hh : s.wayHead = some x := hhead
    have hx : x < cfg.assoc := hlt x List.mem_cons_self
    have hxb : x ≠ blk := fun hx => hbl (hx ▸ List.mem_cons_self)
    have ht : s.wayTail ≠ none := by simp [htail]
    have heq : s.addWay blk =
        (((s.setWayNext blk (some x)).setWayPrev blk none).setWayPrev x (some blk)).setWayHead
          (some blk) := by
      simp [addWay, hh, ht]
    rw [heq]
    refine ⟨⟨by simp, by simp, by simp, by simp⟩, ?_⟩
    convert hpush using 1
    simp [ways, DList.pushFront, hh, wayNext_setWayNext _ _ hb, wayPrev_setWayPrev _ _ hb,
      wayPrev_setWayPrev _ _ hx, Function.update_comm hxb]

end

/-! ### The hash chains -/

/-- Two sets that differ in their hash chains only. -/
structure SameWays (s s' : CacheSet cfg) : Prop where
  line : s'.line = s.line
  ways : s'.ways = s.ways
  setType : s'.setType = s.setType

/-- **The hash chains hold the live blocks**, each on the chain of its tag, once. -/
def Chains (s : CacheSet cfg) (live : ℕ → Prop) : Prop :=
  ∀ h, h < cfg.hsize → ∃ l, Seg s.hashNext (s.hash.get h) l none ∧ l.Nodup ∧
    ∀ j, j ∈ l ↔ live j ∧ cfg.hash (s.line j).tag = h

theorem hash_lt {cfg : Config} (hh : cfg.hsize ≠ 0) (key : MdAddr) :
    cfg.hash key < cfg.hsize :=
  toNat_and_ofNat_pred_lt _ (Nat.pos_of_ne_zero hh)

section

variable {live : ℕ → Prop} {blk : ℕ}

theorem hashPrev_eq {l₁ l₂ : List ℕ} {start prev : Option ℕ} {fuel : ℕ}
    (h : Seg s.hashNext start (l₁ ++ blk :: l₂) none) (hn : blk ∉ l₁)
    (hf : l₁.length < fuel) :
    s.hashPrev blk fuel prev start = some (l₁.getLast?.or prev) := by
  induction l₁ generalizing start prev fuel with
  | nil =>
    obtain ⟨rfl, -⟩ := h
    cases fuel with
    | zero => exact absurd hf (by simp)
    | succ fuel => simp [hashPrev]
  | cons x l₁ ih =>
    obtain ⟨rfl, h⟩ := h
    have hx : x ≠ blk := fun hx => hn (hx ▸ List.mem_cons_self)
    cases fuel with
    | zero => exact absurd hf (by simp)
    | succ fuel =>
      rw [hashPrev, if_neg hx, ih h (fun hb => hn (List.mem_cons_of_mem x hb)) (by simpa using hf)]
      rcases l₁ with _ | ⟨y, l₁⟩
      · rfl
      · rw [List.getLast?_cons_cons, List.getLast?_eq_getLast_of_ne_nil (by simp)]
        rfl

/-- Rewriting one chain. -/
theorem Chains.update {live' : ℕ → Prop} (h : s.Chains live) (index : ℕ)
    (hline : s'.line = s.line)
    (hnext : ∀ j, cfg.hash (s.line j).tag ≠ index → s'.hashNext j = s.hashNext j)
    (hget : ∀ k, k ≠ index → s'.hash.get k = s.hash.get k)
    (hlive : ∀ j, cfg.hash (s.line j).tag ≠ index → (live' j ↔ live j))
    (hidx : ∃ l, Seg s'.hashNext (s'.hash.get index) l none ∧ l.Nodup ∧
      ∀ j, j ∈ l ↔ live' j ∧ cfg.hash (s.line j).tag = index) : s'.Chains live' := by
  intro k hk
  rw [hline]
  by_cases hki : k = index
  · rw [hki]
    exact hidx
  · obtain ⟨l, hseg, hnd, hmem⟩ := h k hk
    have hne : ∀ j ∈ l, cfg.hash (s.line j).tag ≠ index := fun j hj hji =>
      hki (((hmem j).mp hj).2.symm.trans hji)
    refine ⟨l, ?_, hnd, fun j => ?_⟩
    · rw [hget k hki]
      exact hseg.congr fun j hj => hnext j (hne j hj)
    · rw [hmem]
      refine and_congr_left fun hj => (hlive j ?_).symm
      rw [hj]
      exact hki

/-- **`unlink_htab_ent`** on a live block: its assertion holds, and the block is taken off the
chains. -/
theorem unlinkHtabEnt_spec (h : s.Chains live) (hh : cfg.hsize ≠ 0)
    (hlive : ∀ j, live j → j < cfg.assoc) (hb : live blk) :
    ∃ s', s.unlinkHtabEnt blk = some s' ∧ SameWays s s' ∧
      s'.Chains fun j => live j ∧ j ≠ blk := by
  have hidx := hash_lt hh (s.line blk).tag
  obtain ⟨l, hseg, hnd, hmem⟩ := h _ hidx
  have hblt := hlive blk hb
  have hlen := length_le_of_nodup hnd fun j hj => hlive j ((hmem j).mp hj).1
  obtain ⟨l₁, l₂, rfl, hn⟩ := List.eq_append_cons_of_mem ((hmem blk).mpr ⟨hb, rfl⟩)
  have hfuel : l₁.length < cfg.assoc := by
    simp only [List.length_append, List.length_cons] at hlen
    omega
  -- the chain of the block loses it, the others keep their blocks
  have herase : (l₁ ++ blk :: l₂).erase blk = l₁ ++ l₂ := by
    rw [List.erase_append_right _ hn, List.erase_cons_head]
  have hnd' : (l₁ ++ l₂).Nodup := herase ▸ hnd.erase blk
  have hbl : blk ∉ l₁ ++ l₂ := herase ▸ hnd.not_mem_erase
  have hmem' : ∀ j, j ∈ l₁ ++ l₂ ↔
      (live j ∧ j ≠ blk) ∧ cfg.hash (s.line j).tag = cfg.hash (s.line blk).tag := by
    intro j
    rw [← herase, hnd.mem_erase_iff, hmem, and_left_comm, ← and_assoc]
  have hother : ∀ j, cfg.hash (s.line j).tag ≠ cfg.hash (s.line blk).tag →
      ((live j ∧ j ≠ blk) ↔ live j) := fun j hj =>
    and_iff_left fun hjb => hj (by rw [hjb])
  rw [unlinkHtabEnt, hashPrev_eq hseg hn hfuel]
  rcases List.eq_nil_or_concat' l₁ with rfl | ⟨l₀, p, rfl⟩
  · refine ⟨_, rfl, ⟨by simp, by simp [ways], by simp⟩, h.update _ (by simp) (fun j hj => ?_)
      (fun k hk => ?_) hother ⟨l₂, ?_, hnd', hmem'⟩⟩
    · rw [hashNext_setHashNext _ _ hblt, Function.update_of_ne fun hjb => hj (by rw [hjb])]
      rfl
    · exact Table.get_set_ne _ hk _
    · rw [hash_setHashNext, setHash, Table.get_set_self _ hidx, hashNext_setHashNext _ _ hblt]
      refine hseg.2.congr fun j hj => Function.update_of_ne (fun hjb => ?_) _ _
      exact hbl (hjb ▸ hj)
  · have hp : cfg.hash (s.line p).tag = cfg.hash (s.line blk).tag := ((hmem p).mp (by simp)).2
    have hplt : p < cfg.assoc := hlive p ((hmem p).mp (by simp)).1
    have hlast : (l₀ ++ [p]).getLast?.or none = some p := by simp
    rw [hlast]
    refine ⟨_, rfl, ⟨by simp, by simp [ways], by simp⟩, h.update _ (by simp) (fun j hj => ?_)
      (fun k hk => rfl) hother ⟨l₀ ++ [p] ++ l₂, ?_, hnd', hmem'⟩⟩
    · rw [hashNext_setHashNext _ _ hblt, hashNext_setHashNext _ _ hplt,
        Function.update_of_ne fun hjb => hj (by rw [hjb]),
        Function.update_of_ne fun hjp => hj (by rw [hjp, hp])]
    · rw [List.append_assoc] at hseg hnd hbl ⊢
      rw [hash_setHashNext, hash_setHashNext, hashNext_setHashNext _ _ hblt,
        hashNext_setHashNext _ _ hplt]
      refine (hseg.remove hnd).congr fun j hj => Function.update_of_ne (fun hjb => ?_) _ _
      exact hbl (hjb ▸ hj)

/-- **`link_htab_ent`** puts the block on the chain of its tag. -/
theorem linkHtabEnt_spec (h : s.Chains live) (hh : cfg.hsize ≠ 0) (hblt : blk < cfg.assoc)
    (hb : ¬ live blk) : SameWays s (s.linkHtabEnt blk) ∧
      (s.linkHtabEnt blk).Chains fun j => live j ∨ j = blk := by
  have hidx := hash_lt hh (s.line blk).tag
  obtain ⟨l, hseg, hnd, hmem⟩ := h _ hidx
  have hbl : blk ∉ l := fun hbl => hb ((hmem blk).mp hbl).1
  refine ⟨⟨by simp [linkHtabEnt], by simp [linkHtabEnt, ways], by simp [linkHtabEnt]⟩,
    h.update (cfg.hash (s.line blk).tag) (by simp [linkHtabEnt]) (fun j hj => ?_)
    (fun k hk => Table.get_set_ne _ hk _) (fun j hj => ?_)
    ⟨blk :: l, ⟨?_, ?_⟩, List.nodup_cons.mpr ⟨hbl, hnd⟩, fun j => ?_⟩⟩
  · rw [linkHtabEnt, hashNext_setHash, hashNext_setHashNext _ _ hblt,
      Function.update_of_ne fun hjb => hj (by rw [hjb])]
  · exact or_iff_left fun hjb => hj (by rw [hjb])
  · exact Table.get_set_self _ hidx _
  · rw [linkHtabEnt, hashNext_setHash, hashNext_setHashNext _ _ hblt, Function.update_self]
    refine hseg.congr fun j hj => Function.update_of_ne (fun hjb => ?_) _ _
    exact hbl (hjb ▸ hj)
  · rw [List.mem_cons, hmem]
    refine ⟨?_, ?_⟩
    · rintro (rfl | ⟨hj, ht⟩)
      · exact ⟨Or.inr rfl, rfl⟩
      · exact ⟨Or.inl hj, ht⟩
    · rintro ⟨hj | rfl, ht⟩
      · exact Or.inr ⟨hj, ht⟩
      · exact Or.inl rfl

end

end CacheSet

end AdvancedArchitecture.Cache
