import Mathlib.Data.Int.ModEq
import Mathlib.Tactic.Ring
import AdvancedArchitecture.Bpred.History

/-!
# The return-address stack

The stack of `bpred_t` is circular: a call overwrites the oldest entry, and a return never finds
the stack empty. The fetch stage goes on along a wrong path until the branch is resolved, and
`bpred_recover` then puts back the top of the stack, but not what has been overwritten.

For any path with any squashed wrong paths in it, `kept` says which of the pending return addresses
are still there. The entry `k` below the top gets lost when more function calls than the stack has
entries are pending above it, or when a call on a wrong path reaches a height congruent to `-k`
modulo the size; it does not matter what becomes of the other entries. A return finds its address if
the entry of the call is kept (`return_predicted`).
-/

namespace AdvancedArchitecture.Bpred

/-- `bpred_recover`. -/
def bpredRecover (pred : Predictor) (stackRecoverIdx : ℤ) : Predictor :=
  { pred with retstack := { pred.retstack with tos := stackRecoverIdx } }

namespace RetStack

/-- There is a top entry. -/
structure Ok (rs : RetStack) : Prop where
  tos_nonneg : 0 ≤ rs.tos
  tos_lt : rs.tos < rs.size

/-- The entry `k` places below the top. -/
def entry (rs : RetStack) (k : ℕ) : MdAddr := rs.stack.get ((rs.tos - k) % rs.size).toNat

/-- The stack after a pop. -/
def pop (rs : RetStack) : RetStack := { rs with tos := (rs.tos + rs.size - 1) % rs.size }

/-- The stack after a push. -/
def push (rs : RetStack) (target : MdAddr) : RetStack :=
  { rs with
    tos := (rs.tos + 1) % rs.size
    stack := rs.stack.set ((rs.tos + 1) % rs.size).toNat target }

/-- What a call of the predictor does to the stack. -/
def after (rs : RetStack) : PredCall → RetStack
  | .lookup baddr _ op isCall isReturn _ _ =>
    if op.isCtrl then
      if isReturn then rs.pop else if isCall then rs.push (baddr + sizeofMdInst) else rs
    else rs
  | .update .. => rs

end RetStack

/-! ### Heights -/

/-- The height of the stack after a call of the predictor. -/
def heightAfter (h : ℤ) : PredCall → ℤ
  | .lookup _ _ op isCall isReturn _ _ =>
    if op.isCtrl then if isReturn then h - 1 else if isCall then h + 1 else h else h
  | .update .. => h

/-- The heights that the function calls of a path reach. -/
def callHeights : ℤ → List PredCall → List ℤ
  | _, [] => []
  | h, c :: cs =>
    if h < heightAfter h c then heightAfter h c :: callHeights (heightAfter h c) cs
    else callHeights (heightAfter h c) cs

namespace RetStack

variable {rs : RetStack} {k : ℕ} {c : PredCall} {cs : List PredCall} {t h s : ℤ}

theorem Ok.size_pos (hok : rs.Ok) : (0 : ℤ) < rs.size := hok.tos_nonneg.trans_lt hok.tos_lt

/-- A call of the predictor pops, pushes or leaves the stack as it is. -/
theorem after_cases (rs : RetStack) (h : ℤ) (c : PredCall) :
    (rs.after c = rs.pop ∧ heightAfter h c = h - 1) ∨
      (∃ target, rs.after c = rs.push target ∧ heightAfter h c = h + 1) ∨
      (rs.after c = rs ∧ heightAfter h c = h) := by
  cases c with
  | update => exact Or.inr (Or.inr ⟨rfl, rfl⟩)
  | lookup baddr btarget op isCall isReturn upd idx =>
    rw [after, heightAfter]
    split_ifs
    · exact Or.inl ⟨rfl, rfl⟩
    · exact Or.inr (Or.inl ⟨_, rfl, rfl⟩)
    · exact Or.inr (Or.inr ⟨rfl, rfl⟩)
    · exact Or.inr (Or.inr ⟨rfl, rfl⟩)

theorem size_after (rs : RetStack) (c : PredCall) : (rs.after c).size = rs.size := by
  obtain ⟨h, -⟩ | ⟨_, h, -⟩ | ⟨h, -⟩ := rs.after_cases 0 c <;> rw [h] <;> rfl

theorem size_foldl_after (rs : RetStack) (cs : List PredCall) :
    (cs.foldl after rs).size = rs.size := by
  induction cs generalizing rs with
  | nil => rfl
  | cons c cs ih => rw [List.foldl_cons, ih, size_after]

theorem Ok.after (hok : rs.Ok) (c : PredCall) : (rs.after c).Ok := by
  have hpos := hok.size_pos
  obtain ⟨h, -⟩ | ⟨_, h, -⟩ | ⟨h, -⟩ := rs.after_cases 0 c
  · rw [h]
    exact ⟨Int.emod_nonneg _ hpos.ne', Int.emod_lt_of_pos _ hpos⟩
  · rw [h]
    exact ⟨Int.emod_nonneg _ hpos.ne', Int.emod_lt_of_pos _ hpos⟩
  · rw [h]
    exact hok

theorem tos_pop (rs : RetStack) : rs.pop.tos ≡ rs.tos - 1 [ZMOD rs.size] := by
  refine (Int.mod_modEq _ _).trans ?_
  rw [add_sub_right_comm]
  exact Int.add_modEq_right

theorem tos_push (rs : RetStack) (target : MdAddr) :
    (rs.push target).tos ≡ rs.tos + 1 [ZMOD rs.size] := Int.mod_modEq _ _

/-- The top moves with the height. -/
theorem tos_after (ht : rs.tos ≡ t + h [ZMOD rs.size]) (c : PredCall) :
    (rs.after c).tos ≡ t + heightAfter h c [ZMOD rs.size] := by
  obtain ⟨hc, hh⟩ | ⟨target, hc, hh⟩ | ⟨hc, hh⟩ := rs.after_cases h c
  · rw [hc, hh, ← add_sub_assoc]
    exact rs.tos_pop.trans (ht.sub_right 1)
  · rw [hc, hh, ← add_assoc]
    exact (rs.tos_push target).trans (ht.add_right 1)
  · rw [hc, hh]
    exact ht

/-- Only a function call writes an entry, the one of the height that it reaches. -/
theorem get_after (hok : rs.Ok) (ht : rs.tos ≡ t + h [ZMOD rs.size]) (hs : 0 ≤ s)
    (hne : h < heightAfter h c → (t + heightAfter h c) % rs.size ≠ s) :
    (rs.after c).stack.get s.toNat = rs.stack.get s.toNat := by
  obtain ⟨hc, hh⟩ | ⟨target, hc, hh⟩ | ⟨hc, hh⟩ := rs.after_cases h c
  · rw [hc]
    rfl
  · rw [hc, push]
    refine Table.get_set_ne rs.stack (fun heq => hne (by omega) ?_) target
    have hslot : (rs.tos + 1) % rs.size = (t + (h + 1)) % rs.size := by
      rw [← add_assoc]
      exact ht.add_right 1
    have := Int.emod_nonneg (rs.tos + 1) hok.size_pos.ne'
    rw [hh, ← hslot]
    omega
  · rw [hc]

/-- A path leaves the entries that no function call on it has reached. -/
theorem get_foldl_after (hok : rs.Ok) (ht : rs.tos ≡ t + h [ZMOD rs.size]) (hs : 0 ≤ s)
    (hne : ∀ j ∈ callHeights h cs, (t + j) % rs.size ≠ s) :
    (cs.foldl after rs).stack.get s.toNat = rs.stack.get s.toNat := by
  induction cs generalizing rs h with
  | nil => rfl
  | cons c cs ih =>
    have hsize := rs.size_after c
    have hget : (rs.after c).stack.get s.toNat = rs.stack.get s.toNat := by
      refine get_after hok ht hs fun hlt => hne _ ?_
      rw [callHeights, if_pos hlt]
      exact List.mem_cons_self
    have htos : (rs.after c).tos ≡ t + heightAfter h c [ZMOD (rs.after c).size] := by
      rw [hsize]
      exact tos_after ht c
    have hrest : ∀ j ∈ callHeights (heightAfter h c) cs, (t + j) % (rs.after c).size ≠ s := by
      intro j hj
      rw [hsize]
      refine hne j ?_
      rw [callHeights]
      split_ifs
      · exact List.mem_cons_of_mem _ hj
      · exact hj
    exact (ih (hok.after c) htos hrest).trans hget

/-! ### Entries -/

theorem entry_pop (rs : RetStack) (k : ℕ) : rs.pop.entry k = rs.entry (k + 1) := by
  have hslot : (rs.pop.tos - k) % rs.size = (rs.tos - (k + 1 : ℕ)) % rs.size := by
    rw [Nat.cast_succ, add_comm, ← sub_sub]
    exact rs.tos_pop.sub_right k
  exact congrArg (fun z : ℤ => rs.stack.get z.toNat) hslot

theorem entry_push_zero (hok : rs.Ok) (target : MdAddr) : (rs.push target).entry 0 = target := by
  have hpos := hok.size_pos
  have hlt := Int.emod_lt_of_pos (rs.tos + 1) hpos
  have hnonneg := Int.emod_nonneg (rs.tos + 1) hpos.ne'
  have hslot : ((rs.push target).tos - (0 : ℕ)) % (rs.push target).size =
      (rs.tos + 1) % rs.size := by
    rw [Nat.cast_zero, sub_zero]
    exact Int.emod_emod_of_dvd _ (dvd_refl _)
  rw [entry, hslot]
  exact Table.get_set_self rs.stack (by omega) target

theorem entry_push_succ (hok : rs.Ok) (target : MdAddr) (hk : k + 1 < rs.size) :
    (rs.push target).entry (k + 1) = rs.entry k := by
  have hpos := hok.size_pos
  have hslot : ((rs.push target).tos - (k + 1 : ℕ)) % (rs.push target).size =
      (rs.tos - k) % rs.size := by
    have hmod := (rs.tos_push target).sub_right (k + 1 : ℕ)
    rw [show rs.tos + 1 - (k + 1 : ℕ) = rs.tos - k by push_cast; ring] at hmod
    exact hmod
  rw [entry, hslot]
  refine Table.get_set_ne rs.stack (fun heq => ?_) target
  have h₁ := Int.emod_nonneg (rs.tos + 1) hpos.ne'
  have h₂ := Int.emod_nonneg (rs.tos - k) hpos.ne'
  have hmod : rs.tos - k ≡ rs.tos + 1 [ZMOD rs.size] := by
    rw [Int.ModEq]
    omega
  have hdvd := hmod.dvd
  rw [show rs.tos + 1 - (rs.tos - k) = ((k + 1 : ℕ) : ℤ) by push_cast; ring] at hdvd
  have := Nat.le_of_dvd (Nat.succ_pos k) (Int.natCast_dvd_natCast.mp hdvd)
  omega

/-- After a wrong path, an entry is there unless a function call on the path has come to its place,
some multiple of the size above it. -/
theorem entry_squashed (hok : rs.Ok) (hne : ∀ j ∈ callHeights 0 cs, ¬(rs.size : ℤ) ∣ j + k) :
    entry { cs.foldl after rs with tos := rs.tos } k = rs.entry k := by
  have hpos := hok.size_pos
  have hget := get_foldl_after (t := rs.tos) (h := 0) (s := (rs.tos - k) % rs.size) hok
    (by rw [add_zero]) (Int.emod_nonneg _ hpos.ne') fun j hj heq => by
      have hmod : rs.tos - k ≡ rs.tos + j [ZMOD rs.size] := heq.symm
      have hdvd := hmod.dvd
      rw [show rs.tos + j - (rs.tos - k) = j + k by ring] at hdvd
      exact hne j hj hdvd
  have hslot : (rs.tos - k) % (cs.foldl after rs).size = (rs.tos - k) % rs.size := by
    rw [size_foldl_after]
  rw [entry, hslot, hget]
  rfl

end RetStack

/-! ### Calls of the predictor -/

section

variable {pred pred' : Predictor} {op : MdOpcode} {c : PredCall}

namespace DirPred

theorem isStateful_write (d : DirPred) (p : CounterPtr) (v : ℕ) :
    (d.write p v).isStateful = d.isStateful := by
  rcases p with ⟨_ | _ | _, i⟩ <;> cases d <;> rfl

theorem isStateful_train (d : DirPred) (p : CounterPtr) (limit : ℕ) (taken : Bool) :
    (d.train p limit taken).isStateful = d.isStateful := by
  rw [train]
  split_ifs <;> first | exact isStateful_write d p _ | rfl

theorem isStateful_updateCounters (d : DirPred) (upd : UpdateRec) (taken : BitVec 32) :
    (d.updateCounters upd taken).isStateful = d.isStateful := by
  have h₁ : ∀ (d : DirPred) (taken : Bool), (d.trainPdir1 upd taken).isStateful = d.isStateful := by
    intro d taken
    rw [trainPdir1]
    split
    · rfl
    · exact isStateful_train d _ _ _
  have h₂ : ∀ (d : DirPred) (taken : Bool), (d.trainPdir2 upd taken).isStateful = d.isStateful := by
    intro d taken
    rw [trainPdir2]
    split
    · rfl
    · exact isStateful_train d _ _ _
  have h₃ : ∀ d : DirPred, (d.trainMeta upd taken).isStateful = d.isStateful := by
    intro d
    rw [trainMeta]
    split
    · rfl
    · split
      · exact isStateful_train d _ _ _
      · rfl
  rw [updateCounters, h₃, h₂, h₁]

theorem isStateful_updateHistories (d : DirPred) (baddr : MdAddr) (taken : Bool) :
    (d.updateHistories baddr taken).isStateful = d.isStateful := by
  cases d <;> rfl

end DirPred

/-- A lookup of a branch by a predictor with tables. -/
theorem bpredLookup_of_stateful (hd : pred.dirpred.isStateful = true) (hop : op.isCtrl = true)
    (baddr btarget : MdAddr) (isCall isReturn : Bool) (upd : UpdateRec) (idx : ℤ) :
    ∃ upd', bpredLookup pred baddr btarget op isCall isReturn upd idx =
      pred.countLookup.lookupTarget baddr op isCall isReturn upd' := by
  rw [bpredLookup, if_neg (by simp [hop])]
  cases hpred : pred.dirpred with
  | taken => simp [hpred, DirPred.isStateful] at hd
  | notTaken => simp [hpred, DirPred.isStateful] at hd
  | comb => exact ⟨_, rfl⟩
  | twoLevel => exact ⟨_, rfl⟩
  | twoBit => exact ⟨_, rfl⟩

/-- An update leaves the stack alone. -/
theorem retstack_bpredUpdate {baddr btarget : MdAddr} {taken predTaken correct : BitVec 32}
    {upd : UpdateRec}
    (h : bpredUpdate pred baddr btarget taken predTaken correct op upd = some pred') :
    pred'.retstack = pred.retstack := by
  rw [bpredUpdate] at h
  dsimp only at h
  split at h
  · obtain rfl := Option.some.inj h
    rfl
  split at h
  · obtain rfl := Option.some.inj h
    rfl
  split at h
  · obtain rfl := Option.some.inj h
    rfl
  · obtain rfl := Option.some.inj h
    rfl
  split at h
  · obtain ⟨⟨btb, pbtb⟩, -, heq⟩ := Option.bind_eq_some_iff.mp h
    obtain rfl := Option.some.inj heq
    rfl
  · obtain rfl := Option.some.inj h
    rfl

theorem isStateful_bpredUpdate {baddr btarget : MdAddr} {taken predTaken correct : BitVec 32}
    {upd : UpdateRec} (hd : pred.dirpred.isStateful = true)
    (h : bpredUpdate pred baddr btarget taken predTaken correct op upd = some pred') :
    pred'.dirpred.isStateful = true := by
  rcases bpredUpdate_dirpred_eq hd h with ⟨-, heq⟩ | heq
  · rw [heq, hd]
  · rw [heq, DirPred.isStateful_updateCounters]
    split
    · rw [DirPred.isStateful_updateHistories, hd]
    · exact hd

theorem retstack_lookupTarget (hsize : pred.retstack.size ≠ 0) (baddr : MdAddr)
    (isCall isReturn : Bool) (upd : UpdateRec) :
    (pred.lookupTarget baddr op isCall isReturn upd).pred.retstack =
      if isReturn then pred.retstack.pop
      else if isCall then pred.retstack.push (baddr + sizeofMdInst) else pred.retstack := by
  rw [Predictor.lookupTarget]
  simp only [hsize, ne_eq, not_false_eq_true, and_true]
  split_ifs <;> rfl

/-- What a call of the predictor does to the stack. -/
theorem retstack_step {o : Option (MdAddr × UpdateRec)} (hd : pred.dirpred.isStateful = true)
    (hok : pred.retstack.Ok) (h : pred.step c = some (o, pred')) :
    pred'.retstack = pred.retstack.after c ∧ pred'.dirpred.isStateful = true := by
  cases c with
  | update baddr btarget taken predTaken correct op upd =>
    obtain ⟨p, hp, heq⟩ := Option.map_eq_some_iff.mp h
    obtain ⟨-, rfl⟩ := Prod.mk.inj heq
    exact ⟨retstack_bpredUpdate hp, isStateful_bpredUpdate hd hp⟩
  | lookup baddr btarget op isCall isReturn upd idx =>
    obtain ⟨-, rfl⟩ := Prod.mk.inj (Option.some.inj h)
    refine ⟨?_, by rw [bpredLookup_dirpred, hd]⟩
    rw [RetStack.after]
    split
    · obtain ⟨upd', heq⟩ := bpredLookup_of_stateful hd ‹_› baddr btarget isCall isReturn upd idx
      have hsize : pred.countLookup.retstack.size ≠ 0 := fun h0 => by
        have := hok.size_pos
        rw [Predictor.countLookup_retstack] at h0
        omega
      rw [heq, retstack_lookupTarget hsize, Predictor.countLookup_retstack]
    · rw [bpredLookup, if_pos ‹_›]

theorem retstack_run {cs : List PredCall} {os : List (Option (MdAddr × UpdateRec))}
    (hd : pred.dirpred.isStateful = true) (hok : pred.retstack.Ok)
    (h : run Predictor.step pred cs = some (os, pred')) :
    pred'.retstack = cs.foldl RetStack.after pred.retstack ∧ pred'.dirpred.isStateful = true := by
  induction cs generalizing pred os with
  | nil =>
    obtain ⟨-, rfl⟩ := Prod.mk.inj (Option.some.inj h)
    exact ⟨rfl, hd⟩
  | cons c cs ih =>
    obtain ⟨o, p, os', hstep, hrun, -⟩ := (run_cons_eq_some Predictor.step).mp h
    obtain ⟨hp, hd'⟩ := retstack_step hd hok hstep
    rw [List.foldl_cons, ← hp]
    exact ih hd' (hp ▸ hok.after c) hrun

end

/-! ### Paths -/

/-- A step of the right path: a call of the predictor, or the lookup of a branch that is
mispredicted, with the calls until it is resolved. -/
inductive PathStep
  | call (c : PredCall)
  | mispredicted (baddr btarget : MdAddr) (op : MdOpcode) (isCall isReturn : Bool)
      (upd : UpdateRec) (idx : ℤ) (isCtrl : op.isCtrl = true) (cs : List PredCall)

/-- A misprediction ends with the recovery from it. -/
def Predictor.pathStep (pred : Predictor) : PathStep → Option Predictor
  | .call c => (pred.step c).map Prod.snd
  | .mispredicted baddr btarget op isCall isReturn upd idx _ cs =>
    let r := bpredLookup pred baddr btarget op isCall isReturn upd idx
    (run Predictor.step r.pred cs).map fun s => bpredRecover s.2 r.stackRecoverIdx

/-- The predictor after a path. -/
def Predictor.path : Predictor → List PathStep → Option Predictor
  | pred, [] => some pred
  | pred, e :: es => (pred.pathStep e).bind fun p => p.path es

/-- The return addresses of the function calls that have not returned. A mispredicted branch is
undone, also if it is a function call or a return. -/
def pendingAfter (l : List MdAddr) : PathStep → List MdAddr
  | .call (.lookup baddr _ op isCall isReturn _ _) =>
    if op.isCtrl then
      if isReturn then l.tail else if isCall then (baddr + sizeofMdInst) :: l else l
    else l
  | _ => l

/-- Which entries are there after a function call: a new one, and those of `d`, one further below
the top, but for the one in whose place the new one is. -/
def keptPush (size : ℕ) (d : ℕ → Bool) : ℕ → Bool
  | 0 => true
  | k + 1 => decide (k + 1 < size) && d k

/-- Which of the pending return addresses are still in a stack of some size, the entry `k` below the
top for each `k`, if those of `d` were before. -/
def keptAfter (size : ℕ) (d : ℕ → Bool) : PathStep → ℕ → Bool
  | .call (.lookup _ _ op isCall isReturn _ _) =>
    if op.isCtrl then
      if isReturn then fun k => d (k + 1) else if isCall then keptPush size d else d
    else d
  | .call (.update ..) => d
  | .mispredicted baddr btarget op isCall isReturn upd idx _ cs => fun k =>
    d k && decide (∀ j ∈ callHeights 0 (.lookup baddr btarget op isCall isReturn upd idx :: cs),
      ¬(size : ℤ) ∣ j + k)

/-- The pending return addresses of a path. -/
def pending (es : List PathStep) : List MdAddr := es.foldl pendingAfter []

/-- Which of the pending return addresses of a path are in the stack. -/
def kept (size : ℕ) (es : List PathStep) : ℕ → Bool := es.foldl (keptAfter size) fun _ => false

/-- The entries that are kept are those of the list. -/
def RetStack.Holds (rs : RetStack) (l : List MdAddr) (d : ℕ → Bool) : Prop :=
  ∀ k, d k = true → ∀ a, l[k]? = some a → rs.entry k = a

section

variable {pred pred' : Predictor} {l : List MdAddr} {d : ℕ → Bool} {e : PathStep}
  {es : List PathStep}

theorem RetStack.Holds.pop {rs : RetStack} (h : rs.Holds l d) :
    rs.pop.Holds l.tail fun k => d (k + 1) := by
  intro k hk a ha
  rw [rs.entry_pop]
  refine h (k + 1) hk a ?_
  rwa [List.getElem?_tail] at ha

theorem RetStack.Holds.push {rs : RetStack} (h : rs.Holds l d) (hok : rs.Ok) (target : MdAddr) :
    (rs.push target).Holds (target :: l) (keptPush rs.size d) := by
  intro k hk a ha
  cases k with
  | zero =>
    rw [RetStack.entry_push_zero hok]
    exact Option.some.inj ha
  | succ k =>
    rw [keptPush, Bool.and_eq_true, decide_eq_true_eq] at hk
    rw [RetStack.entry_push_succ hok target hk.1]
    exact h k hk.2 a ha

/-- A step of the path keeps what `kept` says. -/
theorem holds_pathStep (hd : pred.dirpred.isStateful = true) (hok : pred.retstack.Ok)
    (hl : pred.retstack.Holds l d) (h : pred.pathStep e = some pred') :
    (pred'.retstack.Holds (pendingAfter l e) (keptAfter pred.retstack.size d e) ∧
      pred'.retstack.Ok ∧ pred'.retstack.size = pred.retstack.size) ∧
      pred'.dirpred.isStateful = true := by
  cases e with
  | call c =>
    obtain ⟨⟨o, p⟩, hstep, rfl⟩ := Option.map_eq_some_iff.mp h
    obtain ⟨hp, hd'⟩ := retstack_step hd hok hstep
    refine ⟨?_, hd'⟩
    rw [hp]
    refine ⟨?_, hok.after c, pred.retstack.size_after c⟩
    cases c with
    | update => exact hl
    | lookup baddr btarget op isCall isReturn upd idx =>
      rw [RetStack.after, pendingAfter, keptAfter]
      split_ifs
      · exact hl.pop
      · exact hl.push hok _
      · exact hl
      · exact hl
  | mispredicted baddr btarget op isCall isReturn upd idx isCtrl cs =>
    obtain ⟨⟨os, p⟩, hrun, rfl⟩ := Option.map_eq_some_iff.mp h
    obtain ⟨upd', hlookup⟩ :=
      bpredLookup_of_stateful hd isCtrl baddr btarget isCall isReturn upd idx
    have hsize : pred.retstack.size ≠ 0 := by
      have := hok.size_pos
      omega
    -- The recovery index is the top of the stack before the branch.
    have hidx : (bpredLookup pred baddr btarget op isCall isReturn upd idx).stackRecoverIdx =
        pred.retstack.tos := by
      rw [hlookup, Predictor.lookupTarget]
      split_ifs <;> simp_all
    have hcall := retstack_step (o := some (_, _)) hd hok
      (show pred.step (.lookup baddr btarget op isCall isReturn upd idx) = some (_, _) from rfl)
    obtain ⟨hp, hd'⟩ := retstack_run hcall.2 (hcall.1 ▸ hok.after _) hrun
    rw [hcall.1, ← List.foldl_cons] at hp
    refine ⟨?_, hd'⟩
    have hret : (bpredRecover p (bpredLookup pred baddr btarget op isCall isReturn upd
        idx).stackRecoverIdx).retstack =
          { List.foldl RetStack.after pred.retstack
              (.lookup baddr btarget op isCall isReturn upd idx :: cs) with
            tos := pred.retstack.tos } := by
      rw [hidx, ← hp]
      rfl
    have hsize' := RetStack.size_foldl_after pred.retstack
      (.lookup baddr btarget op isCall isReturn upd idx :: cs)
    rw [hret]
    refine ⟨fun k hk a ha => ?_, ⟨hok.tos_nonneg, ?_⟩, hsize'⟩
    · rw [keptAfter, Bool.and_eq_true, decide_eq_true_eq] at hk
      rw [RetStack.entry_squashed hok hk.2]
      exact hl k hk.1 a ha
    · rw [hsize']
      exact hok.tos_lt

/-- After a path the entries are the pending return addresses, as far as they are kept. -/
theorem holds_path (hd : pred.dirpred.isStateful = true) (hok : pred.retstack.Ok)
    (hl : pred.retstack.Holds l d) (h : pred.path es = some pred') :
    pred'.retstack.Holds (es.foldl pendingAfter l) (es.foldl (keptAfter pred.retstack.size) d) ∧
      pred'.retstack.Ok ∧ pred'.dirpred.isStateful = true := by
  induction es generalizing pred l d with
  | nil =>
    obtain rfl := Option.some.inj h
    exact ⟨hl, hok, hd⟩
  | cons e es ih =>
    obtain ⟨p, hstep, hpath⟩ := Option.bind_eq_some_iff.mp h
    obtain ⟨⟨hl', hok', hsize⟩, hd'⟩ := holds_pathStep hd hok hl hstep
    rw [List.foldl_cons, List.foldl_cons, ← hsize]
    rw [← hsize] at hl'
    exact ih hd' hok' hl' hpath

/-- **Returns are predicted.** After any path, with any branches mispredicted on it, a return is
predicted to go to the address after the last function call that has not returned, if its entry is
kept. -/
theorem return_predicted (hd : pred.dirpred.isStateful = true) (hok : pred.retstack.Ok)
    (h : pred.path es = some pred') (hkept : kept pred.retstack.size es 0 = true) {a : MdAddr}
    (ha : (pending es).head? = some a) {op : MdOpcode} (hop : op.isCtrl = true)
    (baddr btarget : MdAddr) (isCall : Bool) (upd : UpdateRec) (idx : ℤ) :
    (bpredLookup pred' baddr btarget op isCall true upd idx).target = a := by
  obtain ⟨hl, hok', hd'⟩ := holds_path (l := []) (d := fun _ => false) hd hok
    (fun _ hk => absurd hk Bool.false_ne_true) h
  obtain ⟨upd', heq⟩ := bpredLookup_of_stateful hd' hop baddr btarget isCall true upd idx
  have hsize : pred'.countLookup.retstack.size ≠ 0 := fun h0 => by
    have := hok'.size_pos
    rw [Predictor.countLookup_retstack] at h0
    omega
  have htop := hl 0 hkept a (by rwa [← List.head?_eq_getElem?])
  rw [heq, Predictor.lookupTarget, if_pos ⟨rfl, hsize⟩, ← htop, RetStack.entry, Nat.cast_zero,
    sub_zero, Int.emod_eq_of_lt hok'.tos_nonneg hok'.tos_lt]
  rfl

/-- A bimodal predictor with a stack of four return addresses. -/
def smallPred : Predictor := (bpredCreateBimod 1 1 1 4).get rfl

/-- Two nested function calls, a mispredicted branch with a return and a call on the wrong path, and
the return from the inner function. -/
def squashedSteps : List PathStep :=
  [.call (.lookup 0x100 0 .bsr true false {} 0), .call (.lookup 0x200 0 .bsr true false {} 0),
    .mispredicted 0x300 0 .beq false false {} 0 rfl
      [.lookup 0x400 0 .retn false true {} 0, .lookup 0x500 0 .bsr true false {} 0],
    .call (.lookup 0x304 0 .retn false true {} 0)]

/-- The call on the wrong path overwrites the entry of the inner function, and not that of the outer
one, which is at the top after the return. -/
theorem return_predicted_squashedSteps :
    kept 4 (squashedSteps.take 3) 0 = false ∧
    ∃ pred', smallPred.path squashedSteps = some pred' ∧
      (bpredLookup pred' 0x108 0 .retn false true {} 0).target = 0x104 := by
  obtain ⟨pred', h⟩ := Option.isSome_iff_exists.mp
    (show (smallPred.path squashedSteps).isSome = true from rfl)
  exact ⟨by decide, pred', h,
    return_predicted rfl ⟨by decide, by decide⟩ h (by decide) rfl rfl _ _ _ _ _⟩

end

end AdvancedArchitecture.Bpred
