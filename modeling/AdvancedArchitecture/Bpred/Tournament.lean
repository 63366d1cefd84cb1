import AdvancedArchitecture.Bpred.History

/-!
# The tournament predictor

Three automata that know nothing of pointers: a PAg of local histories, a GAg of one global
history, and the chooser between them. A combined predictor whose branches are each looked up
and updated before the next one predicts what the three automata predict
(`tournament_refines`): the update finds the chooser as the lookup left it, so that the pointers
it trains have the widths that they had at the lookup.
-/

namespace AdvancedArchitecture.Bpred

/-! ### The automata -/

/-- A PAg: local histories of ten bits, which select counters of three bits. -/
structure Pag where
  histories : ℕ → ℕ
  counters : ℕ → ℕ

/-- A GAg: a global history of twelve bits, which selects counters of two bits. -/
structure Gag where
  history : ℕ
  counters : ℕ → ℕ

/-- A chooser: counters of three bits, selected by a hash of the address. -/
structure Chooser where
  counters : ℕ → ℕ

namespace Pag

variable (p : Pag) (pc : ℕ) (taken : Bool)

/-- The local history of a branch. -/
def history : ℕ := p.histories (pc / 4 % 1024)

def predict : Bool := 4 ≤ p.counters (p.history pc)

def update : Pag where
  histories := Function.update p.histories (pc / 4 % 1024) (shiftIn 10 (p.history pc) taken)
  counters := Function.update p.counters (p.history pc)
    (nextCounter 7 taken (p.counters (p.history pc)))

end Pag

namespace Gag

variable (g : Gag) (taken : Bool)

def predict : Bool := 2 ≤ g.counters g.history

def update : Gag where
  history := shiftIn 12 g.history taken
  counters := Function.update g.counters g.history
    (nextCounter 3 taken (g.counters g.history))

end Gag

namespace Chooser

variable (c : Chooser) (pc : ℕ) (pag gag taken : Bool)

/-- `BIMOD_HASH`, for 4096 counters. -/
def index (pc : ℕ) : ℕ := (pc / 2 ^ 19 ^^^ pc / 4) % 4096

/-- Whether the PAg is chosen. -/
def predict : Bool := 4 ≤ c.counters (index pc)

/-- A step towards the component that was right, if they disagreed. -/
def update : Chooser where
  counters :=
    if pag = gag then c.counters
    else Function.update c.counters (index pc) (nextCounter 7 (pag = taken) (c.counters (index pc)))

end Chooser

/-- The three automata side by side. -/
structure Tournament where
  pag : Pag
  gag : Gag
  chooser : Chooser

/-- The directions that a lookup records. -/
structure Directions where
  twolev : Bool
  bimod : Bool
  chooser : Bool
  deriving DecidableEq, Repr

namespace Tournament

def predict (t : Tournament) (pc : ℕ) : Directions :=
  ⟨t.pag.predict pc, t.gag.predict, t.chooser.predict pc⟩

def update (t : Tournament) (pc : ℕ) (taken : Bool) : Tournament where
  pag := t.pag.update pc taken
  gag := t.gag.update taken
  chooser := t.chooser.update pc (t.pag.predict pc) t.gag.predict taken

end Tournament

/-! ### Branches in sequence -/

/-- A branch, as a simulator meets it: it is looked up with a record of any contents, and then
updated. -/
structure Branch where
  baddr : MdAddr
  op : MdOpcode
  target : MdAddr
  npc : MdAddr
  taken : BitVec 32
  predTaken : BitVec 32
  correct : BitVec 32
  upd : UpdateRec
  stackRecoverIdx : ℤ
  deriving DecidableEq, Repr

/-- The directions that a record holds. -/
def UpdateRec.directions (upd : UpdateRec) : Directions :=
  ⟨upd.dirTwolev, upd.dirBimod, upd.dirMeta⟩

/-- The lookup of a branch. -/
def Predictor.lookupBranch (pred : Predictor) (b : Branch) : LookupResult :=
  bpredLookup pred b.baddr b.target b.op b.op.isCall b.op.isReturn b.upd b.stackRecoverIdx

/-- The lookup of a branch and its update, and the directions recorded of a conditional one. -/
def Predictor.branch (pred : Predictor) (b : Branch) :
    Option (Option Directions × Predictor) :=
  let r := pred.lookupBranch b
  (bpredUpdate r.pred b.baddr b.npc b.taken b.predTaken b.correct b.op r.dirUpdate).map
    fun pred => (if b.op.isCond then some r.dirUpdate.directions else none, pred)

/-- What the automata predict of a branch, and how they go on: only conditional branches concern
them. -/
def Tournament.branch (t : Tournament) (b : Branch) : Option (Option Directions × Tournament) :=
  if b.op.isCond then some (some (t.predict b.baddr.toNat), t.update b.baddr.toNat (b.taken ≠ 0))
  else some (none, t)

/-- The automata that start from the tables of a combined predictor. -/
def Tournament.ofTables (bimod twolev : TwoLevel) (chooser : Bimod) : Tournament where
  pag := ⟨fun e => (twolev.shiftregs.get e).toNat, twolev.l2table.get⟩
  gag := ⟨(bimod.shiftregs.get 0).toNat, bimod.l2table.get⟩
  chooser := ⟨chooser.table.get⟩

/-! ### The relation -/

/-- A two-level predictor of the given sizes, whose histories are in range. -/
structure TwoLevel.Sized (two : TwoLevel) (l1size l2size w : ℕ) : Prop where
  l1size : two.l1size = l1size
  l2size : two.l2size = l2size
  shiftWidth : two.shiftWidth = w
  xor : two.xor = false
  history_lt : ∀ e, (two.shiftregs.get e).toNat < 2 ^ w

/-- The tables of a combined predictor hold the state of the automata. -/
structure Models (d : DirPred) (t : Tournament) : Prop where
  pag : ∃ two, d.component .twolev = some two ∧ two.Sized 1024 1024 10 ∧
    ∀ e, (two.shiftregs.get e).toNat = t.pag.histories e
  gag : ∃ two, d.component .bimod = some two ∧ two.Sized 1 4096 12 ∧
    (two.shiftregs.get 0).toNat = t.gag.history
  chooser : d.tableSize .chooser = 4096
  read_pag : ∀ i, d.read ⟨.twolev, i⟩ = t.pag.counters i
  read_gag : ∀ i, d.read ⟨.bimod, i⟩ = t.gag.counters i
  read_chooser : ∀ i, d.read ⟨.chooser, i⟩ = t.chooser.counters i
  inRange : d.InRange

namespace TwoLevel.Sized

variable {two two' : TwoLevel} {l1size l2size w : ℕ}

theorem l1index_eq (h : two.Sized l1size l2size w) (hl : l1size < 2 ^ 31) (baddr : MdAddr) :
    two.l1index baddr = baddr.toNat / 4 % l1size := by
  rw [TwoLevel.l1index_eq (by rw [h.l1size]; omega), h.l1size]

/-- With as many counters as histories, the history alone selects the counter. -/
theorem l2index_eq (h : two.Sized l1size l2size w) (hl2 : l2size = 2 ^ w) (hl : l1size < 2 ^ 31)
    (baddr : MdAddr) :
    two.l2index baddr = (two.shiftregs.get (baddr.toNat / 4 % l1size)).toNat := by
  have hw : two.l2size < 2 ^ 31 := by
    have hle : 2 ^ w ≤ 2 ^ 30 :=
      Nat.pow_le_pow_right (by decide) (h.shiftWidth ▸ two.width_ok.2)
    rw [h.l2size, hl2]
    omega
  have hlt := h.history_lt (two.l1index baddr)
  rw [TwoLevel.l2index_eq h.xor hw baddr (by rw [h.shiftWidth]; exact hlt), h.l2size, h.shiftWidth,
    hl2, Nat.add_mul_mod_self_left, Nat.mod_eq_of_lt hlt, h.l1index_eq hl]

/-- A step of the histories. -/
theorem updateHistory (h : two.Sized l1size l2size w) (hl : l1size < 2 ^ 31) {baddr : MdAddr}
    {taken : Bool} (hs : (two.updateHistory baddr taken).SameHistory two') :
    two'.Sized l1size l2size w ∧ ∀ e, (two'.shiftregs.get e).toNat =
      if e = baddr.toNat / 4 % l1size then shiftIn w (two.shiftregs.get e).toNat taken
      else (two.shiftregs.get e).toNat := by
  have hnext : ∀ e, (two'.shiftregs.get e).toNat =
      if e = baddr.toNat / 4 % l1size then shiftIn w (two.shiftregs.get e).toNat taken
      else (two.shiftregs.get e).toNat := by
    intro e
    rw [hs.shiftregs, toNat_updateHistory (by rw [h.shiftWidth]; exact h.history_lt),
      h.l1index_eq hl, h.shiftWidth]
  refine ⟨⟨hs.l1size.trans h.l1size, hs.l2size.trans h.l2size, hs.shiftWidth.trans h.shiftWidth,
    hs.xor.trans h.xor, fun e => ?_⟩, hnext⟩
  rw [hnext]
  split_ifs
  · exact shiftIn_lt _ _ _
  · exact h.history_lt e

end TwoLevel.Sized

/-- A saturating step is one of a counter in range. -/
theorem saturate_eq_nextCounter {limit c : ℕ} (hc : c ≤ limit) (taken : Bool) :
    saturate limit taken c = nextCounter limit taken c := by
  rw [saturate, nextCounter]
  split_ifs <;> omega

theorem nextCounter_le {limit c : ℕ} (hc : c ≤ limit) (taken : Bool) :
    nextCounter limit taken c ≤ limit := by
  rw [← saturate_eq_nextCounter hc]
  exact saturate_le le_rfl hc

/-- The directions that the lookup of a conditional branch records. -/
theorem directions_bpredLookup {pred : Predictor} {bimod twolev : TwoLevel} {chooser : Bimod}
    (hd : pred.dirpred = .comb bimod twolev chooser) {op : MdOpcode} (hop : op.isCond = true)
    (baddr btarget : MdAddr) (isCall isReturn : Bool) (upd : UpdateRec) (idx : ℤ) :
    (bpredLookup pred baddr btarget op isCall isReturn upd idx).dirUpdate.directions =
      ⟨4 ≤ pred.dirpred.read ⟨.twolev, twolev.l2index baddr⟩,
        2 ≤ pred.dirpred.read ⟨.bimod, bimod.l2index baddr⟩,
        4 ≤ pred.dirpred.read ⟨.chooser, chooser.hash baddr⟩⟩ := by
  rw [bpredLookup_comb hd hop]
  obtain ⟨ras, hras⟩ := lookupTarget_dirUpdate pred.countLookup baddr op isCall isReturn
    (pred.dirpred.lookup baddr upd.clear)
  rw [hras, hd, DirPred.lookup]
  dsimp only
  split_ifs <;> rfl

/-- A lookup reads the tables only. -/
theorem lookupBranch_dirpred (pred : Predictor) (b : Branch) :
    (pred.lookupBranch b).pred.dirpred = pred.dirpred :=
  bpredLookup_dirpred _ _ _ _ _ _ _ _

namespace Models

variable {d : DirPred} {t : Tournament} {pred pred' : Predictor} {b : Branch}

theorem exists_comb (h : Models d t) : ∃ bimod twolev chooser, d = .comb bimod twolev chooser := by
  obtain ⟨two, hc, -⟩ := h.gag
  cases d with
  | comb bimod twolev chooser => exact ⟨bimod, twolev, chooser, rfl⟩
  | _ => exact absurd hc (Option.some_ne_none _).symm

/-- **The indices** of the counters of a branch are those that the automata use. -/
theorem indices (h : Models d t) {bimod twolev : TwoLevel} {chooser : Bimod}
    (hd : d = .comb bimod twolev chooser) (baddr : MdAddr) :
    twolev.l2index baddr = t.pag.history baddr.toNat ∧ bimod.l2index baddr = t.gag.history ∧
      chooser.hash baddr = Chooser.index baddr.toNat := by
  subst hd
  obtain ⟨pag, hpag, hp, hhist⟩ := h.pag
  obtain ⟨gag, hgag, hg, hglobal⟩ := h.gag
  obtain rfl := Option.some.inj hpag
  obtain rfl := Option.some.inj hgag
  have hsize : chooser.size = 4096 := h.chooser
  refine ⟨?_, ?_, ?_⟩
  · rw [hp.l2index_eq rfl (by decide), hhist, Pag.history]
  · rw [hg.l2index_eq rfl (by decide), Nat.mod_one, hglobal]
  · rw [Bimod.hash, chooser.size_ok.toNat_and (by rw [hsize]; decide), hsize, Chooser.index,
      BitVec.toNat_xor, BitVec.toNat_ushiftRight, BitVec.toNat_ushiftRight,
      Nat.shiftRight_eq_div_pow, Nat.shiftRight_eq_div_pow, mdBrShift]

/-- **The lookup of a conditional branch** records what the automata predict, and the counters
that they use. -/
theorem lookup (h : Models pred.dirpred t) (hop : b.op.isCond = true) :
    (pred.lookupBranch b).dirUpdate.directions = t.predict b.baddr.toNat ∧
      CombRec pred.dirpred (pred.lookupBranch b).dirUpdate (t.pag.history b.baddr.toNat)
        t.gag.history (Chooser.index b.baddr.toNat) := by
  obtain ⟨bimod, twolev, chooser, hd⟩ := h.exists_comb
  obtain ⟨hp, hg, hc⟩ := h.indices hd b.baddr
  refine ⟨?_, ?_⟩
  · rw [Predictor.lookupBranch, directions_bpredLookup hd hop, hp, hg, hc, h.read_pag,
      h.read_gag, h.read_chooser]
    rfl
  · rw [← hp, ← hg, ← hc]
    exact combRec_lookup hd hop _ _ _ _ _ _

/-- **The tables after a conditional branch.** -/
theorem dirpred_update (h : Models pred.dirpred t) (hop : b.op.isCond = true)
    (hu : bpredUpdate (pred.lookupBranch b).pred b.baddr b.npc b.taken b.predTaken b.correct b.op
      (pred.lookupBranch b).dirUpdate = some pred') :
    pred'.dirpred = (pred.dirpred.updateHistories b.baddr (b.taken ≠ 0)).updateCounters
      (pred.lookupBranch b).dirUpdate b.taken := by
  obtain ⟨bimod, twolev, chooser, hd⟩ := h.exists_comb
  rw [bpredUpdate_dirpred ((lookupBranch_dirpred pred b).trans hd) hop hu, lookupBranch_dirpred]

/-- **The counters after a conditional branch.** The chooser is as the lookup left it, so each
counter takes the step of its own automaton. -/
theorem read_update (h : Models pred.dirpred t) (hop : b.op.isCond = true)
    (ht : b.taken = 0 ∨ b.taken = 1)
    (hu : bpredUpdate (pred.lookupBranch b).pred b.baddr b.npc b.taken b.predTaken b.correct b.op
      (pred.lookupBranch b).dirUpdate = some pred') (q : CounterPtr) :
    pred'.dirpred.read q =
      if q = ⟨.twolev, t.pag.history b.baddr.toNat⟩ then
        nextCounter 7 (b.taken ≠ 0) (t.pag.counters (t.pag.history b.baddr.toNat))
      else if q = ⟨.bimod, t.gag.history⟩ then
        nextCounter 3 (b.taken ≠ 0) (t.gag.counters t.gag.history)
      else if q = ⟨.chooser, Chooser.index b.baddr.toNat⟩ ∧
          t.gag.predict ≠ t.pag.predict b.baddr.toNat then
        nextCounter 7 (t.pag.predict b.baddr.toNat = decide (b.taken ≠ 0))
          (t.chooser.counters (Chooser.index b.baddr.toNat))
      else pred.dirpred.read q := by
  obtain ⟨hdir, hrec⟩ := h.lookup hop
  have hread := (hrec.of_tableSize (pred.dirpred.updateHistories b.baddr (b.taken ≠ 0))
    fun t => by simp).read_updateCounters b.taken q
  simp only [DirPred.read_updateHistories, ← h.dirpred_update hop hu] at hread
  -- the record holds the predictions of the automata
  simp only [UpdateRec.directions, Tournament.predict, Directions.mk.injEq] at hdir
  obtain ⟨hpag, hgag, hch⟩ := hdir
  have hkept : 4 ≤ pred.dirpred.read ⟨.chooser, Chooser.index b.baddr.toNat⟩ ↔
      (pred.lookupBranch b).dirUpdate.dirMeta = true := by
    rw [hch, h.read_chooser, Chooser.predict, decide_eq_true_iff]
  have hright : decide ((if t.pag.predict b.baddr.toNat = true then 1 else 0) = b.taken) =
      decide (t.pag.predict b.baddr.toNat = decide (b.taken ≠ 0)) := by
    rcases ht with ht | ht <;> rw [ht] <;> cases t.pag.predict b.baddr.toNat <;> rfl
  simp only [hkept, if_true, hpag, hgag, hright, saturate_eq_nextCounter (h.inRange.twolev _),
    saturate_eq_nextCounter (h.inRange.bimod _),
    saturate_eq_nextCounter (h.inRange.chooser _)] at hread
  simpa only [h.read_pag, h.read_gag, h.read_chooser] using hread

/-- They are those of the automata after a step. -/
theorem counters_update (h : Models pred.dirpred t) (hop : b.op.isCond = true)
    (ht : b.taken = 0 ∨ b.taken = 1)
    (hu : bpredUpdate (pred.lookupBranch b).pred b.baddr b.npc b.taken b.predTaken b.correct b.op
      (pred.lookupBranch b).dirUpdate = some pred') (i : ℕ) :
    pred'.dirpred.read ⟨.twolev, i⟩ =
        (t.update b.baddr.toNat (b.taken ≠ 0)).pag.counters i ∧
      pred'.dirpred.read ⟨.bimod, i⟩ =
        (t.update b.baddr.toNat (b.taken ≠ 0)).gag.counters i ∧
      pred'.dirpred.read ⟨.chooser, i⟩ =
        (t.update b.baddr.toNat (b.taken ≠ 0)).chooser.counters i := by
  refine ⟨?_, ?_, ?_⟩
  · rw [h.read_update hop ht hu, h.read_pag]
    simp only [CounterPtr.mk.injEq, true_and, reduceCtorEq, false_and, if_false]
    exact (Function.update_apply _ _ _ _).symm
  · rw [h.read_update hop ht hu, h.read_gag]
    simp only [CounterPtr.mk.injEq, true_and, reduceCtorEq, false_and, if_false]
    exact (Function.update_apply _ _ _ _).symm
  · rw [h.read_update hop ht hu, h.read_chooser, Tournament.update, Chooser.update]
    simp only [CounterPtr.mk.injEq, true_and, reduceCtorEq, false_and, if_false]
    by_cases hagree : t.pag.predict b.baddr.toNat = t.gag.predict
    · rw [if_neg (fun hn => hn.2 hagree.symm), if_pos hagree]
    · rw [if_neg hagree, Function.update_apply]
      simp only [and_iff_left (Ne.symm hagree)]

/-- They stay in range. -/
theorem inRange_update (h : Models pred.dirpred t) (hop : b.op.isCond = true)
    (ht : b.taken = 0 ∨ b.taken = 1)
    (hu : bpredUpdate (pred.lookupBranch b).pred b.baddr b.npc b.taken b.predTaken b.correct b.op
      (pred.lookupBranch b).dirUpdate = some pred') : pred'.dirpred.InRange where
  bimod i := by
    have hle := h.inRange.bimod t.gag.history
    rw [h.read_gag] at hle
    rw [h.read_update hop ht hu]
    simp only [CounterPtr.mk.injEq, true_and, reduceCtorEq, false_and, if_false]
    split_ifs
    · exact nextCounter_le hle _
    · exact h.inRange.bimod i
  twolev i := by
    have hle := h.inRange.twolev (t.pag.history b.baddr.toNat)
    rw [h.read_pag] at hle
    rw [h.read_update hop ht hu]
    simp only [CounterPtr.mk.injEq, true_and, reduceCtorEq, false_and, if_false]
    split_ifs
    · exact nextCounter_le hle _
    · exact h.inRange.twolev i
  chooser i := by
    have hle := h.inRange.chooser (Chooser.index b.baddr.toNat)
    rw [h.read_chooser] at hle
    rw [h.read_update hop ht hu]
    simp only [CounterPtr.mk.injEq, true_and, reduceCtorEq, false_and, if_false]
    split_ifs
    · exact nextCounter_le hle _
    · exact h.inRange.chooser i

/-- **A conditional branch** takes the automata one step. -/
theorem update (h : Models pred.dirpred t) (hop : b.op.isCond = true)
    (ht : b.taken = 0 ∨ b.taken = 1)
    (hu : bpredUpdate (pred.lookupBranch b).pred b.baddr b.npc b.taken b.predTaken b.correct b.op
      (pred.lookupBranch b).dirUpdate = some pred') :
    Models pred'.dirpred (t.update b.baddr.toNat (b.taken ≠ 0)) := by
  obtain ⟨pag, hpc, hps, hpag⟩ := h.pag
  obtain ⟨gag, hgc, hgs, hgag⟩ := h.gag
  rw [← lookupBranch_dirpred] at hpc hgc
  obtain ⟨pag', hpc', hph⟩ := component_bpredUpdate hu hpc
  obtain ⟨gag', hgc', hgh⟩ := component_bpredUpdate hu hgc
  rw [if_pos hop] at hph hgh
  obtain ⟨hps', hpnext⟩ := hps.updateHistory (by decide) hph
  obtain ⟨hgs', hgnext⟩ := hgs.updateHistory (by decide) hgh
  refine ⟨⟨pag', hpc', hps', fun e => ?_⟩, ⟨gag', hgc', hgs', ?_⟩, ?_,
    fun i => (h.counters_update hop ht hu i).1, fun i => (h.counters_update hop ht hu i).2.1,
    fun i => (h.counters_update hop ht hu i).2.2, h.inRange_update hop ht hu⟩
  · rw [hpnext, Tournament.update, Pag.update]
    dsimp only
    by_cases he : e = b.baddr.toNat / 4 % 1024
    · rw [if_pos he, he, Function.update_self, hpag, Pag.history]
    · rw [if_neg he, Function.update_of_ne he, hpag]
  · rw [hgnext, if_pos (Nat.mod_one _).symm, hgag]
    rfl
  · rw [h.dirpred_update hop hu, DirPred.tableSize_updateCounters,
      DirPred.tableSize_updateHistories]
    exact h.chooser

/-- **Any other instruction** changes nothing: a jump records no counters. -/
theorem skip (h : Models pred.dirpred t) (hop : b.op.isCond = false)
    (hu : bpredUpdate (pred.lookupBranch b).pred b.baddr b.npc b.taken b.predTaken b.correct b.op
      (pred.lookupBranch b).dirUpdate = some pred') : pred'.dirpred = pred.dirpred := by
  have hsame := lookupBranch_dirpred pred b
  obtain ⟨bimod, twolev, chooser, hd⟩ := h.exists_comb
  by_cases hctrl : ¬ b.op.isCtrl = true
  · rw [bpredUpdate, if_pos hctrl] at hu
    rw [← Option.some.inj hu, hsame]
  · have hrec : (pred.lookupBranch b).dirUpdate.pdir1 = none ∧
        (pred.lookupBranch b).dirUpdate.pdir2 = none ∧
        (pred.lookupBranch b).dirUpdate.pmeta = none := by
      have huncond : b.op.isUncond = true :=
        (MdOpcode.not_isCtrl_or_isUncond hop).resolve_left fun h => hctrl (by simp [h])
      rw [Predictor.lookupBranch, bpredLookup, if_neg hctrl, hd]
      dsimp only
      rw [if_neg (by simp [huncond])]
      obtain ⟨ras, hras⟩ := lookupTarget_dirUpdate pred.countLookup b.baddr b.op b.op.isCall
        b.op.isReturn b.upd.clear
      rw [hras]
      exact ⟨rfl, rfl, rfl⟩
    have hstateful : (pred.lookupBranch b).pred.dirpred.isStateful = true := by
      rw [hsame, hd]
      rfl
    rcases bpredUpdate_dirpred_eq hstateful hu with ⟨-, hd'⟩ | hd'
    · rw [hd', hsame]
    · rw [hd', if_neg (by simp [hop]), DirPred.updateCounters, DirPred.trainMeta,
        DirPred.trainPdir2, DirPred.trainPdir1, hrec.1, hrec.2.1, hrec.2.2, hsame]

end Models

/-! ### Runs -/

/-- **A branch** takes the automata one step, and records what they predict. -/
theorem Models.branch {pred pred' : Predictor} {t : Tournament} {b : Branch}
    (h : Models pred.dirpred t) (ht : b.taken = 0 ∨ b.taken = 1) {out : Option Directions}
    (hs : pred.branch b = some (out, pred')) :
    ∃ t', t.branch b = some (out, t') ∧ Models pred'.dirpred t' := by
  obtain ⟨pred₁, hu, heq⟩ := Option.map_eq_some_iff.mp hs
  obtain ⟨rfl, rfl⟩ := Prod.mk.inj heq
  rw [Tournament.branch]
  by_cases hop : b.op.isCond = true
  · rw [if_pos hop, if_pos hop, (h.lookup hop).1]
    exact ⟨_, rfl, h.update hop ht hu⟩
  · rw [if_neg hop, if_neg hop]
    refine ⟨t, rfl, ?_⟩
    rw [h.skip (Bool.eq_false_of_not_eq_true hop) hu]
    exact h

theorem sized_of_create {l1size l2size w : ℕ} {two : TwoLevel}
    (h : bpredDirCreateTwoLevel l1size l2size w false = some two) :
    two.Sized l1size l2size w := by
  have hzero := bpredDirCreateTwoLevel_shiftregs h
  rw [bpredDirCreateTwoLevel] at h
  split_ifs at h
  obtain rfl := Option.some.inj h
  refine ⟨rfl, rfl, rfl, rfl, fun e => ?_⟩
  rw [hzero e]
  exact Nat.two_pow_pos w

/-- The automata that start from the tables of a new predictor. -/
theorem models_of_create {btbSets btbAssoc retstackSize : ℕ} {pred : Predictor}
    (h : bpredCreateComb btbSets btbAssoc retstackSize = some pred) {bimod twolev : TwoLevel}
    {chooser : Bimod} (hd : pred.dirpred = .comb bimod twolev chooser) :
    Models pred.dirpred (Tournament.ofTables bimod twolev chooser) := by
  have hrange := inRange_of_create h
  simp only [bpredCreateComb, Option.bind_eq_bind, Option.bind_eq_some_iff] at h
  obtain ⟨twolev', ht, bimod', hb, chooser', hc, btb, -, retstack, -, h⟩ := h
  obtain rfl := Option.some.inj h
  obtain ⟨rfl, rfl, rfl⟩ := DirPred.comb.inj hd
  have hsize : chooser'.size = 4096 := by
    rw [bpredDirCreateBimod] at hc
    split_ifs at hc
    obtain rfl := Option.some.inj hc
    rfl
  exact ⟨⟨twolev', rfl, sized_of_create ht, fun _ => rfl⟩, ⟨bimod', rfl, sized_of_create hb, rfl⟩,
    hsize, fun _ => rfl, fun _ => rfl, fun _ => rfl, hrange⟩

/-- **The tournament predictor.** On any branches that are each looked up and updated before the
next, a new combined predictor records for the conditional ones what the three automata predict
that start from its tables, and the automata make the same predictions of the next one. -/
theorem tournament_refines {btbSets btbAssoc retstackSize : ℕ} {pred₀ pred : Predictor}
    (hc : bpredCreateComb btbSets btbAssoc retstackSize = some pred₀) {bimod twolev : TwoLevel}
    {chooser : Bimod} (hd : pred₀.dirpred = .comb bimod twolev chooser) {branches : List Branch}
    (ht : ∀ b ∈ branches, b.taken = 0 ∨ b.taken = 1) {outs : List (Option Directions)}
    (hr : run Predictor.branch pred₀ branches = some (outs, pred)) :
    ∃ t, run Tournament.branch (Tournament.ofTables bimod twolev chooser) branches =
        some (outs, t) ∧
      ∀ b : Branch, b.op.isCond = true →
        (pred.lookupBranch b).dirUpdate.directions = t.predict b.baddr.toNat := by
  have hmatch : ∀ (pred : Predictor) (t : Tournament) (b : Branch) (out : Option Directions)
      (pred' : Predictor), Models pred.dirpred t → (b.taken = 0 ∨ b.taken = 1) →
      pred.branch b = some (out, pred') →
      ∃ t', t.branch b = some (id out, t') ∧ Models pred'.dirpred t' :=
    fun _ _ _ _ _ h ht hs => h.branch ht hs
  obtain ⟨t, hrun, h⟩ := run_simulation hmatch ht (models_of_create hc hd) hr
  rw [List.map_id] at hrun
  exact ⟨t, hrun, fun b hop => (h.lookup hop).1⟩

/-- A loop branch taken three times, a jump and another branch. -/
def loopBranches : List Branch :=
  [⟨4, .beq, 64, 64, 1, 0, 0, {}, 0⟩, ⟨4, .beq, 64, 64, 1, 0, 0, {}, 0⟩,
    ⟨64, .br, 4, 4, 1, 0, 0, {}, 0⟩, ⟨4, .beq, 64, 64, 1, 0, 0, {}, 0⟩,
    ⟨8, .bne, 64, 12, 0, 0, 1, {}, 0⟩]

theorem tournament_refines_sample : ∃ pred₀ bimod twolev chooser outs pred,
    bpredCreateComb 1 1 0 = some pred₀ ∧ pred₀.dirpred = .comb bimod twolev chooser ∧
    run Predictor.branch pred₀ loopBranches = some (outs, pred) ∧
    ∃ t, run Tournament.branch (Tournament.ofTables bimod twolev chooser) loopBranches =
      some (outs, t) := by
  have hc : bpredCreateComb 1 1 0 = some _ := bpredCreateComb_eq rfl rfl
  have hs : (run Predictor.branch
      { dirpred := newComb, btb := (btbCreate 1 1).get rfl, retstack := (retStackCreate 0).get rfl,
        stats := {} } loopBranches).isSome = true := by decide +kernel
  obtain ⟨⟨outs, pred⟩, hr⟩ := Option.isSome_iff_exists.mp hs
  obtain ⟨t, hrun, -⟩ := tournament_refines hc rfl (by decide) hr
  exact ⟨_, _, _, _, outs, pred, hc, rfl, hr, t, hrun⟩

end AdvancedArchitecture.Bpred
