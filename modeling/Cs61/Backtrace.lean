import Cs61.CheckedLoops
import Cs61.UserStrings
import Cs61.VmRangePerm

/-! # `backtracer` — the walk along saved frame pointers

    The chain of frames comes from memory that a process may have written, so
    nothing is known of it.  The walk goes up one stack window of at most a
    page, below `stack_top_`; it may leave a kernel window once, for a window
    of the process.

    `deref` does not test its address.  Here a dereference of a misaligned
    address, or of one whose page is not present, is a trap: a walk that
    returns has made none. -/

namespace Backtrace

open PageTable VmIter VmWalk VmLeaf VmRangePerm LoopRules CheckedLoops
open UserStrings (Byte byteAt kptr inc_eq)

variable {mem : Mem} {root : Word}

/-! ## The walker -/

/-- `round_down(x, m)`. -/
def roundDown (x m : Word) : Word := x - x % m

/-- `round_up(x, m)`. -/
def roundUp (x m : Word) : Word := roundDown (x + m - 1#64) m

/-- `backtrace_regs`. -/
structure BacktraceRegs where
  reg_rip : Word
  reg_rsp : Word
  reg_rbp : Word

/-- `backtracer`: the frame it is at, the bounds of the stack, and whether the frame is that
    of a leaf. -/
structure Backtracer where
  rbp : Word
  rsp : Word
  stackTop : Word
  leaf : Bool
deriving DecidableEq

/-- What must not happen: a fault of the page tables, or a read that is not aligned or not
    mapped. -/
inductive Trap where
  | fault (f : Fault)
  | misaligned (va : Word)
  | absent (va : Word)
deriving DecidableEq, Repr

/-- `vmiter(pt_, va)`. -/
def newIter (mem : Mem) (root va : Word) : Except Trap Vmiter :=
  (Vmiter.new mem root va).mapError .fault

/-- `deref(va)`. -/
def deref (mem : Mem) (root va : Word) : Except Trap Word :=
  (newIter mem root va).bind fun it =>
  if va &&& 7#64 ≠ 0#64 then .error (.misaligned va)
  else if it.present mem = true then .ok (mem (kptr mem it))
  else .error (.absent va)

/-- `vmiter(pt_, va).range_perm(sz, PTE_P)`. -/
def hasRange (mem : Mem) (root va sz : Word) (fuel : Nat) : Option (Except Trap Bool) :=
  match newIter mem root va with
  | .error t => some (.error t)
  | .ok it => (rangePerm mem it sz fuel).map fun r =>
      (r.mapError .fault).map fun p => p &&& pteP == pteP

/-- The loops of `check_leaf` that fill `ibuf`: the bytes read, and where the
    iterator is left.  A byte is read only where its page is present. -/
def readCode (mem : Mem) : Nat → Vmiter → Except Trap (List Byte × Vmiter)
  | 0, it => .ok ([], it)
  | n + 1, it =>
      if it.present mem = true then
        ((it.inc mem).mapError .fault).bind fun it' =>
        (readCode mem n it').map fun r => (byteAt mem (kptr mem it) :: r.1, r.2)
      else .ok ([], it)

/-- The function that a `call` in `ibuf` calls, if there is one. -/
def callTarget (retaddr : Word) : List Byte → Option Word
  | [op, b1, b2, b3, b4] =>
      if op = 0xe8#8 then
        let offset : BitVec 32 := b1.setWidth 32 + (b2.setWidth 32 <<< 8)
          + (b3.setWidth 32 <<< 16) + (b4.setWidth 32 <<< 24)
        some (retaddr + offset.signExtend 64)
      else none
  | _ => none

/-- The prologue does not `push %rbp`, not after an `endbr64` either. -/
def frameOmitted (ibuf : List Byte) : Bool :=
  ibuf.length == 5 && ibuf.head? != some 0x55#8
    && ibuf != [0xf3#8, 0x0f#8, 0x1e#8, 0xf1#8, 0x55#8]

namespace Backtracer

/-- `ok()`: the end of the chain is a null stack pointer. -/
def ok (bt : Backtracer) : Bool := bt.rsp != 0#64

/-- The tests of `check_leaf` on the code around the return address. -/
def omitsFrame (mem : Mem) (root rip : Word) (bt : Backtracer) : Except Trap Bool :=
  (deref mem root bt.rsp).bind fun retaddr =>
  if (0x10000 : Int) < (retaddr - rip).toInt
      ∨ (bt.stackTop - pageSize ≤ retaddr ∧ retaddr ≤ bt.stackTop) then .ok false
  else
    (newIter mem root (retaddr - 5#64)).bind fun it =>
    (readCode mem 5 it).bind fun call =>
    match callTarget retaddr call.1 with
    | none => .ok false
    | some fnaddr =>
        if rip < fnaddr ∨ 0x1000#64 < rip - fnaddr then .ok false
        else
          ((call.2.find mem fnaddr).mapError .fault).bind fun it =>
          (readCode mem 5 it).map fun prologue => frameOmitted prologue.1

/-- `check_leaf(rip)`: the frame of a function that has not pushed `%rbp`. -/
def checkLeaf (mem : Mem) (root rip : Word) (bt : Backtracer) (fuel : Nat) :
    Option (Except Trap Backtracer) :=
  if root ≠ 0#64 ∧ bt.rsp ≤ bt.stackTop ∧ 8#64 ≤ bt.stackTop - bt.rsp
      ∧ bt.rsp &&& 7#64 = 0#64 then
    andThen (hasRange mem root bt.rsp 8#64 fuel) fun accessible =>
    if accessible = true then
      some ((bt.omitsFrame mem root rip).map fun leaf => { bt with leaf := leaf })
    else some (.ok bt)
  else some (.ok bt)

/-- The last line of `check`. -/
def onStack (bt : Backtracer) : Bool :=
  decide (bt.rbp ≤ bt.stackTop) && decide (16#64 ≤ bt.stackTop - bt.rbp)

/-- The rest of `check`, once the caller's frame is accessible. -/
def checkWindow (bt : Backtracer) : Bool × Backtracer :=
  if vaHighMin ≤ bt.stackTop ∧ bt.rbp < vaLowMax then
    let bt := { bt with stackTop := roundUp bt.rbp pageSize }
    (bt.onStack, bt)
  else if bt.rbp < bt.rsp then (false, bt)
  else (bt.onStack, bt)

/-- `check()`: whether the frame can be read, and the bounds after it. -/
def check (mem : Mem) (root : Word) (bt : Backtracer) (fuel : Nat) :
    Option (Except Trap (Bool × Backtracer)) :=
  if root = 0#64 ∨ bt.rbp &&& 7#64 ≠ 0#64 then some (.ok (false, bt))
  else
    andThen (hasRange mem root bt.rbp 16#64 fuel) fun accessible =>
    some (.ok (if accessible = true then bt.checkWindow else (false, bt)))

/-- `if (!check()) { rbp_ = rsp_ = 0; }`. -/
def settle (mem : Mem) (root : Word) (bt : Backtracer) (fuel : Nat) :
    Option (Except Trap Backtracer) :=
  andThen (bt.check mem root fuel) fun r =>
  some (.ok (if r.1 = true then r.2 else { r.2 with rbp := 0#64, rsp := 0#64 }))

/-- The constructor.  -/
def new (mem : Mem) (root : Word) (regs : BacktraceRegs) (stackTop : Word) (fuel : Nat) :
    Option (Except Trap Backtracer) :=
  andThen
    (checkLeaf mem root regs.reg_rip
      { rbp := regs.reg_rbp, rsp := regs.reg_rsp, stackTop := stackTop, leaf := false } fuel)
    fun bt => if bt.leaf = true then some (.ok bt) else bt.settle mem root fuel

/-- `ret_rip()`: the return address of the frame. -/
def retRip (mem : Mem) (root : Word) (bt : Backtracer) : Except Trap Word :=
  if bt.leaf = true then deref mem root bt.rsp else deref mem root (bt.rbp + 8#64)

/-- `step()`: on to the frame of the caller. -/
def step (mem : Mem) (root : Word) (bt : Backtracer) (fuel : Nat) :
    Option (Except Trap Backtracer) :=
  if bt.leaf = true then settle mem root { bt with leaf := false } fuel
  else
    match deref mem root bt.rbp with
    | .error t => some (.error t)
    | .ok rbp => settle mem root { bt with rsp := bt.rbp + 16#64, rbp := rbp } fuel

/-- The body of the loop of `print_backtrace`, without its output, and
    `bt.step()`. -/
def frame (mem : Mem) (root : Word) (fuel : Nat) (bt : Backtracer) :
    Option (Except Trap Backtracer) :=
  match bt.retRip mem root with
  | .error t => some (.error t)
  | .ok _ => bt.step mem root fuel

end Backtracer

/-- `print_backtrace(pr, regs, pt)`: the frames it prints. -/
def printBacktrace (mem : Mem) (root : Word) (regs : BacktraceRegs) (inner outer : Nat) :
    Option (Except Trap (List Backtracer)) :=
  andThen (Backtracer.new mem root regs (roundUp regs.reg_rsp pageSize) inner)
    (collect? (fun bt => .ok bt.ok) (Backtracer.frame mem root inner) outer)

/-! ## What the walk is -/

/-- Where a frame stands on the stack. -/
def Backtracer.base (bt : Backtracer) : Nat :=
  if bt.leaf = true then bt.rsp.toNat else bt.rbp.toNat

/-- The words that `ret_rip` and `step` read. -/
def Backtracer.derefs (bt : Backtracer) : List Word :=
  if bt.leaf = true then [bt.rsp] else [bt.rbp + 8#64, bt.rbp]

/-- How many bytes of the stack a frame takes at least. -/
def Backtracer.size (bt : Backtracer) : Nat := if bt.leaf = true then 8 else 16

section Kinds

variable {bt : Backtracer}

theorem base_leaf (h : bt.leaf = true) : bt.base = bt.rsp.toNat := if_pos h

theorem base_frame (h : bt.leaf = false) : bt.base = bt.rbp.toNat :=
  if_neg (Bool.eq_false_iff.mp h)

theorem size_leaf (h : bt.leaf = true) : bt.size = 8 := if_pos h

theorem size_frame (h : bt.leaf = false) : bt.size = 16 := if_neg (Bool.eq_false_iff.mp h)

theorem derefs_leaf (h : bt.leaf = true) : bt.derefs = [bt.rsp] := if_pos h

theorem derefs_frame (h : bt.leaf = false) : bt.derefs = [bt.rbp + 8#64, bt.rbp] :=
  if_neg (Bool.eq_false_iff.mp h)

end Kinds

/-- The frame lies in the 4 KiB window below `stack_top_`. -/
structure InWindow (bt : Backtracer) : Prop where
  page : bt.stackTop.toNat % 4096 = 0
  above : bt.stackTop.toNat < bt.base + 4096
  below : bt.base + bt.size ≤ bt.stackTop.toNat

/-- A step that stays in its window. -/
def Rises (bt bt' : Backtracer) : Prop :=
  bt'.leaf = false ∧ bt'.stackTop = bt.stackTop ∧ bt.base ≤ bt'.rbp.toNat
    ∧ (bt.leaf = false → bt.rbp.toNat + 16 ≤ bt'.rbp.toNat)

/-- A step from a window of the kernel to one of the process. -/
def Switches (bt bt' : Backtracer) : Prop :=
  bt'.leaf = false ∧ vaHighMin ≤ bt.stackTop ∧ ¬ vaHighMin ≤ bt'.stackTop

/-- A dereference that does not trap. -/
def Readable (mem : Mem) (root va : Word) : Prop :=
  va.toNat % 8 = 0 ∧ Present mem root va

/-- The test of the alignment. -/
theorem and_seven_eq_zero_iff (x : Word) : x &&& 7#64 = 0#64 ↔ x.toNat % 8 = 0 := by
  have hand : (x &&& 7#64).toNat = x.toNat % 8 := by
    rw [BitVec.toNat_and]
    exact Nat.and_two_pow_sub_one_eq_mod x.toNat 3
  rw [← hand, ← BitVec.toNat_inj]
  rfl

theorem toNat_roundDown (x : Word) : (roundDown x pageSize).toNat = x.toNat - x.toNat % 4096 := by
  have hmod : (x % pageSize).toNat = x.toNat % 4096 := BitVec.toNat_umod
  have hlt := x.isLt
  rw [roundDown, BitVec.toNat_sub, hmod]
  omega

/-- `round_up` may wrap to 0; then too it is below the next page. -/
theorem toNat_roundUp (x : Word) :
    (roundUp x pageSize).toNat % 4096 = 0 ∧ (roundUp x pageSize).toNat < x.toNat + 4096 := by
  have hlt := x.isLt
  have hsum : (x + pageSize - 1#64).toNat = (x.toNat + 4095) % 2 ^ 64 := by
    have hpage : pageSize.toNat = 4096 := rfl
    rw [BitVec.toNat_sub, BitVec.toNat_add, hpage, show (1#64).toNat = 1 from rfl]
    omega
  rw [roundUp, toNat_roundDown, hsum]
  omega

/-! ## Reads -/

/-- An iterator can be made for every address. -/
theorem newIter_ok (hwf : WellFormed mem root) (va : Word) :
    newIter mem root va = .ok (fresh mem root va) := by
  rw [newIter, new_ok hwf.aligned hwf.low]
  rfl

/-- **DEREFERENCES**: what does not trap is an aligned address whose page is
    present. -/
theorem deref_ok_iff (hwf : WellFormed mem root) (va : Word) :
    (∃ w, deref mem root va = .ok w) ↔ Readable mem root va := by
  rw [deref, newIter_ok hwf]
  show (∃ w, (if va &&& 7#64 ≠ 0#64 then .error (.misaligned va)
    else if (fresh mem root va).present mem = true then .ok (mem (kptr mem (fresh mem root va)))
    else .error (.absent va) : Except Trap Word) = .ok w) ↔ _
  rw [Readable, ← and_seven_eq_zero_iff, ← present_fresh_iff hwf.aligned]
  by_cases ha : va &&& 7#64 = 0#64
  · rw [if_neg (not_not_intro ha)]
    by_cases hp : (fresh mem root va).present mem = true
    · rw [if_pos hp]
      exact ⟨fun _ => ⟨ha, hp⟩, fun _ => ⟨_, rfl⟩⟩
    · rw [if_neg hp]
      exact ⟨fun ⟨_, h⟩ => (nomatch h), fun h => absurd h.2 hp⟩
  · rw [if_pos ha]
    exact ⟨fun ⟨_, h⟩ => (nomatch h), fun h => absurd h.1 ha⟩

/-- The test of presence. -/
theorem and_pteP_eq_iff (x : Word) : x &&& pteP = pteP ↔ x.getLsbD 0 = true := by
  have hp : pteP = BitVec.twoPow 64 0 := by decide
  rw [hp, BitVec.and_twoPow]
  cases x.getLsbD 0 <;> decide

/-- A stretch that is present is present at each of its addresses. -/
theorem present_of_andPerms (hwf : WellFormed mem root) {a n : Nat}
    (h : andPerms mem root a n &&& pteP = pteP) {i : Nat} (hi : i < n) :
    Present mem root (BitVec.ofNat 64 (a + i)) := by
  induction n with
  | zero => exact absurd hi (Nat.not_lt_zero i)
  | succ n ih =>
      rw [and_pteP_eq_iff, andPerms, BitVec.getLsbD_and, Bool.and_eq_true] at h
      rcases Nat.lt_succ_iff_lt_or_eq.mp hi with hlt | rfl
      · exact ih ((and_pteP_eq_iff _).mpr h.1) hlt
      · rw [← present_fresh_iff hwf.aligned, Vmiter.present, Vmiter.hasPerm, beq_iff_eq,
          and_pteP_eq_iff, ← permAt_eq hwf]
        exact h.2

/-- A range that is found accessible is present, byte by byte. -/
theorem hasRange_returns (hwf : WellFormed mem root) (va sz : Word) :
    ∃ b, Returns (hasRange mem root va sz) (.ok b)
      ∧ (b = true → ∀ i, i < sz.toNat → Present mem root (va + BitVec.ofNat 64 i)) := by
  obtain ⟨hw, hva⟩ := @fresh_walked mem root hwf.aligned va
  have hr := rangePerm_returns hwf hw sz
  rw [hva] at hr
  refine ⟨permsUpTo mem root va.toNat sz.toNat &&& pteP == pteP, ?_, ?_⟩
  · refine (hr.map fun r => (r.mapError Trap.fault).map fun p => p &&& pteP == pteP).congr ?_
    intro fuel
    rw [hasRange, newIter_ok hwf]
  · intro hb i hi
    rw [beq_iff_eq, permsUpTo] at hb
    by_cases hend : 2 ^ 64 < va.toNat + sz.toNat
    · rw [if_pos hend, BitVec.zero_and] at hb
      cases hb
    · rw [if_neg hend] at hb
      have hp := present_of_andPerms hwf hb hi
      rwa [BitVec.ofNat_add, BitVec.ofNat_toNat, BitVec.setWidth_eq] at hp

/-- The loops that fill `ibuf` read what is present. -/
theorem readCode_ok (hwf : WellFormed mem root) {n : Nat} {it : Vmiter}
    (h : Walked mem root it) :
    ∃ r, readCode mem n it = .ok r ∧ Walked mem root r.2 := by
  induction n generalizing it with
  | zero => exact ⟨_, rfl, h⟩
  | succ n ih =>
      rw [readCode]
      by_cases hp : it.present mem = true
      · rw [if_pos hp, inc_eq hwf.aligned h, new_ok hwf.aligned hwf.low]
        obtain ⟨r, hr, hw⟩ := ih (@fresh_walked mem root hwf.aligned (it.va + 1#64)).1
        refine ⟨(byteAt mem (kptr mem it) :: r.1, r.2), ?_, hw⟩
        show (readCode mem n (fresh mem root (it.va + 1#64))).map _ = _
        rw [hr]
        rfl
      · rw [if_neg hp]
        exact ⟨_, rfl, h⟩

/-! ## `check_leaf` -/

/-- The test for a leaf reads the stack only where it can be read. -/
theorem omitsFrame_ok (hwf : WellFormed mem root) {bt : Backtracer} (rip : Word)
    (h : Readable mem root bt.rsp) : ∃ b, bt.omitsFrame mem root rip = .ok b := by
  obtain ⟨retaddr, hret⟩ := (deref_ok_iff hwf bt.rsp).mpr h
  rw [Backtracer.omitsFrame, hret, Except.bind]
  by_cases hfar : (0x10000 : Int) < (retaddr - rip).toInt
      ∨ (bt.stackTop - pageSize ≤ retaddr ∧ retaddr ≤ bt.stackTop)
  · rw [if_pos hfar]
    exact ⟨false, rfl⟩
  · rw [if_neg hfar, newIter_ok hwf, Except.bind]
    obtain ⟨call, hcall, hw⟩ :=
      readCode_ok (n := 5) hwf (@fresh_walked mem root hwf.aligned (retaddr - 5#64)).1
    rw [hcall, Except.bind]
    cases callTarget retaddr call.1 with
    | none => exact ⟨false, rfl⟩
    | some fnaddr =>
        show ∃ b, (if rip < fnaddr ∨ 0x1000#64 < rip - fnaddr then _ else _) = Except.ok b
        by_cases hnear : rip < fnaddr ∨ 0x1000#64 < rip - fnaddr
        · rw [if_pos hnear]
          exact ⟨false, rfl⟩
        · obtain ⟨prologue, hpro, -⟩ :=
            readCode_ok (n := 5) hwf (@fresh_walked mem root hwf.aligned fnaddr).1
          rw [if_neg hnear, VmFind.Walked.find hwf hw]
          show ∃ b, (readCode mem 5 (fresh mem root fnaddr)).map _ = Except.ok b
          rw [hpro]
          exact ⟨_, rfl⟩

/-- A frame that `check_leaf` takes for one of a leaf function can be read. -/
theorem checkLeaf_returns (hwf : WellFormed mem root) (bt : Backtracer) (rip : Word)
    (hleaf : bt.leaf = false) :
    ∃ b, Returns (bt.checkLeaf mem root rip) (.ok { bt with leaf := b })
      ∧ (b = true → bt.rsp.toNat + 8 ≤ bt.stackTop.toNat ∧ Readable mem root bt.rsp) := by
  have hstay : { bt with leaf := false } = bt := by rw [← hleaf]
  by_cases htest : root ≠ 0#64 ∧ bt.rsp ≤ bt.stackTop ∧ 8#64 ≤ bt.stackTop - bt.rsp
      ∧ bt.rsp &&& 7#64 = 0#64
  · obtain ⟨accessible, hrange, hpresent⟩ := hasRange_returns hwf bt.rsp 8#64
    have hrun : ∀ {r}, (if accessible = true then
          some ((bt.omitsFrame mem root rip).map fun leaf => { bt with leaf := leaf })
        else some (.ok bt)) = some r → Returns (bt.checkLeaf mem root rip) r := by
      intro r hr
      obtain ⟨n, hn⟩ := hrange
      refine ⟨n, ?_⟩
      intro fuel hf
      rw [Backtracer.checkLeaf, if_pos htest, andThen_ok (hn fuel hf), hr]
    cases accessible with
    | false => exact ⟨false, hrun (by rw [hstay]; rfl), fun h => nomatch h⟩
    | true =>
        obtain ⟨-, hle, hroom, halign⟩ := htest
        have hread : Readable mem root bt.rsp := by
          refine ⟨(and_seven_eq_zero_iff _).mp halign, ?_⟩
          have h0 : Present mem root (bt.rsp + 0#64) := hpresent rfl 0 (by decide)
          rwa [BitVec.add_zero] at h0
        obtain ⟨b, hb⟩ := omitsFrame_ok hwf rip hread
        refine ⟨b, hrun (by rw [hb]; rfl), fun _ => ⟨?_, hread⟩⟩
        have hroom' : 8 ≤ (bt.stackTop - bt.rsp).toNat := hroom
        rw [BitVec.toNat_sub_of_le hle] at hroom'
        have hle' : bt.rsp.toNat ≤ bt.stackTop.toNat := hle
        omega
  · refine ⟨false, (Returns.pure _).congr ?_, fun h => nomatch h⟩
    intro fuel
    rw [Backtracer.checkLeaf, if_neg htest, hstay]

/-! ## `check` -/

/-- `on_stack()`: both words of the frame are below the top. -/
theorem onStack_iff (bt : Backtracer) :
    bt.onStack = true ↔ bt.rbp.toNat + 16 ≤ bt.stackTop.toNat := by
  rw [Backtracer.onStack, Bool.and_eq_true, decide_eq_true_iff, decide_eq_true_iff]
  by_cases hle : bt.rbp ≤ bt.stackTop
  · have hle' : bt.rbp.toNat ≤ bt.stackTop.toNat := hle
    have hsub : (16#64 ≤ bt.stackTop - bt.rbp) ↔ 16 ≤ bt.stackTop.toNat - bt.rbp.toNat := by
      rw [BitVec.le_def, BitVec.toNat_sub_of_le hle]
      rfl
    rw [hsub]
    constructor
    · rintro ⟨-, h⟩
      omega
    · intro h
      exact ⟨hle, by omega⟩
  · have hlt : ¬ bt.rbp.toNat ≤ bt.stackTop.toNat := hle
    constructor
    · exact fun h => absurd h.1 hle
    · intro h
      omega

/-- What `check` changes when it succeeds: the window only. -/
theorem checkWindow_true {bt bt' : Backtracer} (h : bt.checkWindow = (true, bt')) :
    bt'.rbp.toNat + 16 ≤ bt'.stackTop.toNat ∧ bt'.rbp = bt.rbp ∧ bt'.leaf = bt.leaf
      ∧ ((bt' = bt ∧ bt.rsp ≤ bt.rbp)
        ∨ (vaHighMin ≤ bt.stackTop ∧ bt.rbp < vaLowMax
          ∧ bt'.stackTop = roundUp bt.rbp pageSize)) := by
  rw [Backtracer.checkWindow] at h
  by_cases hswitch : vaHighMin ≤ bt.stackTop ∧ bt.rbp < vaLowMax
  · rw [if_pos hswitch] at h
    obtain ⟨hon, rfl⟩ := Prod.mk.inj h
    exact ⟨(onStack_iff _).mp hon, rfl, rfl, Or.inr ⟨hswitch.1, hswitch.2, rfl⟩⟩
  · rw [if_neg hswitch] at h
    by_cases hlt : bt.rbp < bt.rsp
    · rw [if_pos hlt] at h
      exact absurd (Prod.mk.inj h).1 Bool.false_ne_true
    · rw [if_neg hlt] at h
      obtain ⟨hon, rfl⟩ := Prod.mk.inj h
      exact ⟨(onStack_iff _).mp hon, rfl, rfl, Or.inl ⟨rfl, BitVec.not_lt.mp hlt⟩⟩

/-! ## Steps -/

/-- What the walk knows of a frame. -/
structure Good (mem : Mem) (root : Word) (bt : Backtracer) : Prop where
  window : InWindow bt
  derefs : ∀ va ∈ bt.derefs, Readable mem root va

/-- A step enters a frame at or above `rsp_` in the window, or at the bottom of
    another window. -/
def Enters (bt bt' : Backtracer) : Prop :=
  bt'.leaf = false ∧ ((bt'.stackTop = bt.stackTop ∧ bt.rsp.toNat ≤ bt'.rbp.toNat)
    ∨ (vaHighMin ≤ bt.stackTop ∧ ¬ vaHighMin ≤ bt'.stackTop))

/-- A present frame can be read. -/
theorem readable_frame {rbp : Word} (halign : rbp &&& 7#64 = 0#64)
    (h : ∀ i, i < 16 → Present mem root (rbp + BitVec.ofNat 64 i)) :
    ∀ va ∈ [rbp + 8#64, rbp], Readable mem root va := by
  have hmod := (and_seven_eq_zero_iff rbp).mp halign
  have h0 : Present mem root (rbp + 0#64) := h 0 (by decide)
  rw [BitVec.add_zero] at h0
  intro va hva
  rcases List.mem_cons.mp hva with rfl | hva
  · refine ⟨?_, h 8 (by decide)⟩
    rw [BitVec.toNat_add, show (8#64).toNat = 8 from rfl]
    omega
  · rw [List.mem_singleton.mp hva]
    exact ⟨hmod, h0⟩

/-- The window that a switch goes to. -/
theorem switched_window {rbp : Word} (hlow : rbp < vaLowMax) :
    (roundUp rbp pageSize).toNat % 4096 = 0
      ∧ (roundUp rbp pageSize).toNat < rbp.toNat + 4096
      ∧ ¬ vaHighMin ≤ roundUp rbp pageSize := by
  obtain ⟨hpage, habove⟩ := toNat_roundUp rbp
  have hlow' : rbp.toNat < 0x00007FFFFFFFFFFF := hlow
  refine ⟨hpage, habove, ?_⟩
  intro hhigh
  have hhigh' : 0xFFFF800000000000 ≤ (roundUp rbp pageSize).toNat := hhigh
  omega

/-- A frame that `check` accepts. -/
theorem good_of_checkWindow {bt bt' : Backtracer} (hleaf : bt.leaf = false)
    (hpage : bt.stackTop.toNat % 4096 = 0) (habove : bt.stackTop.toNat < bt.rsp.toNat + 4096)
    (halign : bt.rbp &&& 7#64 = 0#64)
    (hpresent : ∀ i, i < 16 → Present mem root (bt.rbp + BitVec.ofNat 64 i))
    (hcheck : bt.checkWindow = (true, bt')) : Good mem root bt' ∧ Enters bt bt' := by
  obtain ⟨hon, hrbp, hleaf', hcases⟩ := checkWindow_true hcheck
  rw [hleaf] at hleaf'
  have hreads : ∀ va ∈ bt'.derefs, Readable mem root va := by
    rw [derefs_frame hleaf', hrbp]
    exact readable_frame halign hpresent
  have hbase := base_frame hleaf'
  have hsize := size_frame hleaf'
  rcases hcases with ⟨rfl, hge⟩ | ⟨hhigh, hlow, htop⟩
  · have hge' : bt'.rsp.toNat ≤ bt'.rbp.toNat := hge
    exact ⟨⟨⟨hpage, by omega, by omega⟩, hreads⟩, hleaf, Or.inl ⟨rfl, hge'⟩⟩
  · obtain ⟨hpage', habove', hnot⟩ := switched_window hlow
    rw [← htop] at hpage' habove' hnot
    exact ⟨⟨⟨hpage', by rw [hbase, hrbp]; exact habove', by omega⟩, hreads⟩,
      hleaf', Or.inr ⟨hhigh, hnot⟩⟩

/-- `check`, and what is done when it fails. -/
theorem settle_returns (hwf : WellFormed mem root) (bt : Backtracer) (hleaf : bt.leaf = false)
    (hpage : bt.stackTop.toNat % 4096 = 0)
    (habove : bt.stackTop.toNat < bt.rsp.toNat + 4096) :
    ∃ bt', Returns (bt.settle mem root) (.ok bt')
      ∧ (bt'.ok = true → Good mem root bt' ∧ Enters bt bt') := by
  have hfailed : ∀ {b : Backtracer}, ({ b with rbp := 0#64, rsp := 0#64 } : Backtracer).ok = true →
      Good mem root { b with rbp := 0#64, rsp := 0#64 }
        ∧ Enters bt { b with rbp := 0#64, rsp := 0#64 } := fun h => nomatch h
  by_cases htest : root = 0#64 ∨ bt.rbp &&& 7#64 ≠ 0#64
  · refine ⟨{ bt with rbp := 0#64, rsp := 0#64 }, (Returns.pure _).congr ?_, hfailed⟩
    intro fuel
    rw [Backtracer.settle, Backtracer.check, if_pos htest]
    rfl
  · obtain ⟨accessible, ⟨n, hn⟩, hpresent⟩ := hasRange_returns hwf bt.rbp 16#64
    have hrun : ∀ {r : Bool × Backtracer},
        (if accessible = true then bt.checkWindow else (false, bt)) = r →
        Returns (bt.settle mem root)
          (.ok (if r.1 = true then r.2 else { r.2 with rbp := 0#64, rsp := 0#64 })) := by
      rintro r rfl
      refine ⟨n, fun fuel hf => ?_⟩
      rw [Backtracer.settle, Backtracer.check, if_neg htest, andThen_ok (hn fuel hf)]
      rfl
    cases accessible with
    | false => exact ⟨_, hrun rfl, hfailed⟩
    | true =>
        cases hcheck : bt.checkWindow with
        | mk b bt' =>
            cases b with
            | false => exact ⟨_, hrun hcheck, hfailed⟩
            | true =>
                have halign : bt.rbp &&& 7#64 = 0#64 := not_not.mp fun h => htest (Or.inr h)
                exact ⟨bt', hrun hcheck, fun _ =>
                  good_of_checkWindow hleaf hpage habove halign (hpresent rfl) hcheck⟩

/-- **FRAMES**: the body of the loop and the step after it do not trap, and
    leave a frame above or one in another window, if they leave one. -/
theorem frame_returns (hwf : WellFormed mem root) {bt : Backtracer} (h : Good mem root bt) :
    ∃ bt', Returns (fun fuel => bt.frame mem root fuel) (.ok bt')
      ∧ (bt'.ok = true → Good mem root bt' ∧ (Rises bt bt' ∨ Switches bt bt')) := by
  obtain ⟨⟨hpage, habove, hbelow⟩, hreads⟩ := h
  cases hleaf : bt.leaf with
  | true =>
      rw [base_leaf hleaf] at habove
      rw [derefs_leaf hleaf] at hreads
      obtain ⟨w, hw⟩ := (deref_ok_iff hwf _).mpr (hreads _ (List.mem_singleton_self _))
      obtain ⟨bt', hrun, hbt'⟩ :=
        settle_returns hwf { bt with leaf := false } rfl hpage habove
      refine ⟨bt', hrun.congr ?_, ?_⟩
      · intro fuel
        rw [Backtracer.frame, Backtracer.retRip, if_pos hleaf, hw, Backtracer.step, if_pos hleaf]
      · intro hok
        obtain ⟨hgood, hleaf', hcases⟩ := hbt' hok
        refine ⟨hgood, hcases.imp ?_ ?_⟩
        · rintro ⟨htop, hge⟩
          refine ⟨hleaf', htop, ?_, fun hno => ?_⟩
          · rw [base_leaf hleaf]
            exact hge
          · rw [hleaf] at hno
            cases hno
        · exact fun hs => ⟨hleaf', hs⟩
  | false =>
      have hno : ¬ bt.leaf = true := by rw [hleaf]; exact Bool.false_ne_true
      rw [base_frame hleaf] at habove hbelow
      rw [size_frame hleaf] at hbelow
      rw [derefs_frame hleaf] at hreads
      -- both words of the frame are on the stack, and so can be read
      obtain ⟨w, hw⟩ := (deref_ok_iff hwf _).mpr (hreads _ List.mem_cons_self)
      obtain ⟨rbp, hrbp⟩ :=
        (deref_ok_iff hwf bt.rbp).mpr (hreads _ (List.mem_cons_of_mem _ (List.mem_singleton_self _)))
      -- the caller's frame is below `stack_top_`, so `rsp_` does not wrap
      have hrsp : (bt.rbp + 16#64).toNat = bt.rbp.toNat + 16 := by
        have htop := bt.stackTop.isLt
        rw [BitVec.toNat_add, show (16#64).toNat = 16 from rfl]
        omega
      obtain ⟨bt', hrun, hbt'⟩ :=
        settle_returns hwf { bt with rsp := bt.rbp + 16#64, rbp := rbp } hleaf hpage
          (by show bt.stackTop.toNat < (bt.rbp + 16#64).toNat + 4096; omega)
      refine ⟨bt', hrun.congr ?_, ?_⟩
      · intro fuel
        rw [Backtracer.frame, Backtracer.retRip, if_neg hno, hw, Backtracer.step, if_neg hno, hrbp]
      · -- when the checks pass, the new base is above the old one
        intro hok
        obtain ⟨hgood, hleaf', hcases⟩ := hbt' hok
        refine ⟨hgood, hcases.imp ?_ ?_⟩
        · rintro ⟨htop, hge⟩
          have hge' : (bt.rbp + 16#64).toNat ≤ bt'.rbp.toNat := hge
          refine ⟨hleaf', htop, ?_, fun _ => by omega⟩
          rw [base_frame hleaf]
          omega
        · exact fun hs => ⟨hleaf', hs⟩

/-! ## The walk -/

/-- What is left to climb.  A window holds less than a page, and a kernel
    window may be followed by another one. -/
def climb (bt : Backtracer) : Nat :=
  (if vaHighMin ≤ bt.stackTop then 8192 else 0)
    + if bt.leaf = true then 4096 else bt.stackTop.toNat - bt.rbp.toNat

/-- The measure: a step goes up the stack, or to the other stack. -/
theorem climb_lt {bt bt' : Backtracer} (hw' : InWindow bt')
    (h : Rises bt bt' ∨ Switches bt bt') : climb bt' < climb bt := by
  obtain ⟨-, habove, hbelow⟩ := hw'
  have hleaf' : bt'.leaf = false := h.elim And.left And.left
  rw [base_frame hleaf'] at habove hbelow
  rw [size_frame hleaf'] at hbelow
  rw [climb, climb, if_neg (Bool.eq_false_iff.mp hleaf')]
  rcases h with ⟨-, htop, -, hrise⟩ | ⟨-, hhigh, hlow⟩
  · rw [htop] at habove hbelow ⊢
    cases hleaf : bt.leaf with
    | true =>
        rw [if_pos rfl]
        omega
    | false =>
        have hr := hrise hleaf
        rw [if_neg Bool.false_ne_true]
        omega
  · rw [if_pos hhigh, if_neg hlow]
    omega

/-- A chain whose links of a second kind leave a class that links of the first
    kind do not enter has one of the second kind at most. -/
theorem chain_split {α : Type} {R S : α → α → Prop} {p : α → Prop}
    (hR : ∀ a b, R a b → p b → p a) (hS : ∀ a b, S a b → p a ∧ ¬ p b) {L : List α}
    (h : L.IsChain fun a b => R a b ∨ S a b) :
    ∃ before after, L = before ++ after ∧ before.IsChain R ∧ after.IsChain R
      ∧ ((∃ a ∈ L.head?, ¬ p a) → before = []) := by
  induction h with
  | nil => exact ⟨[], [], rfl, .nil, .nil, fun _ => rfl⟩
  | singleton a => exact ⟨[], [a], rfl, .nil, .singleton a, fun _ => rfl⟩
  | @cons_cons a b L hab _ ih =>
      obtain ⟨before, after, heq, hbefore, hafter, hlow⟩ := ih
      have hfrom : ¬ p b → before = [] ∧ after = b :: L := by
        intro hb
        have hnil := hlow ⟨b, rfl, hb⟩
        rw [hnil] at heq
        exact ⟨hnil, heq.symm⟩
      rcases hab with hab | hab
      · cases before with
        | nil =>
            refine ⟨[], a :: after, ?_, .nil, ?_, fun _ => rfl⟩
            · exact congrArg (a :: ·) heq
            · obtain rfl : b :: L = after := heq
              exact .cons_cons hab hafter
        | cons c before =>
            obtain ⟨rfl, hrest⟩ := List.cons.inj heq
            refine ⟨a :: b :: before, after, ?_, .cons_cons hab hbefore, hafter, ?_⟩
            · exact congrArg (a :: ·) heq
            · rintro ⟨x, hx, hp⟩
              obtain rfl := Option.some.inj hx
              have hb : ¬ p b := fun hb => hp (hR a b hab hb)
              cases (hfrom hb).1
      · obtain ⟨ha, hb⟩ := hS a b hab
        obtain ⟨-, rfl⟩ := hfrom hb
        refine ⟨[a], b :: L, rfl, .singleton a, hafter, ?_⟩
        rintro ⟨x, hx, hp⟩
        obtain rfl := Option.some.inj hx
        exact absurd ha hp

/-- A leaf frame is as it should be. -/
theorem good_of_leaf {bt : Backtracer} (hleaf : bt.leaf = true)
    (hpage : bt.stackTop.toNat % 4096 = 0) (habove : bt.stackTop.toNat < bt.rsp.toNat + 4096)
    (hbelow : bt.rsp.toNat + 8 ≤ bt.stackTop.toNat) (hread : Readable mem root bt.rsp) :
    Good mem root bt := by
  refine ⟨⟨hpage, ?_, ?_⟩, ?_⟩
  · rw [base_leaf hleaf]
    exact habove
  · rw [base_leaf hleaf, size_leaf hleaf]
    exact hbelow
  · rw [derefs_leaf hleaf]
    exact List.forall_mem_singleton.mpr hread

/-- The first frame. -/
theorem new_returns (hwf : WellFormed mem root) (regs : BacktraceRegs) {stackTop : Word}
    (hpage : stackTop.toNat % 4096 = 0) (habove : stackTop.toNat < regs.reg_rsp.toNat + 4096) :
    ∃ bt, Returns (Backtracer.new mem root regs stackTop) (.ok bt)
      ∧ (bt.ok = true → Good mem root bt) := by
  obtain ⟨leaf, ⟨n, hn⟩, hread⟩ := checkLeaf_returns hwf
    { rbp := regs.reg_rbp, rsp := regs.reg_rsp, stackTop := stackTop, leaf := false }
    regs.reg_rip rfl
  cases leaf with
  | true =>
      obtain ⟨hbelow, hreadable⟩ := hread rfl
      refine ⟨{ rbp := regs.reg_rbp, rsp := regs.reg_rsp, stackTop := stackTop, leaf := true },
        ⟨n, ?_⟩, fun _ => good_of_leaf rfl hpage habove hbelow hreadable⟩
      intro fuel hf
      rw [Backtracer.new, andThen_ok (hn fuel hf), if_pos rfl]
  | false =>
      obtain ⟨bt, ⟨m, hm⟩, hbt⟩ := settle_returns hwf
        { rbp := regs.reg_rbp, rsp := regs.reg_rsp, stackTop := stackTop, leaf := false }
        rfl hpage habove
      refine ⟨bt, ⟨n + m, ?_⟩, fun hok => (hbt hok).1⟩
      intro fuel hf
      rw [Backtracer.new, andThen_ok (hn fuel (by omega)), if_neg Bool.false_ne_true]
      exact hm fuel (by omega)

/-- **BACKTRACES**: for any registers, page table and memory the loop ends and
    does not trap.  Every frame lies in a window of 4 KiB; the words it reads
    are aligned and their pages present; and up to one switch of window every
    step goes up, by at least 16 from a frame that is no leaf's. -/
theorem printBacktrace_returns (hwf : WellFormed mem root) (regs : BacktraceRegs) :
    ∃ L, Returns₂ (printBacktrace mem root regs) (.ok L)
      ∧ (∀ bt ∈ L, InWindow bt
        ∧ ∀ va ∈ bt.derefs, va.toNat % 8 = 0 ∧ Present mem root va)
      ∧ ∃ before after, L = before ++ after ∧ before.IsChain Rises ∧ after.IsChain Rises := by
  obtain ⟨hpage, habove⟩ := toNat_roundUp regs.reg_rsp
  obtain ⟨bt, hnew, hbt⟩ := new_returns hwf regs hpage habove
  have hstep : ∀ bt, Good mem root bt → ∃ bt',
      Returns (fun fuel => Backtracer.frame mem root fuel bt) (.ok bt')
        ∧ (bt'.ok = true → Good mem root bt' ∧ (Rises bt bt' ∨ Switches bt bt')
          ∧ climb bt' < climb bt) := by
    intro bt hgood
    obtain ⟨bt', hrun, hbt'⟩ := frame_returns hwf hgood
    refine ⟨bt', hrun, fun hok => ?_⟩
    obtain ⟨hgood', hlink⟩ := hbt' hok
    exact ⟨hgood', hlink, climb_lt hgood'.window hlink⟩
  obtain ⟨L, hloop, hgood, hchain, -⟩ :=
    returns_collect_chain (Good mem root) _ climb hstep bt hbt
  refine ⟨L, returns_andThen hnew.inner hloop, ?_, ?_⟩
  · exact fun bt hmem => ⟨(hgood bt hmem).window, (hgood bt hmem).derefs⟩
  · have hkept : ∀ a b, Rises a b → vaHighMin ≤ b.stackTop → vaHighMin ≤ a.stackTop := by
      rintro a b ⟨-, htop, -⟩ hb
      rwa [← htop]
    obtain ⟨before, after, heq, hbefore, hafter, -⟩ :=
      chain_split hkept (fun a b h => h.2) hchain
    exact ⟨before, after, heq, hbefore, hafter⟩

/-- A stack with nothing on it. -/
theorem printBacktrace_returns_small :
    ∃ L, Returns₂ (printBacktrace smallTable 0x1000#64
        { reg_rip := 0#64, reg_rsp := 0x1F00#64, reg_rbp := 0x1FE0#64 }) (.ok L)
      ∧ (∀ bt ∈ L, InWindow bt
        ∧ ∀ va ∈ bt.derefs, va.toNat % 8 = 0 ∧ Present smallTable 0x1000#64 va)
      ∧ ∃ before after, L = before ++ after ∧ before.IsChain Rises ∧ after.IsChain Rises :=
  printBacktrace_returns smallTable_wellFormed _

end Backtrace
