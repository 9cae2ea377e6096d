import Cs61.KernelEntry

/-! # Frames of the kernel

    What the entry paths leave on the kernel's stack is a `regstate`
    (`exception_frame`, `syscall_frame`), and the ways back load one
    (`exceptionReturn_spec`, `syscallReturn_spec`). -/

namespace KernelEntry

open X86Stack

variable {m : Mem} {p a : Word} {r : Regstate} {k : Kernel} {s t u : Machine}

/-- A `regstate` is what its words say. -/
theorem readRegstate_of_stacked (h : Stacked m p (r.words.map some)) : readRegstate m p = r := by
  obtain ⟨hhigh, hlow⟩ := halves_of_read64 (h.get 17 rfl)
  rw [BitVec.add_assoc] at hhigh
  exact Regstate.ext (h.1 _ rfl) (h.get 1 rfl) (h.get 2 rfl) (h.get 3 rfl) (h.get 4 rfl)
    (h.get 5 rfl) (h.get 6 rfl) (h.get 7 rfl) (h.get 8 rfl) (h.get 9 rfl) (h.get 10 rfl)
    (h.get 11 rfl) (h.get 12 rfl) (h.get 13 rfl) (h.get 14 rfl) (h.get 15 rfl) (h.get 16 rfl)
    hlow hhigh (h.get 18 rfl) (h.get 19 rfl) (h.get 20 rfl) (h.get 21 rfl) (h.get 22 rfl)
    (h.get 23 rfl)

/-- The saved registers are the words on the stack. -/
theorem stacked_of_readRegstate (h : readRegstate m p = r) : Stacked m p (r.words.map some) := by
  have hints : read64 m (p + 136) = r.reg_swapgs ++ r.reg_intno := by
    rw [read64_halves, BitVec.add_assoc, ← h]
    rfl
  simp only [Regstate.words, List.map_cons, List.map_nil, Stacked, Option.some.injEq, forall_eq',
    BitVec.add_assoc, BitVec.reduceAdd, and_true]
  subst h
  exact ⟨rfl, rfl, rfl, rfl, rfl, rfl, rfl, rfl, rfl, rfl, rfl, rfl, rfl, rfl, rfl, rfl, rfl, hints,
    rfl, rfl, rfl, rfl, rfl, rfl⟩

/-- Writes elsewhere leave a `regstate` alone. -/
theorem readRegstate_write64 {v : Word} (hge : 8 ≤ (p - a).toNat)
    (hle : (p - a).toNat + 192 ≤ 2 ^ 64) : readRegstate (write64 m a v) p = readRegstate m p :=
  readRegstate_of_stacked ((stacked_of_readRegstate rfl).write hge (by
    rw [List.length_map]
    exact hle))

/-- The saved registers of an exception. -/
theorem saveRegs_pushed (c : Cpu) (num : Fin 256) (err : Word) :
    ((saveRegs.map (Instr.pushed c.regs)).reverse
        ++ [BitVec.ofNat 64 num, err, c.rip, c.cs.setWidth 64, c.rflags, c.rsp,
          c.ss.setWidth 64].map some)
      = (regstateOf c num err).words.map some := by
  have hnum : (0 : BitVec 32) ++ BitVec.ofNat 32 num = BitVec.ofNat 64 num := by
    apply BitVec.eq_of_toNat_eq
    rw [BitVec.toNat_append, BitVec.toNat_ofNat, BitVec.toNat_ofNat,
      show (0 : BitVec 32).toNat = 0 from rfl, Nat.zero_shiftLeft, Nat.zero_or]
    omega
  rw [← hnum]
  rfl

/-- The stub of an exception only pushes. -/
theorem exceptionHandler_push (num : Fin 256) : ∀ i ∈ exceptionHandler num, i.isPush = true := by
  intro i hi
  rw [exceptionHandler] at hi
  split at hi
  · rcases List.mem_cons.mp hi with rfl | hi
    · rfl
    · rw [List.mem_singleton.mp hi]
      rfl
  · rw [List.mem_singleton.mp hi]
    rfl

/-- A handler pushes a zero where the processor pushed no error code. -/
theorem exceptionHandler_pushed (num : Fin 256) (r : Regs) (err : Word) (ws : List (Option Word)) :
    ((exceptionHandler num).map (Instr.pushed r)).reverse
        ++ ((if hasErrorCode num then some err else none).toList.map some ++ ws)
      = some (BitVec.ofNat 64 num) :: some (if hasErrorCode num then err else 0) :: ws := by
  have hcond : (num ≠ INT_DF ∧ (num < INT_TS ∨ num > INT_PF) ∧ num ≠ INT_AC)
      ↔ hasErrorCode num = false := by
    simp only [hasErrorCode, INT_DF, INT_TS, INT_PF, INT_AC, List.mem_cons, List.not_mem_nil,
      decide_eq_false_iff_not]
    grind
  rw [exceptionHandler]
  cases hcode : hasErrorCode num with
  | true =>
      rw [if_neg (by rw [hcond, hcode]; exact Bool.noConfusion)]
      rfl
  | false =>
      rw [if_pos (hcond.mpr hcode)]
      rfl

/-- The frame of an exception. -/
theorem exception_frame (k : Kernel) (u : Machine) (num : Fin 256) (err : Word) :
    ∃ s, takeException k num err u = some s ∧ s.gpr .rdi = s.rsp ∧ s.cr3 = k.kernel_pagetable
      ∧ readRegstate s.mem (s.gpr .rdi)
        = regstateOf u.toCpu num (if hasErrorCode num then err else 0) := by
  obtain ⟨m, rsp, hdel, hm⟩ := @deliver_stacked u KERNEL_STACK_TOP (k.interrupt_descriptors num)
    SEGSEL_KERN_CODE (if hasErrorCode num then some err else none) (by decide)
  have hpush : ∀ i ∈ exceptionHandler num ++ saveRegs, i.isPush = true := by
    intro i hi
    rcases List.mem_append.mp hi with hi | hi
    · exact exceptionHandler_push num i hi
    · exact (by decide : ∀ i ∈ saveRegs, i.isPush = true) i hi
  have hlen : 8 * (((if hasErrorCode num then some err else none).toList ++ [u.rip,
      u.cs.setWidth 64, u.rflags, u.rsp, u.ss.setWidth 64]).map some).length
      + 8 * (exceptionHandler num ++ saveRegs).length ≤ 2 ^ 64 := by
    rw [exceptionHandler]
    split <;> split <;> simp [saveRegs]
  obtain ⟨v, hexec, hregs, -, hv⟩ := exec_pushes (s := { u with
      rsp := rsp, rip := k.interrupt_descriptors num, rflags := u.rflags &&& ~~~gateFlags
      cs := SEGSEL_KERN_CODE, ss := 0, mem := m })
    _ hpush hm (by omega)
  rw [takeException, hdel, exceptionEntry, ← List.append_assoc, exec_append, hexec]
  refine ⟨_, rfl, rfl, rfl, ?_⟩
  apply readRegstate_of_stacked
  rw [List.map_append, List.reverse_append, List.append_assoc, List.map_append,
    exceptionHandler_pushed num u.regs err] at hv
  rw [← saveRegs_pushed]
  exact hv

/-! ## The ways back -/

/-- What is loaded from a `regstate`. -/
structure Loads (r : Regstate) (c : Cpu) : Prop where
  gpr : c.regs.gpr = r.gpr
  fs : c.regs.fs = r.reg_fs.setWidth 16
  gs : c.regs.gs = r.reg_gs.setWidth 16
  rip : c.rip = r.reg_rip
  cs : c.cs = r.reg_cs.setWidth 16
  rflags : c.rflags = r.reg_rflags
  rsp : c.rsp = r.reg_rsp
  ss : c.ss = r.reg_ss.setWidth 16

/-- The pops load all of the registers, whatever was in them. -/
theorem restore_loadRegs (r : Regstate) (c : Regs) :
    restore c loadRegs (r.words.take 17)
      = { gpr := r.gpr, fs := r.reg_fs.setWidth 16, gs := r.reg_gs.setWidth 16 } := by
  have hgpr : (restore c loadRegs (r.words.take 17)).gpr = r.gpr := by
    funext d
    cases d <;> rfl
  have hseg : restore c loadRegs (r.words.take 17)
      = { gpr := (restore c loadRegs (r.words.take 17)).gpr
          fs := r.reg_fs.setWidth 16, gs := r.reg_gs.setWidth 16 } := rfl
  rw [hseg, hgpr]

/-- The way back, cut into its parts. -/
theorem exceptionReturn_eq : exceptionReturn
    = [.load32 12 .rdi .rax, .cmpl P_RUNNABLE .rax, .jne]
      ++ ([.load 0 .rdi .rax, .setCr3 .rax, .leaRsp 16 .rdi] ++ (loadRegs ++ [.addRsp 16, .iretq])) :=
  rfl

/-- The part that switches to the page table of the process. -/
theorem exec_address (t : Machine) :
    ∃ v, exec [.load 0 .rdi .rax, .setCr3 .rax, .leaRsp 16 .rdi] t = some v
      ∧ v.rsp = t.gpr .rdi + 16 ∧ v.mem = t.mem ∧ v.cr3 = read64 t.mem (t.gpr .rdi) := by
  refine ⟨_, rfl, rfl, rfl, ?_⟩
  show read64 t.mem (t.gpr .rdi + 0) = read64 t.mem (t.gpr .rdi)
  exact congrArg (read64 t.mem) (BitVec.add_zero _)

/-- `exception_return` loads the registers of a runnable process. -/
theorem exceptionReturn_spec (hrun : read32 t.mem (t.gpr .rdi + 12) = P_RUNNABLE) :
    ∃ v, exec exceptionReturn t = some v ∧ Loads (readRegstate t.mem (t.gpr .rdi + 16)) v.toCpu
      ∧ v.cr3 = read64 t.mem (t.gpr .rdi) := by
  have hst : Stacked t.mem (t.gpr .rdi + 16)
      ((readRegstate t.mem (t.gpr .rdi + 16)).words.map some) := stacked_of_readRegstate rfl
  generalize readRegstate t.mem (t.gpr .rdi + 16) = r at hst ⊢
  rw [← List.take_append_drop 17 r.words, List.map_append] at hst
  obtain ⟨v, hload, hrsp, hmem, hcr3⟩ := exec_address
    { t with regs := t.regs.set .rax (P_RUNNABLE.setWidth 64), zf := true }
  rw [show t.gpr .rdi + 16 = v.rsp from hrsp.symm, show t.mem = v.mem from hmem.symm] at hst
  obtain ⟨w, hpops, hregs, hw3, hw⟩ := exec_pops loadRegs (by decide) hst rfl
  rw [restore_loadRegs] at hregs
  -- the vector and the error code are left out
  have hskip : Stacked w.mem (w.rsp + 16)
      ([r.reg_rip, r.reg_cs, r.reg_rflags, r.reg_rsp, r.reg_ss].map some) := by
    have := hw.2.2
    rwa [BitVec.add_assoc] at this
  rw [exceptionReturn_eq, exec_append, exec_check, if_pos hrun, Option.bind_some, exec_append,
    hload, Option.bind_some, exec_append, hpops, Option.bind_some, exec_iretq hskip]
  refine ⟨_, rfl, ?_, hw3.trans hcr3⟩
  exact ⟨congrArg Regs.gpr hregs, congrArg Regs.fs hregs, congrArg Regs.gs hregs, rfl, rfl, rfl, rfl,
    rfl⟩

/-- And of no other one. -/
theorem exceptionReturn_fail (hrun : read32 t.mem (t.gpr .rdi + 12) ≠ P_RUNNABLE) :
    exec exceptionReturn t = none := by
  rw [exceptionReturn_eq, exec_append, exec_check, if_neg hrun]
  rfl

/-! ## System calls -/

/-- The frame of a system call.  Only `%rcx` and `%r11` are lost: `syscall`
    takes them. -/
structure SavesCall (c : Cpu) (r : Regstate) : Prop where
  gpr : ∀ d, d ≠ .rcx → d ≠ .r11 → r.gpr d = c.gpr d
  fs : r.reg_fs = c.regs.fs.setWidth 64
  gs : r.reg_gs = c.regs.gs.setWidth 64
  intno : r.reg_intno = -1
  rip : r.reg_rip = c.rip
  cs : r.reg_cs = SEGSEL_APP_CODE.setWidth 64 + 3
  rflags : r.reg_rflags = c.rflags
  rsp : r.reg_rsp = c.rsp
  ss : r.reg_ss = SEGSEL_APP_DATA.setWidth 64 + 3

/-- The frame of a system call, as the kernel gets it. -/
theorem syscall_frame (k : Kernel) (u : Machine) :
    ∃ s, takeSyscall k u = some s ∧ s.rsp = KERNEL_STACK_TOP - 192 ∧ s.gpr .rdi = s.rsp
      ∧ s.cr3 = k.kernel_pagetable
      ∧ (∀ d, d ≠ .rax → d ≠ .rdi → d ≠ .rcx → d ≠ .r11 → s.gpr d = u.gpr d)
      ∧ SavesCall u.toCpu (readRegstate s.mem (s.gpr .rdi)) := by
  obtain ⟨v, hstash, hregs, hvrsp, hv⟩ := exec_stash (KERNEL_STACK_TOP - 16) KERNEL_STACK_TOP
    (SEGSEL_APP_DATA.setWidth 64 + 3)
    (syscallInstr k.syscall_entry fmask SEGSEL_KERN_CODE (SEGSEL_KERN_CODE + 8) u) (by decide)
  obtain ⟨w, hexec, hwregs, hwrsp, hw⟩ := exec_pushes saveCall (by decide) hv (by simp [saveCall])
  rw [takeSyscall, syscallEntry, exec_append, exec_append, hstash, Option.bind_some, hexec]
  refine ⟨_, rfl, hwrsp.trans ?_, rfl, rfl, ?_, ?_⟩
  · rw [hvrsp]
    decide
  · intro d hrax hrdi hrcx hr11
    have hd : ((w.regs.set .rax k.kernel_pagetable).set .rdi w.rsp).gpr d
        = ((u.regs.set .rcx u.rip).set .r11 u.rflags).gpr d := by
      rw [Regs.set_ne _ _ hrdi, Regs.set_ne _ _ hrax, hwregs, hregs]
      rfl
    exact hd.trans ((Regs.set_ne _ _ hr11).trans (Regs.set_ne _ _ hrcx))
  · rw [hregs] at hw
    have hints : read64 w.mem (w.rsp + 136) = (-1 : BitVec 32) ++ (-1 : BitVec 32) :=
      hw.get 17 rfl
    refine ⟨fun d hrcx hr11 => ?_, hw.get 15 rfl, hw.get 16 rfl, (halves_of_read64 hints).2, hw.get 19 rfl,
      hw.get 20 rfl, hw.get 21 rfl, hw.get 22 rfl, hw.get 23 rfl⟩
    cases d with
    | rcx => exact absurd rfl hrcx
    | r11 => exact absurd rfl hr11
    | rax => exact hw.1 _ rfl
    | rdx => exact hw.get 2 rfl
    | rbx => exact hw.get 3 rfl
    | rbp => exact hw.get 4 rfl
    | rsi => exact hw.get 5 rfl
    | rdi => exact hw.get 6 rfl
    | r8 => exact hw.get 7 rfl
    | r9 => exact hw.get 8 rfl
    | r10 => exact hw.get 9 rfl
    | r12 => exact hw.get 11 rfl
    | r13 => exact hw.get 12 rfl
    | r14 => exact hw.get 13 rfl
    | r15 => exact hw.get 14 rfl

/-- The way back from a system call, cut into its parts. -/
theorem syscallReturn_eq (k : Kernel) : syscallReturn k
    = [.loadAbs k.current .rcx] ++ ([.load32 12 .rcx .rcx, .cmpl P_RUNNABLE .rcx, .jne]
      ++ ([.loadAbs k.current .rcx, .load 0 .rcx .rcx, .setCr3 .rcx]
        ++ [.addRsp (8 * 19), .iretq])) :=
  rfl

/-- The page table of the current process. -/
theorem exec_current (a : Word) (t : Machine) :
    ∃ v, exec [.loadAbs a .rcx, .load 0 .rcx .rcx, .setCr3 .rcx] t = some v ∧ v.mem = t.mem
      ∧ v.rsp = t.rsp ∧ (∀ d, d ≠ .rcx → v.gpr d = t.gpr d)
      ∧ v.cr3 = read64 t.mem (read64 t.mem a) := by
  refine ⟨_, rfl, rfl, rfl, ?_, ?_⟩
  · intro d hd
    exact (Regs.set_ne _ _ hd).trans (Regs.set_ne _ _ hd)
  · show read64 t.mem (read64 t.mem a + 0) = read64 t.mem (read64 t.mem a)
    exact congrArg (read64 t.mem) (BitVec.add_zero _)

/-- The return of `syscall` takes `%rcx` for itself and leaves the rest of the
    registers as they are. -/
theorem syscallReturn_spec (hrun : read32 t.mem (read64 t.mem k.current + 12) = P_RUNNABLE) :
    ∃ v, exec (syscallReturn k) t = some v ∧ (∀ d, d ≠ .rcx → v.gpr d = t.gpr d)
      ∧ v.rip = (readRegstate t.mem t.rsp).reg_rip
      ∧ v.cs = (readRegstate t.mem t.rsp).reg_cs.setWidth 16
      ∧ v.rflags = (readRegstate t.mem t.rsp).reg_rflags
      ∧ v.rsp = (readRegstate t.mem t.rsp).reg_rsp
      ∧ v.ss = (readRegstate t.mem t.rsp).reg_ss.setWidth 16
      ∧ v.cr3 = read64 t.mem (read64 t.mem k.current) := by
  have hst := (stacked_of_readRegstate (m := t.mem) (p := t.rsp) rfl).drop 19
  generalize readRegstate t.mem t.rsp = r at hst ⊢
  have hcheck := exec_check 12 .rcx .rcx P_RUNNABLE
    { t with regs := t.regs.set .rcx (read64 t.mem k.current) }
  rw [if_pos (show read32 t.mem ((t.regs.set .rcx (read64 t.mem k.current)).gpr .rcx + 12)
    = P_RUNNABLE by rw [Regs.set_same, hrun])] at hcheck
  obtain ⟨v, hexec, hmem, hrsp, hregs, hcr3⟩ := exec_current k.current
    { t with
      regs := (t.regs.set .rcx (read64 t.mem k.current)).set .rcx (P_RUNNABLE.setWidth 64)
      zf := true }
  rw [show t.rsp = v.rsp from hrsp.symm, show t.mem = v.mem from hmem.symm] at hst
  rw [syscallReturn_eq, exec_append, show exec [.loadAbs k.current .rcx] t
    = some { t with regs := t.regs.set .rcx (read64 t.mem k.current) } from rfl, Option.bind_some,
    exec_append, hcheck, Option.bind_some, exec_append, hexec, Option.bind_some,
    exec_iretq (n := 8 * 19) hst]
  refine ⟨_, rfl, ?_, rfl, rfl, rfl, rfl, rfl, hcr3⟩
  intro d hd
  exact (hregs d hd).trans ((Regs.set_ne _ _ hd).trans (Regs.set_ne _ _ hd))

end KernelEntry
