import Cs61.KernelFrames

/-! # Resuming an application

    An application runs on the two segments that the kernel made for it
    (`Application.cs_eq`, `Application.ss_eq`), so what `syscall_entry` pushes
    for them is what they were.  `frames_resume` puts the entry paths and the
    ways back together. -/

namespace KernelEntry

open X86Stack

/-! ## The segments of an application -/

section Segments

variable {taskstate size : Word} {sel : BitVec 16} {P : Word → Prop} {u : Cpu}

/-- A system segment is none of code or data. -/
theorem sysSegment_bit (d : Word) (hd : d ∈ setSysSegment taskstate size X86SEG_TSS 0) :
    d.getLsbD 44 = false := by
  rw [setSysSegment, List.mem_cons, List.mem_singleton] at hd
  rcases hd with rfl | rfl
  · simp [X86SEG_TSS, X86SEG_P]
  · rw [BitVec.getLsbD_ushiftRight]
    exact BitVec.getLsbD_of_ge _ _ (by decide)

/-- The code and data segments come first. -/
theorem selects_cases (h : Selects (gdtSegments taskstate size) sel P)
    (hP : ∀ d, P d → d.getLsbD 44 = true) :
    sel = SEGSEL_KERN_CODE + 3 ∧ P (setAppSegment (X86SEG_X ||| X86SEG_L) 0)
      ∨ sel = SEGSEL_KERN_DATA + 3 ∧ P (setAppSegment X86SEG_W 0)
      ∨ sel = SEGSEL_APP_CODE + 3 ∧ P (setAppSegment (X86SEG_X ||| X86SEG_L) 3)
      ∨ sel = SEGSEL_APP_DATA + 3 ∧ P (setAppSegment X86SEG_W 3) := by
  obtain ⟨hlow, d, hd, hPd⟩ := h
  have hsel : sel.toNat = 8 * (sel >>> 3).toNat + 3 := by
    have hmod := congrArg BitVec.toNat hlow
    rw [BitVec.toNat_and, show (7 : BitVec 16).toNat = 2 ^ 3 - 1 from rfl,
      Nat.and_two_pow_sub_one_eq_mod] at hmod
    rw [BitVec.toNat_ushiftRight, Nat.shiftRight_eq_div_pow]
    have : (3 : BitVec 16).toNat = 3 := rfl
    omega
  have hsys : ∀ e ∈ setSysSegment taskstate size X86SEG_TSS 0, e ≠ d := by
    intro e he heq
    have hbit := sysSegment_bit e he
    rw [heq, hP d hPd] at hbit
    cases hbit
  generalize (sel >>> 3).toNat = n at hd hsel
  match n, hd, hsel with
  | 0, hd, hsel =>
      have hzero := hP d hPd
      rw [← Option.some.inj hd] at hzero
      cases hzero
  | 1, hd, hsel => exact Or.inl ⟨BitVec.eq_of_toNat_eq hsel, Option.some.inj hd ▸ hPd⟩
  | 2, hd, hsel => exact Or.inr (Or.inl ⟨BitVec.eq_of_toNat_eq hsel, Option.some.inj hd ▸ hPd⟩)
  | 3, hd, hsel =>
      exact Or.inr (Or.inr (Or.inl ⟨BitVec.eq_of_toNat_eq hsel, Option.some.inj hd ▸ hPd⟩))
  | 4, hd, hsel =>
      exact Or.inr (Or.inr (Or.inr ⟨BitVec.eq_of_toNat_eq hsel, Option.some.inj hd ▸ hPd⟩))
  | 5, hd, hsel => exact absurd (Option.some.inj hd) (hsys _ List.mem_cons_self)
  | 6, hd, hsel =>
      exact absurd (Option.some.inj hd) (hsys _ (List.mem_cons_of_mem _ List.mem_cons_self))
  | n + 7, hd, hsel => cases hd

/-- The code selector of a process. -/
theorem Application.cs_eq (h : Application taskstate size u) : u.cs = SEGSEL_APP_CODE + 3 := by
  rcases selects_cases h.cs fun d hd => hd.segment with ⟨_, hd⟩ | ⟨_, hd⟩ | ⟨hsel, _⟩ | ⟨_, hd⟩
  · exact absurd hd.level (by decide)
  · exact absurd hd.code (by decide)
  · exact hsel
  · exact absurd hd.code (by decide)

/-- The data selector of a process. -/
theorem Application.ss_eq (h : Application taskstate size u) : u.ss = SEGSEL_APP_DATA + 3 := by
  rcases selects_cases h.ss fun d hd => hd.segment with ⟨_, hd⟩ | ⟨_, hd⟩ | ⟨_, hd⟩ | ⟨hsel, _⟩
  · exact absurd hd.data (by decide)
  · exact absurd hd.level (by decide)
  · exact absurd hd.data (by decide)
  · exact hsel

end Segments

/-! ## Back in the application -/

/-- All registers are as they were. -/
structure Restores (u v : Cpu) : Prop where
  gpr : ∀ d, v.gpr d = u.gpr d
  rsp : v.rsp = u.rsp
  fs : v.regs.fs = u.regs.fs
  gs : v.regs.gs = u.regs.gs
  rip : v.rip = u.rip
  cs : v.cs = u.cs
  rflags : v.rflags = u.rflags
  ss : v.ss = u.ss

/-- The registers that a system call keeps as a function does. -/
def calleeSaved : List Reg := [.rbx, .rbp, .r12, .r13, .r14, .r15]

/-- A system call is over: the registers that a call keeps are as they were. -/
structure Resumes (u v : Cpu) : Prop where
  gpr : ∀ d ∈ calleeSaved, v.gpr d = u.gpr d
  rsp : v.rsp = u.rsp
  rip : v.rip = u.rip
  cs : v.cs = u.cs
  rflags : v.rflags = u.rflags
  ss : v.ss = u.ss

/-- A C function that was called in `s` has returned in `t`.  It kept the
    callee-saved registers and the caller's frame. -/
structure Returned (s t : Machine) : Prop where
  gpr : ∀ d ∈ calleeSaved, t.gpr d = s.gpr d
  rsp : t.rsp = s.rsp
  frame : readRegstate t.mem s.rsp = readRegstate s.mem s.rsp

variable {k : Kernel} {s t u v : Machine} {taskstate size x : Word}

/-- Registers that are loaded from the frame are those that were saved. -/
theorem Loads.restores {num : Fin 256} {err : Word} (h : Loads (regstateOf u.toCpu num err) v.toCpu) :
    Restores u.toCpu v.toCpu := by
  have narrow : ∀ y : BitVec 16, (y.setWidth 64).setWidth 16 = y := by
    intro y
    rw [BitVec.setWidth_setWidth_of_le _ (by decide), BitVec.setWidth_eq]
  refine ⟨?_, h.rsp, h.fs.trans (narrow _), h.gs.trans (narrow _), h.rip, h.cs.trans (narrow _),
    h.rflags, h.ss.trans (narrow _)⟩
  intro d
  rw [Cpu.gpr, h.gpr]
  cases d <;> rfl

/-- Later, through a copy of the frame with another result. -/
theorem SavesCall.resumes {r : Regstate} (hr : SavesCall u.toCpu r)
    (happ : Application taskstate size u.toCpu) (h : Loads { r with reg_rax := x } v.toCpu) :
    Resumes u.toCpu v.toCpu ∧ v.gpr .rax = x := by
  refine ⟨⟨?_, h.rsp.trans hr.rsp, h.rip.trans hr.rip, ?_, h.rflags.trans hr.rflags, ?_⟩, ?_⟩
  · intro d hd
    have hkept : ({ r with reg_rax := x } : Regstate).gpr d = r.gpr d := by
      cases d with
      | rax => exact absurd hd (by decide)
      | _ => rfl
    rw [Cpu.gpr, h.gpr, hkept]
    exact hr.gpr d (ne_of_mem_of_not_mem hd (by decide)) (ne_of_mem_of_not_mem hd (by decide))
  · rw [h.cs, hr.cs, happ.cs_eq]
    decide
  · rw [h.ss, hr.ss, happ.ss_eq]
    decide
  · rw [Cpu.gpr, h.gpr]
    rfl

/-- The frames of the two ways into the kernel are `regstate`s, and the ways
    back take the application up where it was: `exception_return` on a copy of
    the frame, and for a system call the return of `syscall` as well as a later
    `exception_return`. -/
theorem frames_resume (k : Kernel) (taskstate size : Word) :
    (∀ (u : Machine) (num : Fin 256) (err : Word), ∃ s, takeException k num err u = some s
      ∧ readRegstate s.mem (s.gpr .rdi)
        = regstateOf u.toCpu num (if hasErrorCode num then err else 0)
      ∧ ∀ t : Machine, read32 t.mem (t.gpr .rdi + 12) = P_RUNNABLE →
          readRegstate t.mem (t.gpr .rdi + 16) = readRegstate s.mem (s.gpr .rdi) →
          ∃ v, exec exceptionReturn t = some v ∧ Restores u.toCpu v.toCpu)
    ∧ ∀ u : Machine, Application taskstate size u.toCpu → ∃ s, takeSyscall k u = some s
      ∧ SavesCall u.toCpu (readRegstate s.mem (s.gpr .rdi))
      ∧ (∀ t, Returned s t → read32 t.mem (read64 t.mem k.current + 12) = P_RUNNABLE →
          ∃ v, exec (syscallReturn k) t = some v ∧ Resumes u.toCpu v.toCpu
            ∧ v.gpr .rax = t.gpr .rax)
      ∧ ∀ (t : Machine) (x : Word), read32 t.mem (t.gpr .rdi + 12) = P_RUNNABLE →
          readRegstate t.mem (t.gpr .rdi + 16)
            = { readRegstate s.mem (s.gpr .rdi) with reg_rax := x } →
          ∃ v, exec exceptionReturn t = some v ∧ Resumes u.toCpu v.toCpu ∧ v.gpr .rax = x := by
  constructor
  · -- an exception, and the way back to what it has interrupted
    intro u num err
    obtain ⟨s, htake, -, -, hframe⟩ := exception_frame k u num err
    refine ⟨s, htake, hframe, ?_⟩
    intro t hrun hcopy
    obtain ⟨v, hexec, hloads, -⟩ := exceptionReturn_spec hrun
    rw [hcopy, hframe] at hloads
    exact ⟨v, hexec, hloads.restores⟩
  · -- a system call, which has two ways back
    intro u happ
    obtain ⟨s, htake, -, hrdi, -, hkept, hframe⟩ := syscall_frame k u
    refine ⟨s, htake, hframe, ?_, ?_⟩
    · intro t hret hrun
      obtain ⟨v, hexec, hgpr, hrip, hcs, hrflags, hrsp, hss, -⟩ := syscallReturn_spec hrun
      rw [hret.rsp, hret.frame, ← hrdi] at hrip hcs hrflags hrsp hss
      refine ⟨v, hexec, ⟨?_, hrsp.trans hframe.rsp, hrip.trans hframe.rip, ?_,
        hrflags.trans hframe.rflags, ?_⟩, hgpr .rax (by decide)⟩
      · -- the registers that a call has to keep
        intro d hd
        have hne : ∀ e, e ∉ calleeSaved → d ≠ e := fun e he => ne_of_mem_of_not_mem hd he
        rw [hgpr d (hne _ (by decide)), hret.gpr d hd]
        exact hkept d (hne _ (by decide)) (hne _ (by decide)) (hne _ (by decide))
          (hne _ (by decide))
      · rw [hcs, hframe.cs, happ.cs_eq]
        decide
      · rw [hss, hframe.ss, happ.ss_eq]
        decide
    · -- the process is run later, with the answer in `rax`
      intro t x hrun hcopy
      obtain ⟨v, hexec, hloads, -⟩ := exceptionReturn_spec hrun
      rw [hcopy] at hloads
      exact ⟨v, hexec, hframe.resumes happ hloads⟩

/-! ## An example -/

/-- A kernel whose first process is to be run. -/
def smallKernel : Kernel where
  kernel_pagetable := 0x50000
  current := 0x60000
  interrupt_descriptors := fun _ => 0x40000
  syscall_entry := 0x40000

/-- The process, with its registers before it traps. -/
def smallApp : Machine where
  regs := { gpr := fun _ => 7, fs := 0x23, gs := 0x23 }
  rsp := 0x300000
  rip := 0x100000
  rflags := 0x202
  cs := 0x1B
  ss := 0x23
  cr3 := 0x51000
  zf := false
  mem := fun _ => 0

/-- The small process is one. -/
theorem smallApp_application : Application 0x62000 104 smallApp.toCpu where
  cs := ⟨by decide, _, rfl, ⟨by decide, by decide, by decide, by decide⟩⟩
  ss := ⟨by decide, _, rfl, ⟨by decide, by decide, by decide, by decide, by decide⟩⟩

/-- A process whose `regs` are at `q`, made runnable. -/
theorem runnable_at (s : Machine) (q : Word) :
    ∃ t : Machine, read32 t.mem (t.gpr .rdi + 12) = P_RUNNABLE
      ∧ readRegstate t.mem (t.gpr .rdi + 16) = readRegstate s.mem q := by
  have hstate : read64 (write64 s.mem (q - 8) (P_RUNNABLE ++ (0 : BitVec 32))) (q - 8)
      = P_RUNNABLE ++ (0 : BitVec 32) := read64_write64_same
  refine ⟨{ s with
    regs := s.regs.set .rdi (q - 16)
    mem := write64 s.mem (q - 8) (P_RUNNABLE ++ (0 : BitVec 32)) }, ?_, ?_⟩
  · show read32 _ (q - 16 + 12) = P_RUNNABLE
    rw [show q - 16 + 12 = q - 8 + 4 by bv_omega]
    exact (halves_of_read64 hstate).1
  · show readRegstate _ (q - 16 + 16) = _
    rw [BitVec.sub_add_cancel]
    exact readRegstate_write64 (by bv_omega) (by bv_omega)

/-- And one that is the current process of the small kernel. -/
theorem runnable_current (s : Machine) (hs : s.rsp = KERNEL_STACK_TOP - 192) :
    ∃ t, Returned s t
      ∧ read32 t.mem (read64 t.mem smallKernel.current + 12) = P_RUNNABLE := by
  have hstate : read64 (write64 (write64 s.mem 0x61008 (P_RUNNABLE ++ (0 : BitVec 32)))
      smallKernel.current 0x61000) 0x61008 = P_RUNNABLE ++ (0 : BitVec 32) := by
    rw [read64_write64_ne (by decide) (by decide), read64_write64_same]
  refine ⟨{ s with
    mem := write64 (write64 s.mem 0x61008 (P_RUNNABLE ++ (0 : BitVec 32)))
      smallKernel.current 0x61000 }, ⟨fun _ _ => rfl, rfl, ?_⟩, ?_⟩
  · show readRegstate (write64 _ _ _) s.rsp = _
    rw [hs, readRegstate_write64 (by decide) (by decide),
      readRegstate_write64 (by decide) (by decide)]
  · show read32 _ (read64 (write64 _ _ _) _ + 12) = _
    rw [read64_write64_same]
    exact (halves_of_read64 hstate).1

/-- The two ways back of the small application. -/
theorem frames_resume_small :
    (∃ s t v : Machine, takeException smallKernel 14 4 smallApp = some s
      ∧ readRegstate t.mem (t.gpr .rdi + 16) = readRegstate s.mem (s.gpr .rdi)
      ∧ exec exceptionReturn t = some v ∧ Restores smallApp.toCpu v.toCpu)
    ∧ ∃ s t v t' w : Machine, takeSyscall smallKernel smallApp = some s
      ∧ Returned s t ∧ exec (syscallReturn smallKernel) t = some v
      ∧ Resumes smallApp.toCpu v.toCpu
      ∧ exec exceptionReturn t' = some w ∧ Resumes smallApp.toCpu w.toCpu := by
  obtain ⟨hexc, hsys⟩ := frames_resume smallKernel 0x62000 104
  constructor
  · obtain ⟨s, htake, -, hback⟩ := hexc smallApp 14 4
    obtain ⟨t, hrun, hcopy⟩ := runnable_at s (s.gpr .rdi)
    obtain ⟨v, hexec, hv⟩ := hback t hrun hcopy
    exact ⟨s, t, v, htake, hcopy, hexec, hv⟩
  · obtain ⟨s, htake, -, hreturn, hlater⟩ := hsys smallApp smallApp_application
    obtain ⟨s', htake', hrsp, -⟩ := syscall_frame smallKernel smallApp
    obtain rfl : s = s' := Option.some.inj (htake.symm.trans htake')
    obtain ⟨t, hret, hrun⟩ := runnable_current s hrsp
    obtain ⟨v, hexec, hv, -⟩ := hreturn t hret hrun
    obtain ⟨t', hrun', hcopy'⟩ := runnable_at s (s.gpr .rdi)
    obtain ⟨w, hexec', hw, -⟩ := hlater t' (readRegstate s.mem (s.gpr .rdi)).reg_rax hrun' hcopy'
    exact ⟨s, t, v, t', w, htake, hret, hexec, hv, hexec', hw⟩

end KernelEntry
