import Cs61.X86Stack

/-! # The kernel's entry and return paths

    `k-exception.S`: the exception handlers, `exception_return` and
    `syscall_entry`, with the layout of `regstate` and `proc` and the segments
    that `k-hardware.cc` sets up. -/

namespace KernelEntry

open X86Stack

/-! ## Layout -/

/-- The kernel's stack grows down from here. -/
def KERNEL_STACK_TOP : Word := 0x80000

/-- The process can be run. -/
def P_RUNNABLE : BitVec 32 := 1

/-- The selector of the kernel's code segment. -/
def SEGSEL_KERN_CODE : BitVec 16 := 0x8
/-- That of its data segment. -/
def SEGSEL_KERN_DATA : BitVec 16 := 0x10
/-- The selector of the code segment of processes. -/
def SEGSEL_APP_CODE : BitVec 16 := 0x18
/-- That of their data segment. -/
def SEGSEL_APP_DATA : BitVec 16 := 0x20
/-- The selector of the task state. -/
def SEGSEL_TASKSTATE : BitVec 16 := 0x28

/-- `struct regstate`. -/
@[ext]
structure Regstate where
  reg_rax : Word
  reg_rcx : Word
  reg_rdx : Word
  reg_rbx : Word
  reg_rbp : Word
  reg_rsi : Word
  reg_rdi : Word
  reg_r8 : Word
  reg_r9 : Word
  reg_r10 : Word
  reg_r11 : Word
  reg_r12 : Word
  reg_r13 : Word
  reg_r14 : Word
  reg_r15 : Word
  reg_fs : Word
  reg_gs : Word
  reg_intno : BitVec 32
  reg_swapgs : BitVec 32
  reg_errcode : Word
  reg_rip : Word
  reg_cs : Word
  reg_rflags : Word
  reg_rsp : Word
  reg_ss : Word

/-- The `regstate` at `p`. -/
def readRegstate (m : Mem) (p : Word) : Regstate where
  reg_rax := read64 m p
  reg_rcx := read64 m (p + 8)
  reg_rdx := read64 m (p + 16)
  reg_rbx := read64 m (p + 24)
  reg_rbp := read64 m (p + 32)
  reg_rsi := read64 m (p + 40)
  reg_rdi := read64 m (p + 48)
  reg_r8 := read64 m (p + 56)
  reg_r9 := read64 m (p + 64)
  reg_r10 := read64 m (p + 72)
  reg_r11 := read64 m (p + 80)
  reg_r12 := read64 m (p + 88)
  reg_r13 := read64 m (p + 96)
  reg_r14 := read64 m (p + 104)
  reg_r15 := read64 m (p + 112)
  reg_fs := read64 m (p + 120)
  reg_gs := read64 m (p + 128)
  reg_intno := read32 m (p + 136)
  reg_swapgs := read32 m (p + 140)
  reg_errcode := read64 m (p + 144)
  reg_rip := read64 m (p + 152)
  reg_cs := read64 m (p + 160)
  reg_rflags := read64 m (p + 168)
  reg_rsp := read64 m (p + 176)
  reg_ss := read64 m (p + 184)

/-- Its words from low to high addresses. -/
def Regstate.words (r : Regstate) : List Word :=
  [r.reg_rax, r.reg_rcx, r.reg_rdx, r.reg_rbx, r.reg_rbp, r.reg_rsi, r.reg_rdi, r.reg_r8, r.reg_r9,
    r.reg_r10, r.reg_r11, r.reg_r12, r.reg_r13, r.reg_r14, r.reg_r15, r.reg_fs, r.reg_gs,
    r.reg_swapgs ++ r.reg_intno, r.reg_errcode, r.reg_rip, r.reg_cs, r.reg_rflags, r.reg_rsp,
    r.reg_ss]

/-- The general registers of a saved state, by name. -/
def Regstate.gpr (r : Regstate) : Reg → Word
  | .rax => r.reg_rax
  | .rcx => r.reg_rcx
  | .rdx => r.reg_rdx
  | .rbx => r.reg_rbx
  | .rbp => r.reg_rbp
  | .rsi => r.reg_rsi
  | .rdi => r.reg_rdi
  | .r8 => r.reg_r8
  | .r9 => r.reg_r9
  | .r10 => r.reg_r10
  | .r11 => r.reg_r11
  | .r12 => r.reg_r12
  | .r13 => r.reg_r13
  | .r14 => r.reg_r14
  | .r15 => r.reg_r15

/-- The registers of `c` as the exception `num` saves them. -/
def regstateOf (c : Cpu) (num : Fin 256) (err : Word) : Regstate where
  reg_rax := c.gpr .rax
  reg_rcx := c.gpr .rcx
  reg_rdx := c.gpr .rdx
  reg_rbx := c.gpr .rbx
  reg_rbp := c.gpr .rbp
  reg_rsi := c.gpr .rsi
  reg_rdi := c.gpr .rdi
  reg_r8 := c.gpr .r8
  reg_r9 := c.gpr .r9
  reg_r10 := c.gpr .r10
  reg_r11 := c.gpr .r11
  reg_r12 := c.gpr .r12
  reg_r13 := c.gpr .r13
  reg_r14 := c.gpr .r14
  reg_r15 := c.gpr .r15
  reg_fs := c.regs.fs.setWidth 64
  reg_gs := c.regs.gs.setWidth 64
  reg_intno := BitVec.ofNat 32 num
  reg_swapgs := 0
  reg_errcode := err
  reg_rip := c.rip
  reg_cs := c.cs.setWidth 64
  reg_rflags := c.rflags
  reg_rsp := c.rsp
  reg_ss := c.ss.setWidth 64

/-- What the linker fixes. -/
structure Kernel where
  kernel_pagetable : Word
  current : Word
  interrupt_descriptors : Fin 256 → Word
  syscall_entry : Word

/-! ## `k-exception.S` -/

/-- A double fault. -/
def INT_DF : Fin 256 := 8
/-- The first of the exceptions with an error code behind it. -/
def INT_TS : Fin 256 := 10
/-- A page fault. -/
def INT_PF : Fin 256 := 14
/-- An alignment check. -/
def INT_AC : Fin 256 := 17

/-- `exception_handler num`, up to the jump. -/
def exceptionHandler (num : Fin 256) : List Instr :=
  (if num ≠ INT_DF ∧ (num < INT_TS ∨ num > INT_PF) ∧ num ≠ INT_AC then [.pushImm 0] else [])
    ++ [.pushImm (BitVec.ofNat 64 num)]

/-- The pushes of `exception_entry`. -/
def saveRegs : List Instr :=
  [.pushSeg .gs, .pushSeg .fs, .pushq .r15, .pushq .r14, .pushq .r13, .pushq .r12, .pushq .r11,
    .pushq .r10, .pushq .r9, .pushq .r8, .pushq .rdi, .pushq .rsi, .pushq .rbp, .pushq .rbx,
    .pushq .rdx, .pushq .rcx, .pushq .rax]

/-- `exception_entry`, up to `call exception`. -/
def exceptionEntry (k : Kernel) : List Instr :=
  saveRegs ++ [.getRsp .rdi, .movImm k.kernel_pagetable .rax, .setCr3 .rax]

/-- The pops of `exception_return`. -/
def loadRegs : List Instr :=
  [.popq .rax, .popq .rcx, .popq .rdx, .popq .rbx, .popq .rbp, .popq .rsi, .popq .rdi, .popq .r8,
    .popq .r9, .popq .r10, .popq .r11, .popq .r12, .popq .r13, .popq .r14, .popq .r15,
    .popSeg .fs, .popSeg .gs]

/-- `exception_return`; `none` is `proc_runnable_fail`. -/
def exceptionReturn : List Instr :=
  [.load32 12 .rdi .rax, .cmpl P_RUNNABLE .rax, .jne, .load 0 .rdi .rax, .setCr3 .rax,
    .leaRsp 16 .rdi] ++ loadRegs ++ [.addRsp 16, .iretq]

/-- The pushes of `syscall_entry` below the saved `%rsp`. -/
def saveCall : List Instr :=
  [.pushq .r11, .pushImm (SEGSEL_APP_CODE.setWidth 64 + 3), .pushq .rcx,
    .subRsp 8, .pushImm (-1), .pushSeg .gs, .pushSeg .fs,
    .pushq .r15, .pushq .r14, .pushq .r13, .pushq .r12, .subRsp 8, .pushq .r10, .pushq .r9,
    .pushq .r8, .pushq .rdi, .pushq .rsi, .pushq .rbp, .pushq .rbx, .pushq .rdx, .subRsp 8,
    .pushq .rax]

/-- `syscall_entry`, up to `call syscall`. -/
def syscallEntry (k : Kernel) : List Instr :=
  [.storeRsp (KERNEL_STACK_TOP - 16), .setRsp KERNEL_STACK_TOP,
    .pushImm (SEGSEL_APP_DATA.setWidth 64 + 3), .subRsp 8] ++ saveCall
    ++ [.movImm k.kernel_pagetable .rax, .setCr3 .rax, .getRsp .rdi]

/-- `syscall_entry`, from the return of `syscall`. -/
def syscallReturn (k : Kernel) : List Instr :=
  [.loadAbs k.current .rcx, .load32 12 .rcx .rcx, .cmpl P_RUNNABLE .rcx, .jne,
    .loadAbs k.current .rcx, .load 0 .rcx .rcx, .setCr3 .rcx, .addRsp (8 * 19), .iretq]

/-! ## The hardware -/

/-- The exceptions that come with an error code.  The newer ones belong to
    extensions that the kernel leaves off. -/
def hasErrorCode (num : Fin 256) : Bool := num ∈ [8, 10, 11, 12, 13, 14, 17]

/-- From an exception in an application to `call exception`. -/
def takeException (k : Kernel) (num : Fin 256) (err : Word) (s : Machine) : Option Machine :=
  exec (exceptionHandler num ++ exceptionEntry k)
    (deliver KERNEL_STACK_TOP (k.interrupt_descriptors num) SEGSEL_KERN_CODE
      (if hasErrorCode num then some err else none) s)

/-- `EFLAGS_TF | EFLAGS_DF | EFLAGS_IF | EFLAGS_IOPL_MASK | EFLAGS_AC | EFLAGS_NT`. -/
def fmask : Word := 0x100 ||| 0x400 ||| 0x200 ||| 0x3000 ||| 0x40000 ||| 0x4000

/-- From a `syscall` instruction to `call syscall`. -/
def takeSyscall (k : Kernel) (s : Machine) : Option Machine :=
  exec (syscallEntry k)
    (syscallInstr k.syscall_entry fmask SEGSEL_KERN_CODE (SEGSEL_KERN_CODE + 8) s)

/-! ## Segments -/

/-- A segment of code or data, not of the system. -/
def X86SEG_S : Word := 1 <<< 44
/-- The segment is present. -/
def X86SEG_P : Word := 1 <<< 47
/-- Code of 64 bits. -/
def X86SEG_L : Word := 1 <<< 53
/-- Data that can be written. -/
def X86SEG_W : Word := 0x2 <<< 40
/-- Code. -/
def X86SEG_X : Word := 0x8 <<< 40
/-- A task state. -/
def X86SEG_TSS : Word := 0x9 <<< 40

/-- `set_app_segment`. -/
def setAppSegment (type dpl : Word) : Word := type ||| X86SEG_S ||| dpl <<< 45 ||| X86SEG_P

/-- The two words of `set_sys_segment`. -/
def setSysSegment (addr size type dpl : Word) : List Word :=
  [(addr &&& 0x0000000000FFFFFF) <<< 16 ||| (addr &&& 0x00000000FF000000) <<< 32
      ||| ((size - 1) &&& 0x0FFFF) ||| ((size - 1) &&& 0xF0000) <<< 48
      ||| type ||| dpl <<< 45 ||| X86SEG_P,
    addr >>> 32]

/-- `gdt_segments` after `init_cpu_hardware`. -/
def gdtSegments (taskstate size : Word) : List Word :=
  [0, setAppSegment (X86SEG_X ||| X86SEG_L) 0, setAppSegment X86SEG_W 0,
    setAppSegment (X86SEG_X ||| X86SEG_L) 3, setAppSegment X86SEG_W 3]
    ++ setSysSegment taskstate size X86SEG_TSS 0

/-- The processor's rule for `%cs` of an application: a present code segment
    that privilege level 3 may run. -/
structure RunsCode (d : Word) : Prop where
  present : d.getLsbD 47 = true
  segment : d.getLsbD 44 = true
  code : d.getLsbD 43 = true
  level : (d >>> 45) &&& 3 = 3 ∨ d.getLsbD 42 = true

/-- And the one for `%ss`: writable data of level 3. -/
structure HoldsStack (d : Word) : Prop where
  present : d.getLsbD 47 = true
  segment : d.getLsbD 44 = true
  data : d.getLsbD 43 = false
  writable : d.getLsbD 41 = true
  level : (d >>> 45) &&& 3 = 3

/-- `sel` names a descriptor of the table, at the level of an application. -/
def Selects (gdt : List Word) (sel : BitVec 16) (P : Word → Prop) : Prop :=
  sel &&& 7 = 3 ∧ ∃ d, gdt[(sel >>> 3).toNat]? = some d ∧ P d

/-- The segments of a running application. -/
structure Application (taskstate size : Word) (u : Cpu) : Prop where
  cs : Selects (gdtSegments taskstate size) u.cs RunsCode
  ss : Selects (gdtSegments taskstate size) u.ss HoldsStack

end KernelEntry
