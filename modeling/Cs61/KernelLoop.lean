import Cs61.BootTables
import Cs61.Keyboard
import Cs61.ProcessSetup

/-! # The kernel and its processes

    `kernel.cc` as a transition system: a process runs until an exception or a
    system call, the kernel handles it, and `schedule` looks for the next
    process while it listens to the keyboard.  What processes do between two
    traps is left open, so that a run is any sequence of traps with any
    registers, and of passes of the kernel's own loops.

    `step_outcome` says all that a step can do. -/

namespace KernelLoop

open PhysPages ProcessSetup KernelEntry
open PageTable (Word)

/-! ## State -/

/-- There are as many slots for processes. -/
def MAXNPROC : Nat := 16
/-- The end of the virtual memory of processes. -/
def MEMSIZE_VIRTUAL : Word := 0x300000
/-- The slot is not used. -/
def P_FREE : BitVec 32 := 0
/-- The process has faulted and is not run any more. -/
def P_FAULTED : BitVec 32 := 3
/-- The interrupts of the timer in a second. -/
def HZ : BitVec 64 := 100
/-- The interrupt of the timer. -/
def INT_TIMER : BitVec 32 := 32
/-- The exception of a page fault. -/
def INT_PAGEFAULT : BitVec 32 := 14
/-- The error code of a page fault says that it was in user mode. -/
def PTE_U : Word := 0x4
/-- `sys_getpid`. -/
def SYSCALL_GETPID : Word := 1
/-- `sys_yield`. -/
def SYSCALL_YIELD : Word := 2
/-- `sys_panic`. -/
def SYSCALL_PANIC : Word := 3
/-- `sys_page_alloc`. -/
def SYSCALL_PAGE_ALLOC : Word := 4

/-- What does not change while the kernel runs: its page table, what the linker
    fixes, and what `memusage::refresh` leaves in its page. -/
structure Boot where
  site : BootTables.Site
  tables : PageTable.Mem
  maps : BootTables.Maps site 512 tables
  kernel : Kernel
  table : kernel.kernel_pagetable = site.addr
  exceptionEntry : Word
  entryStart : 0x1000 ≤ exceptionEntry.toNat
  entryEnd : exceptionEntry.toNat < 0x200000
  kernelEnd : Nat
  imageEnd : kernelEnd ≤ PROC_START_ADDR
  marks : KState → Nat → Nat → UInt8

/-- The kernel's variables.  `v` is the page of `memusage`. -/
structure Sys where
  kernel : KState
  current : Nat
  ticks : BitVec 64
  keyboard : Keyboard.State
  last_ticks : BitVec 32
  showing : Nat
  v : Option Nat

/-- Who runs. -/
inductive Mode where
  /-- `current`, with the result of a system call if there is one. -/
  | user (rax : Option Word)
  /-- The loop of `schedule`. -/
  | spinning (pid : Nat) (spins : BitVec 32)
  /-- The loop of `fail`, after a failed assertion or a panic. -/
  | failed (message : String)
  | rebooting (argument : String)
  | off
  /-- The kernel writes to its own memory, or to memory that is not there. -/
  | wild

/-- The kernel, and what the processor does. -/
structure Config where
  sys : Sys
  mode : Mode

/-- Something that may fail, in the state it leaves. -/
def Config.orFail (x : Except (Sys × String) Sys) (f : Sys → Config) : Config :=
  match x with
  | .error (s, message) => { sys := s, mode := .failed message }
  | .ok s => f s

/-! ## The keyboard and the memory viewer -/

/-- `check_keyboard()`; `data` is what the keyboard sends. -/
def checkKeyboard (data : Option UInt8) (s : Sys) (f : Sys → Config) : Config :=
  let c := (Keyboard.keyboardReadc data s.keyboard).1
  let s := { s with keyboard := (Keyboard.keyboardReadc data s.keyboard).2 }
  if c = 0x61 ∨ c = 0x66 ∨ c = 0x65 then
    let argument := "fork"
    let argument := if c = 0x61 then "allocators" else if c = 0x65 then "exit" else argument
    { sys := s, mode := .rebooting argument }
  else if c = 0x03 ∨ c = 0x71 then { sys := s, mode := .off }
  else f s

/-- The page at `v` is cleared and filled again. -/
def fillMarks (b : Boot) (v : Nat) (k : KState) : KState :=
  { k with mem := fun x => if v ≤ x ∧ x < v + PAGESIZE then b.marks k v x else k.mem x }

/-- `mu.refresh()`. -/
def refresh (b : Boot) (s : Sys) : Except (Sys × String) Sys :=
  match s.v with
  | some v => .ok { s with kernel := fillMarks b v s.kernel }
  | none =>
      match kalloc b.kernelEnd PAGESIZE s.kernel with
      | (none, k) => .error ({ s with kernel := k }, "v_ != nullptr")
      | (some v, k) => .ok { s with kernel := fillMarks b v k, v := some v }

/-- `console_memviewer(vmp)`. -/
def consoleMemviewer (b : Boot) (vmp : Option Nat) (s : Sys) : Except (Sys × String) Sys :=
  if (s.kernel.ptable 0).state = P_FREE then
    (refresh b s).bind fun s =>
      match vmp with
      | none => .ok s
      | some p =>
          if (s.kernel.ptable p).pagetable ≠ 0 then .ok s
          else .error (s, "vmp->pagetable != nullptr")
  else .error (s, "ptable[0].state == P_FREE")

/-- `ptable[showing].state != P_FREE && ptable[showing].pagetable`. -/
def isShown (s : Sys) (pid : Nat) : Bool :=
  (s.kernel.ptable pid).state != P_FREE && (s.kernel.ptable pid).pagetable != 0

/-- `for (int search = 0; !p && search < MAXNPROC; ++search)`, with `n` passes to go. -/
def search (good : Nat → Bool) : Nat → Nat → Option Nat × Nat
  | 0, showing => (none, showing)
  | n + 1, showing =>
      if good showing then (some showing, showing)
      else search good n ((showing + 1) % MAXNPROC)

/-- `memshow()`. -/
def memshow (b : Boot) (s : Sys) : Except (Sys × String) Sys :=
  let s := if s.last_ticks = 0 ∨ HZ / 2 ≤ s.ticks - s.last_ticks.setWidth 64 then
      { s with last_ticks := s.ticks.setWidth 32, showing := (s.showing + 1) % MAXNPROC }
    else s
  let found := search (isShown s) MAXNPROC s.showing
  consoleMemviewer b found.1 { s with showing := found.2 }

/-! ## `schedule` and `run` -/

/-- `ptable[pid].member = …`. -/
def Sys.setProc (s : Sys) (pid : Nat) (f : Proc → Proc) : Sys :=
  { s with kernel := ProcessSetup.setProc pid f s.kernel }

/-- `check_process_registers(p)`: the assertion that fails. -/
def checkProcessRegisters (regs : Regstate) : Option String :=
  if ¬ 0x100000 ≤ regs.reg_rsp then some "p->regs.reg_rsp >= PROC_START_ADDR"
  else if ¬ regs.reg_rsp ≤ MEMSIZE_VIRTUAL then some "p->regs.reg_rsp <= MEMSIZE_VIRTUAL"
  else if ¬ regs.reg_cs &&& 3 = 3 then some "(p->regs.reg_cs & 3) == 3"
  else none

/-- `check_pagetable(pagetable)`: the assertion that fails. -/
def checkPagetable (b : Boot) (pagetable : Word) : Option String :=
  match BootTables.checkPagetable b.tables b.site b.exceptionEntry pagetable with
  | .ok () => none
  | .error (.assertFail expr _) => some expr
  | .error (.panic format _) => some format
  | .error .constWrite => some ""

/-- `run(p)`. -/
def run (b : Boot) (pid : Nat) (s : Sys) : Config :=
  if (s.kernel.ptable pid).state = P_RUNNABLE then
    let s := { s with current := pid }
    match checkProcessRegisters (s.kernel.ptable pid).regs with
    | some message => { sys := s, mode := .failed message }
    | none =>
        match checkPagetable b (s.kernel.ptable pid).pagetable with
        | some message => { sys := s, mode := .failed message }
        | none => { sys := s, mode := .user none }
  else { sys := s, mode := .failed "p->state == P_RUNNABLE" }

/-- `schedule()`, up to its loop. -/
def schedule (s : Sys) : Config :=
  { sys := s, mode := .spinning (s.kernel.ptable s.current).pid 1 }

/-- A pass of the loop. -/
def schedulePass (b : Boot) (data : Option UInt8) (s : Sys) (pid : Nat) (spins : BitVec 32) :
    Config :=
  let pid := (pid + 1) % MAXNPROC
  if (s.kernel.ptable pid).state = P_RUNNABLE then run b pid s
  else checkKeyboard data s fun s =>
    if spins % 4096 = 0 then
      .orFail (memshow b s) fun s => { sys := s, mode := .spinning pid (spins + 1) }
    else { sys := s, mode := .spinning pid (spins + 1) }

/-! ## Traps -/

/-- The assignments to members of `*current`. -/
def withRegs (regs : Regstate) (p : Proc) : Proc := { p with regs := regs }
/-- The process that has faulted. -/
def faulted (p : Proc) : Proc := { p with state := P_FAULTED }
/-- The process that has yielded gets 0 as its result. -/
def yielded (p : Proc) : Proc := { p with regs := { p.regs with reg_rax := 0 } }

/-- `current->regs = *regs`. -/
def saveRegs (regs : Regstate) (s : Sys) : Sys := s.setProc s.current (withRegs regs)

/-- The end of `exception`. -/
def resume (b : Boot) (s : Sys) : Config :=
  if (s.kernel.ptable s.current).state = P_RUNNABLE then run b s.current s else schedule s

/-- The `switch` of `exception`. -/
def handleException (b : Boot) (regs : Regstate) (s : Sys) : Config :=
  if regs.reg_intno = INT_TIMER then schedule { s with ticks := s.ticks + 1 }
  else if regs.reg_intno = INT_PAGEFAULT then
    if regs.reg_errcode &&& PTE_U = 0 then
      { sys := s, mode := .failed "Kernel page fault on %p (%s %s, rip=%p)!\n" }
    else resume b (s.setProc s.current faulted)
  else { sys := s, mode := .failed "Unhandled exception %d (rip=%p)!\n" }

/-- `exception(regs)`. -/
def exception (b : Boot) (regs : Regstate) (data : Option UInt8) (s : Sys) : Config :=
  let s := saveRegs regs s
  let shown := if regs.reg_intno ≠ INT_PAGEFAULT ∨ regs.reg_errcode &&& PTE_U ≠ 0 then memshow b s
    else .ok s
  .orFail shown fun s => checkKeyboard data s fun s => handleException b regs s

/-- `syscall` returns. -/
def answer (s : Sys) (rax : Word) : Config :=
  if (s.kernel.ptable s.current).state = P_RUNNABLE then { sys := s, mode := .user (some rax) }
  else { sys := s, mode := .failed "current->state == P_RUNNABLE" }

/-- Zeroing the page at `addr` touches memory that is not there, or the kernel's. -/
def harmful (kernelEnd addr : Nat) : Bool :=
  addr < PAGESIZE || addr + PAGESIZE > MEMSIZE_PHYSICAL
    || (addr < kernelEnd && KERNEL_START_ADDR < addr + PAGESIZE)
    || (addr < STACK_TOP && STACK_TOP - PAGESIZE < addr + PAGESIZE)

/-- `syscall_page_alloc(addr)`. -/
def pageAlloc (b : Boot) (addr : Word) (s : Sys) : Config :=
  if addr.toNat / PAGESIZE < NPAGES then
    match syscallPageAlloc addr.toNat s.kernel with
    | none => { sys := s, mode := .failed "physpages[addr / PAGESIZE].refcount == 0" }
    | some (r, k) =>
        if harmful b.kernelEnd addr.toNat then { sys := s, mode := .wild }
        else answer { s with kernel := k } (BitVec.ofInt 64 r)
  else { sys := s, mode := .wild }

/-- The `switch` of `syscall`. -/
def handleSyscall (b : Boot) (regs : Regstate) (s : Sys) : Config :=
  if regs.reg_rax = SYSCALL_PANIC then
    { sys := s, mode := .failed (if regs.reg_rdi = 0 then "USER PANIC" else "USER PANIC: %s") }
  else if regs.reg_rax = SYSCALL_GETPID then
    answer s (BitVec.ofNat 64 (s.kernel.ptable s.current).pid)
  else if regs.reg_rax = SYSCALL_YIELD then
    schedule (s.setProc s.current yielded)
  else if regs.reg_rax = SYSCALL_PAGE_ALLOC then pageAlloc b regs.reg_rdi s
  else { sys := s, mode := .failed "Unhandled system call %ld (pid=%d, rip=%p)!\n" }

/-- `syscall(regs)`. -/
def syscall (b : Boot) (regs : Regstate) (data : Option UInt8) (s : Sys) : Config :=
  .orFail (memshow b (saveRegs regs s)) fun s =>
    checkKeyboard data s fun s => handleSyscall b regs s

/-! ## Runs -/

/-- What happens next.  A process leaves its own memory and registers behind, and
    the keyboard may have something to say. -/
inductive Action where
  | exception (mem : Nat → UInt8) (regs : Regstate) (data : Option UInt8)
  | syscall (mem : Nat → UInt8) (regs : Regstate) (data : Option UInt8)
  | pass (data : Option UInt8)

/-- The kernel with what a process has written to memory. -/
def Sys.setMem (s : Sys) (mem : Nat → UInt8) : Sys := { s with kernel := { s.kernel with mem := mem } }

/-- One step: a trap from the process that runs, or a pass of the scheduler. -/
def step (b : Boot) (c : Config) : Action → Option Config
  | .exception mem regs data =>
      match c.mode with
      | .user _ => some (exception b regs data (c.sys.setMem mem))
      | _ => none
  | .syscall mem regs data =>
      match c.mode with
      | .user _ => some (syscall b regs data (c.sys.setMem mem))
      | _ => none
  | .pass data =>
      match c.mode with
      | .spinning pid spins => some (schedulePass b data c.sys pid spins)
      | .failed message =>
          some (checkKeyboard data c.sys fun s => { sys := s, mode := .failed message })
      | _ => none

/-- A run: the actions one after the other. -/
def steps (b : Boot) (c : Config) : List Action → Option Config
  | [] => some c
  | a :: acts => (step b c a).bind fun c' => steps b c' acts

/-! ## `kernel_start` -/

/-- `program_image(name).empty()`. -/
def isEmpty : Option ElfHeader → Bool
  | none => true
  | some elf => elf.programs.isEmpty

/-- The processes that `kernel_start` sets up, unless an assertion fails. -/
def setupProcesses (b : Boot) (ramimages : List (String × ElfHeader)) (command : String)
    (s : KState) : Option KState := do
  let pgm ← programImage ramimages command
  if isEmpty pgm then
    let s ← processSetup b.kernel ramimages 1 "allocator" s
    let s ← processSetup b.kernel ramimages 2 "allocator2" s
    let s ← processSetup b.kernel ramimages 3 "allocator3" s
    processSetup b.kernel ramimages 4 "allocator4" s
  else processSetup b.kernel ramimages 1 command s

/-- `ptable[i].pid = i; ptable[i].state = P_FREE`. -/
def emptyTable (i : Nat) : Proc := { pagetable := 0, pid := i, state := P_FREE, regs := zeroRegs }

/-- The kernel's variables before `kernel_start`. -/
def initialSys (k : KState) : Sys where
  kernel := k
  current := 0
  ticks := 1
  keyboard := { modifiers := 0, last_escape := 0 }
  last_ticks := 0
  showing := 0
  v := none

/-- `kernel_start(command)`, on memory that is not in use. -/
def kernelStart (b : Boot) (firstProcess : String) (ramimages : List (String × ElfHeader))
    (command : Option String) (mem : Nat → UInt8) : Option Config :=
  (setupProcesses b ramimages (command.getD firstProcess)
      { mem := mem, physpages := fun _ => 0, ptable := emptyTable }).map fun s =>
    run b 1 (initialSys s)

/-! ## What a step does -/

/-- The page at `q` is the first free one. -/
def FirstFree (b : Boot) (physpages : Nat → UInt8) (q : Nat) : Prop :=
  q < NPAGES ∧ isFree b.kernelEnd physpages q = true
    ∧ ∀ r < q, isFree b.kernelEnd physpages r = false

/-- The memory viewer and the keyboard leave processes alone.  The viewer takes
    one page, once. -/
structure Quiet (b : Boot) (s s' : Sys) : Prop where
  ptable : s'.kernel.ptable = s.kernel.ptable
  current : s'.current = s.current
  pages : s'.kernel.physpages = s.kernel.physpages ∧ s'.v = s.v
    ∨ s.v = none ∧ ∃ q, FirstFree b s.kernel.physpages q
        ∧ s'.kernel.physpages = incr s.kernel.physpages q ∧ s'.v = some (q * PAGESIZE)
  mem : ∀ x, (∀ v, s'.v = some v → ¬ (v ≤ x ∧ x < v + PAGESIZE)) → s'.kernel.mem x = s.kernel.mem x

/-- The modes that the kernel does not leave for a process. -/
def Stopped : Mode → Prop
  | .failed _ => True
  | .rebooting _ => True
  | .off => True
  | .wild => True
  | _ => False

/-- `memshow` has what it needs. -/
def Viewable (b : Boot) (s : Sys) : Prop :=
  (s.kernel.ptable 0).state = P_FREE
    ∧ (s.v = none → ∃ q < NPAGES, isFree b.kernelEnd s.kernel.physpages q = true)

/-- The state in which a trap is handled. -/
def trapped (c : Config) (mem : Nat → UInt8) (regs : Regstate) : Sys :=
  saveRegs regs (c.sys.setMem mem)

/-- An exception that the kernel knows how to handle. -/
def ExceptionOk (regs : Regstate) : Prop :=
  regs.reg_intno = INT_TIMER ∨ regs.reg_intno = INT_PAGEFAULT ∧ regs.reg_errcode &&& PTE_U ≠ 0

/-- A system call that returns. -/
def CallOk (b : Boot) (s : Sys) (regs : Regstate) : Prop :=
  regs.reg_rax = SYSCALL_GETPID ∨ regs.reg_rax = SYSCALL_YIELD
    ∨ regs.reg_rax = SYSCALL_PAGE_ALLOC ∧ regs.reg_rdi.toNat / PAGESIZE < NPAGES
      ∧ s.kernel.physpages (regs.reg_rdi.toNat / PAGESIZE) = 0
      ∧ harmful b.kernelEnd regs.reg_rdi.toNat = false

/-- Why a step may end in `fail`, or worse. -/
inductive Blame (b : Boot) (c : Config) : Action → Prop
  | viewTrap {mem regs data} (hview : ¬ Viewable b (trapped c mem regs)) :
      Blame b c (.exception mem regs data)
  | viewCall {mem regs data} (hview : ¬ Viewable b (trapped c mem regs)) :
      Blame b c (.syscall mem regs data)
  | viewSpin {pid spins data} (hmode : c.mode = .spinning pid spins) (hview : ¬ Viewable b c.sys) :
      Blame b c (.pass data)
  | exception {mem regs data} (hbad : ¬ ExceptionOk regs) : Blame b c (.exception mem regs data)
  | call {mem regs data s} (hq : Quiet b (trapped c mem regs) s) (hv : s.v ≠ none)
      (hbad : ¬ CallOk b s regs) : Blame b c (.syscall mem regs data)
  | failed {message data} (hmode : c.mode = .failed message) : Blame b c (.pass data)

/-- The kernel's variables before the `switch`. -/
def base (c : Config) : Action → Sys
  | .exception mem regs _ => trapped c mem regs
  | .syscall mem regs _ => trapped c mem regs
  | .pass _ => c.sys

/-- The next position of `schedule`. -/
def next (pid : Nat) : Nat := (pid + 1) % MAXNPROC

/-- The assertions of `run`. -/
def CanRun (b : Boot) (p : Proc) : Prop :=
  checkProcessRegisters p.regs = none ∧ checkPagetable b p.pagetable = none

/-- `schedule` begins. -/
def Scheduling (c : Config) : Prop :=
  c.mode = .spinning (c.sys.kernel.ptable c.sys.current).pid 1

/-- A page that is zeroed for a process. -/
def zeroPage (addr : Nat) (s : Sys) : Sys :=
  { s with kernel := { s.kernel with
      physpages := incr s.kernel.physpages (addr / PAGESIZE)
      mem := memset s.kernel.mem addr 0 PAGESIZE } }

/-- **WHAT A STEP DOES.** -/
inductive Outcome (b : Boot) (c : Config) : Action → Config → Prop
  | timer {rax mem regs data c'} (hmode : c.mode = .user rax) (hi : regs.reg_intno = INT_TIMER)
      (hq : Quiet b (trapped c mem regs) c'.sys) (hm : Scheduling c') :
      Outcome b c (.exception mem regs data) c'
  | fault {rax mem regs data c'} (hmode : c.mode = .user rax)
      (hi : regs.reg_intno = INT_PAGEFAULT) (hu : regs.reg_errcode &&& PTE_U ≠ 0)
      (hq : Quiet b ((trapped c mem regs).setProc c.sys.current faulted) c'.sys)
      (hm : Scheduling c') : Outcome b c (.exception mem regs data) c'
  | getpid {rax mem regs data c'} (hmode : c.mode = .user rax) (ha : regs.reg_rax = SYSCALL_GETPID)
      (hq : Quiet b (trapped c mem regs) c'.sys)
      (hm : c'.mode = .user (some (BitVec.ofNat 64 (c.sys.kernel.ptable c.sys.current).pid))) :
      Outcome b c (.syscall mem regs data) c'
  | yield {rax mem regs data c'} (hmode : c.mode = .user rax) (ha : regs.reg_rax = SYSCALL_YIELD)
      (hq : Quiet b ((trapped c mem regs).setProc c.sys.current yielded) c'.sys)
      (hm : Scheduling c') : Outcome b c (.syscall mem regs data) c'
  | alloc {rax mem regs data c' s} (hmode : c.mode = .user rax)
      (ha : regs.reg_rax = SYSCALL_PAGE_ALLOC) (hq : Quiet b (trapped c mem regs) s)
      (hok : CallOk b s regs) (hs : c'.sys = zeroPage regs.reg_rdi.toNat s)
      (hm : c'.mode = .user (some 0)) : Outcome b c (.syscall mem regs data) c'
  | dispatch {pid spins data c'} (hmode : c.mode = .spinning pid spins)
      (hr : (c.sys.kernel.ptable (next pid)).state = P_RUNNABLE)
      (hs : c'.sys = { c.sys with current := next pid })
      (hm : CanRun b (c.sys.kernel.ptable (next pid)) ∧ c'.mode = .user none
        ∨ ¬ CanRun b (c.sys.kernel.ptable (next pid)) ∧ ∃ message, c'.mode = .failed message) :
      Outcome b c (.pass data) c'
  | idle {pid spins data c'} (hmode : c.mode = .spinning pid spins)
      (hr : (c.sys.kernel.ptable (next pid)).state ≠ P_RUNNABLE) (hq : Quiet b c.sys c'.sys)
      (hm : c'.mode = .spinning (next pid) (spins + 1)) : Outcome b c (.pass data) c'
  | quit {a c'} (hq : Quiet b (base c a) c'.sys)
      (hm : c'.mode = .off ∨ ∃ argument, c'.mode = .rebooting argument) : Outcome b c a c'
  | fail {a c'} (hwhy : Blame b c a) (hq : Quiet b (base c a) c'.sys) (hm : Stopped c'.mode) :
      Outcome b c a c'

variable {b : Boot} {s s' s'' : Sys} {c c' : Config} {a : Action} {data : Option UInt8}
variable {regs : Regstate} {mem : Nat → UInt8} {pid : Nat} {spins : BitVec 32} {mode : Mode}

/-- Nothing has happened. -/
theorem Quiet.refl (s : Sys) : Quiet b s s := ⟨rfl, rfl, Or.inl ⟨rfl, rfl⟩, fun _ _ => rfl⟩

/-- The viewer keeps its page. -/
theorem Quiet.v (h : Quiet b s s') {v : Nat} (hv : s.v = some v) : s'.v = some v := by
  rcases h.pages with ⟨-, hsame⟩ | ⟨hnone, -⟩
  · rw [hsame, hv]
  · rw [hv] at hnone
    cases hnone

/-- One after the other. -/
theorem Quiet.trans (h : Quiet b s s') (h' : Quiet b s' s'') : Quiet b s s'' := by
  refine ⟨h'.ptable.trans h.ptable, h'.current.trans h.current, ?_, ?_⟩
  · rcases h.pages with ⟨hpages, hv⟩ | ⟨hnone, q, hq, hpages, hv⟩
    · rw [← hpages, ← hv]
      exact h'.pages
    · rcases h'.pages with ⟨hpages', hv'⟩ | ⟨hnone', -⟩
      · exact Or.inr ⟨hnone, q, hq, hpages'.trans hpages, hv'.trans hv⟩
      · rw [hv] at hnone'
        cases hnone'
  · intro x hx
    rw [h'.mem x hx]
    exact h.mem x fun v hv => hx v (h'.v hv)

/-- Nothing but the keyboard, the clock and what is shown. -/
theorem quiet_of (hk : s'.kernel = s.kernel) (hc : s'.current = s.current) (hv : s'.v = s.v) :
    Quiet b s s' := by
  refine ⟨?_, hc, Or.inl ⟨?_, hv⟩, fun x _ => ?_⟩
  · rw [hk]
  · rw [hk]
  · rw [hk]

/-- A key is noted, or the machine is restarted or turned off. -/
theorem checkKeyboard_cases (data : Option UInt8) (s : Sys) (f : Sys → Config) :
    ∃ s', (∀ b, Quiet b s s') ∧ s'.v = s.v ∧ (checkKeyboard data s f = f s'
      ∨ ∃ mode, (mode = .off ∨ ∃ argument, mode = .rebooting argument)
          ∧ checkKeyboard data s f = { sys := s', mode := mode }) := by
  refine ⟨{ s with keyboard := (Keyboard.keyboardReadc data s.keyboard).2 },
    fun b => quiet_of rfl rfl rfl, rfl, ?_⟩
  rw [checkKeyboard]
  split
  · exact Or.inr ⟨_, Or.inr ⟨_, rfl⟩, rfl⟩
  split
  · exact Or.inr ⟨_, Or.inl rfl, rfl⟩
  · exact Or.inl rfl

/-- `kalloc` takes the first free page. -/
theorem kalloc_first {kernelEnd sz q : Nat} {k : KState}
    (h : (kalloc kernelEnd sz k).1 = some (q * PAGESIZE)) :
    ∀ r < q, isFree kernelEnd k.physpages r = false := by
  have hpage : ∀ {m : Nat}, m * PAGESIZE = q * PAGESIZE → m = q :=
    fun heq => Nat.eq_of_mul_eq_mul_right (by decide) heq
  rw [kalloc] at h
  split at h
  · cases h
  cases hscan : CyclicScan.scan NPAGES pageIncrement (isFree kernelEnd k.physpages) NPAGES 0 with
  | none =>
      rw [hscan] at h
      cases h
  | some m =>
      rw [hscan] at h
      obtain rfl := hpage (Option.some.inj h)
      intro r hr
      exact (CyclicScan.scan_first hscan (by omega)).2 r (Nat.zero_le r) hr

/-- Nothing but the viewer's page is written. -/
theorem fillMarks_mem {v x : Nat} {k : KState} (h : ¬ (v ≤ x ∧ x < v + PAGESIZE)) :
    (fillMarks b v k).mem x = k.mem x := if_neg h

/-- `refresh` takes its page, or there is none. -/
theorem refresh_quiet (b : Boot) (s : Sys) :
    (∃ s', refresh b s = .ok s' ∧ Quiet b s s' ∧ s'.v ≠ none)
      ∨ ∃ s' message, refresh b s = .error (s', message) ∧ Quiet b s s'
          ∧ s.v = none ∧ ∀ q < NPAGES, isFree b.kernelEnd s.kernel.physpages q = false := by
  cases hv : s.v with
  | some v =>
      have hquiet : Quiet b s { s with kernel := fillMarks b v s.kernel } :=
        ⟨rfl, rfl, Or.inl ⟨rfl, rfl⟩, fun x hx => fillMarks_mem (hx v hv)⟩
      refine Or.inl ⟨{ s with kernel := fillMarks b v s.kernel }, ?_, hquiet, ?_⟩
      · rw [refresh, hv]
      · show s.v ≠ none
        rw [hv]
        exact Option.some_ne_none v
  | none =>
      rcases kalloc_cases b.kernelEnd PAGESIZE s.kernel with
        ⟨hnone, hsame, hwhy⟩ | ⟨q, hq, -, hfree, heq⟩
      · have hpair : kalloc b.kernelEnd PAGESIZE s.kernel = (none, s.kernel) :=
          Prod.ext hnone hsame
        refine Or.inr ⟨s, "v_ != nullptr", ?_, Quiet.refl s, rfl, hwhy.resolve_left (lt_irrefl _)⟩
        simp only [refresh, hv, hpair]
        rw [← hv]
      · let k : KState := { s.kernel with
          physpages := incr s.kernel.physpages q
          mem := memset s.kernel.mem (q * PAGESIZE) 0xCC PAGESIZE }
        let s' : Sys := { s with
          kernel := fillMarks b (q * PAGESIZE) k, v := some (q * PAGESIZE) }
        have hfirst : FirstFree b s.kernel.physpages q :=
          ⟨hq, hfree, kalloc_first (congrArg Prod.fst heq)⟩
        have hmem : ∀ x, (∀ v, s'.v = some v → ¬ (v ≤ x ∧ x < v + PAGESIZE)) →
            s'.kernel.mem x = s.kernel.mem x :=
          fun x hx => (fillMarks_mem (hx _ rfl)).trans (if_neg (hx _ rfl))
        have hquiet : Quiet b s s' := ⟨rfl, rfl, Or.inr ⟨hv, q, hfirst, rfl, rfl⟩, hmem⟩
        refine Or.inl ⟨s', ?_, hquiet, Option.some_ne_none _⟩
        simp only [refresh, hv, heq]
        rfl

/-- What the search finds is good. -/
theorem search_some {good : Nat → Bool} {n p r : Nat} (h : (search good n p).1 = some r) :
    good r = true := by
  induction n generalizing p with
  | zero => cases h
  | succ n ih =>
      rw [search] at h
      split at h
      · rename_i hgood
        obtain rfl := Option.some.inj h
        exact hgood
      · exact ih h

/-- What the viewer shows is there to be shown. -/
theorem consoleMemviewer_quiet {vmp : Option Nat}
    (hp : ∀ p, vmp = some p → (s.kernel.ptable p).pagetable ≠ 0) :
    (∃ s', consoleMemviewer b vmp s = .ok s' ∧ Quiet b s s' ∧ s'.v ≠ none)
      ∨ ∃ s' message, consoleMemviewer b vmp s = .error (s', message) ∧ Quiet b s s'
          ∧ ((s.kernel.ptable 0).state ≠ P_FREE ∨ s.v = none
            ∧ ∀ q < NPAGES, isFree b.kernelEnd s.kernel.physpages q = false) := by
  rw [consoleMemviewer]
  by_cases hzero : (s.kernel.ptable 0).state = P_FREE
  swap
  · rw [if_neg hzero]
    exact Or.inr ⟨s, _, rfl, Quiet.refl s, Or.inl hzero⟩
  rw [if_pos hzero]
  rcases refresh_quiet b s with ⟨s', hs', hq, hv⟩ | ⟨s', message, hs', hq, hfull⟩
  · rw [hs']
    refine Or.inl ⟨s', ?_, hq, hv⟩
    cases vmp with
    | none => rfl
    | some p =>
        refine if_pos ?_
        rw [hq.ptable]
        exact hp p rfl
  · rw [hs']
    exact Or.inr ⟨s', message, rfl, hq, Or.inr hfull⟩

/-- `memshow` leaves everything but its own variables and its page alone. -/
theorem memshow_quiet (b : Boot) (s : Sys) :
    (∃ s', memshow b s = .ok s' ∧ Quiet b s s' ∧ s'.v ≠ none)
      ∨ ∃ s' message, memshow b s = .error (s', message) ∧ Quiet b s s'
          ∧ ((s.kernel.ptable 0).state ≠ P_FREE ∨ s.v = none
            ∧ ∀ q < NPAGES, isFree b.kernelEnd s.kernel.physpages q = false) := by
  -- the clock and `showing` do not matter to the rest
  obtain ⟨s₁, hs₁, hquiet, hk⟩ : ∃ s₁, memshow b s
      = consoleMemviewer b (search (isShown s₁) MAXNPROC s₁.showing).1
          { s₁ with showing := (search (isShown s₁) MAXNPROC s₁.showing).2 }
      ∧ Quiet b s s₁ ∧ s₁.kernel = s.kernel ∧ s₁.v = s.v := by
    rw [memshow]
    split
    · exact ⟨_, rfl, quiet_of rfl rfl rfl, rfl, rfl⟩
    · exact ⟨s, rfl, Quiet.refl s, rfl, rfl⟩
  rw [hs₁]
  have hsame : Quiet b s₁ { s₁ with showing := (search (isShown s₁) MAXNPROC s₁.showing).2 } :=
    quiet_of rfl rfl rfl
  have hgood : ∀ p, (search (isShown s₁) MAXNPROC s₁.showing).1 = some p →
      (s₁.kernel.ptable p).pagetable ≠ 0 := by
    intro p hp
    have hshown := search_some hp
    rw [isShown, Bool.and_eq_true, bne_iff_ne, bne_iff_ne] at hshown
    exact hshown.2
  rcases consoleMemviewer_quiet (b := b)
      (s := { s₁ with showing := (search (isShown s₁) MAXNPROC s₁.showing).2 }) hgood with
    ⟨s', hs', hq, hv⟩ | ⟨s', message, hs', hq, hwhy⟩
  · exact Or.inl ⟨s', hs', hquiet.trans (hsame.trans hq), hv⟩
  · refine Or.inr ⟨s', message, hs', hquiet.trans (hsame.trans hq), ?_⟩
    rw [← hk.1, ← hk.2]
    exact hwhy

/-- `memshow` shows something, or fails because there is no page for it. -/
theorem memshow_cases (b : Boot) (s : Sys) :
    (∃ s', memshow b s = .ok s' ∧ Quiet b s s' ∧ s'.v ≠ none)
      ∨ ∃ s' message, memshow b s = .error (s', message) ∧ Quiet b s s' ∧ ¬ Viewable b s := by
  rcases memshow_quiet b s with hok | ⟨s', message, hs', hq, hwhy⟩
  · exact Or.inl hok
  · refine Or.inr ⟨s', message, hs', hq, ?_⟩
    rintro ⟨hzero, hfree⟩
    rcases hwhy with hstate | ⟨hv, hfull⟩
    · exact hstate hzero
    · obtain ⟨q, hq, hgood⟩ := hfree hv
      rw [hfull q hq] at hgood
      exact Bool.noConfusion hgood

/-- A process that can be run runs, unless a check of its registers or its page table fails.
    -/
theorem run_cases (h : (s.kernel.ptable pid).state = P_RUNNABLE) :
    CanRun b (s.kernel.ptable pid)
        ∧ run b pid s = { sys := { s with current := pid }, mode := .user none }
      ∨ ¬ CanRun b (s.kernel.ptable pid) ∧ ∃ message,
          run b pid s = { sys := { s with current := pid }, mode := .failed message } := by
  cases hregs : checkProcessRegisters (s.kernel.ptable pid).regs with
  | some message =>
      refine Or.inr ⟨fun hc => ?_, message, ?_⟩
      · rw [hc.1] at hregs
        cases hregs
      · simp only [run, if_pos h, hregs]
  | none =>
      cases htable : checkPagetable b (s.kernel.ptable pid).pagetable with
      | some message =>
          refine Or.inr ⟨fun hc => ?_, message, ?_⟩
          · rw [hc.2] at htable
            cases htable
          · simp only [run, if_pos h, hregs, htable]
      | none =>
          refine Or.inl ⟨⟨hregs, htable⟩, ?_⟩
          simp only [run, if_pos h, hregs, htable]

/-! ### Traps -/

/-- A trap saves the registers of the process that runs. -/
theorem trapped_ptable (c : Config) (mem : Nat → UInt8) (regs : Regstate) :
    (trapped c mem regs).kernel.ptable = (setProc c.sys.current
      (fun p => { p with regs := regs }) c.sys.kernel).ptable := rfl

/-- A trap does not change which process runs. -/
theorem trapped_current (c : Config) (mem : Nat → UInt8) (regs : Regstate) :
    (trapped c mem regs).current = c.sys.current := rfl

/-- The process that is changed. -/
theorem setProc_ptable_same (s : Sys) (pid : Nat) (f : Proc → Proc) :
    (s.setProc pid f).kernel.ptable pid = f (s.kernel.ptable pid) := if_pos rfl

/-- The others. -/
theorem setProc_ptable_ne {q : Nat} (s : Sys) (f : Proc → Proc) (h : q ≠ pid) :
    (s.setProc pid f).kernel.ptable q = s.kernel.ptable q := if_neg h

/-- The same member is set before or after. -/
theorem Quiet.setProc (h : Quiet b s s') (pid : Nat) (f : Proc → Proc) :
    Quiet b (s.setProc pid f) (s'.setProc pid f) := by
  refine ⟨?_, h.current, h.pages, h.mem⟩
  funext q
  show (if q = pid then f (s'.kernel.ptable q) else s'.kernel.ptable q)
    = if q = pid then f (s.kernel.ptable q) else s.kernel.ptable q
  rw [h.ptable]

/-- What an exception leads to, after the viewer and the keyboard. -/
theorem handleException_outcome {rax : Option Word} (hmode : c.mode = .user rax)
    (hq : Quiet b (trapped c mem regs) s) :
    Outcome b c (.exception mem regs data) (handleException b regs s) := by
  have hcur : s.current = c.sys.current := hq.current
  rw [handleException]
  by_cases htimer : regs.reg_intno = INT_TIMER
  · rw [if_pos htimer]
    exact .timer hmode htimer ⟨hq.ptable, hq.current, hq.pages, hq.mem⟩ rfl
  rw [if_neg htimer]
  by_cases hfault : regs.reg_intno = INT_PAGEFAULT
  swap
  · rw [if_neg hfault]
    refine .fail (.exception ?_) hq trivial
    rintro (h | ⟨h, -⟩)
    · exact htimer h
    · exact hfault h
  rw [if_pos hfault]
  by_cases huser : regs.reg_errcode &&& PTE_U = 0
  · rw [if_pos huser]
    refine .fail (.exception ?_) hq trivial
    rintro (h | ⟨-, h⟩)
    · exact htimer h
    · exact h huser
  · -- a process that has faulted is not resumed
    have hstate : ¬ ((s.setProc s.current faulted).kernel.ptable s.current).state
        = P_RUNNABLE := by
      rw [setProc_ptable_same]
      show ¬ P_FAULTED = P_RUNNABLE
      decide
    have hresume : resume b (s.setProc s.current faulted)
        = schedule (s.setProc s.current faulted) := if_neg hstate
    rw [if_neg huser, hresume, hcur]
    exact .fault hmode hfault huser (hq.setProc c.sys.current faulted) rfl

/-- A process that is running gets an answer. -/
theorem answer_user (h : (s.kernel.ptable s.current).state = P_RUNNABLE) (v : Word) :
    answer s v = { sys := s, mode := .user (some v) } := if_pos h

/-- What `sys_page_alloc` leads to. -/
theorem pageAlloc_outcome {rax : Option Word} (hmode : c.mode = .user rax)
    (ha : regs.reg_rax = SYSCALL_PAGE_ALLOC) (hq : Quiet b (trapped c mem regs) s) (hv : s.v ≠ none)
    (hstate : (s.kernel.ptable s.current).state = P_RUNNABLE) :
    Outcome b c (.syscall mem regs data) (pageAlloc b regs.reg_rdi s) := by
  have hbad : (regs.reg_rdi.toNat / PAGESIZE < NPAGES
      → s.kernel.physpages (regs.reg_rdi.toNat / PAGESIZE) = 0
      → harmful b.kernelEnd regs.reg_rdi.toNat ≠ false) → ¬ CallOk b s regs := by
    intro hwhy
    rw [CallOk, ha]
    rintro (h | h | ⟨-, hlt, hfree, hharm⟩)
    · exact absurd h (by decide)
    · exact absurd h (by decide)
    · exact hwhy hlt hfree hharm
  rw [pageAlloc]
  -- the page number is out of range
  by_cases hlt : regs.reg_rdi.toNat / PAGESIZE < NPAGES
  swap
  · rw [if_neg hlt]
    exact .fail (.call hq hv (hbad fun h => absurd h hlt)) hq trivial
  rw [if_pos hlt]
  -- the page is in use already
  by_cases hfree : s.kernel.physpages (regs.reg_rdi.toNat / PAGESIZE) = 0
  swap
  · have hnone : syscallPageAlloc regs.reg_rdi.toNat s.kernel = none := by
      rw [syscallPageAlloc, claim, if_neg fun h => hfree h.2]
      rfl
    rw [hnone]
    exact .fail (.call hq hv (hbad fun _ h => absurd h hfree)) hq trivial
  have hsome : syscallPageAlloc regs.reg_rdi.toNat s.kernel
      = some (0, (zeroPage regs.reg_rdi.toNat s).kernel) := by
    rw [syscallPageAlloc, claim, if_pos ⟨hlt, hfree⟩]
    rfl
  rw [hsome]
  -- the page may not be given to a process
  by_cases hharm : harmful b.kernelEnd regs.reg_rdi.toNat = true
  · refine .fail (.call hq hv (hbad fun _ _ => ?_)) ?_ ?_
    · rw [hharm]
      exact Bool.noConfusion
    · show Quiet b _ (if harmful b.kernelEnd regs.reg_rdi.toNat = true then _ else _ : Config).sys
      rw [if_pos hharm]
      exact hq
    · show Stopped (if harmful b.kernelEnd regs.reg_rdi.toNat = true then _ else _ : Config).mode
      rw [if_pos hharm]
      trivial
  · show Outcome b c _ (if harmful b.kernelEnd regs.reg_rdi.toNat = true then _ else _)
    have hok : CallOk b s regs :=
      Or.inr (Or.inr ⟨ha, hlt, hfree, Bool.eq_false_of_not_eq_true hharm⟩)
    have hanswer : answer (zeroPage regs.reg_rdi.toNat s) 0
        = { sys := zeroPage regs.reg_rdi.toNat s, mode := .user (some 0) } := if_pos hstate
    rw [if_neg hharm]
    exact hanswer ▸ .alloc hmode ha hq hok rfl rfl

/-- What a system call leads to, after the viewer and the keyboard. -/
theorem handleSyscall_outcome {rax : Option Word} (hmode : c.mode = .user rax)
    (hstate : (c.sys.kernel.ptable c.sys.current).state = P_RUNNABLE)
    (hq : Quiet b (trapped c mem regs) s) (hv : s.v ≠ none) :
    Outcome b c (.syscall mem regs data) (handleSyscall b regs s) := by
  have hcur : s.current = c.sys.current := hq.current
  -- the process that has called runs, with its registers saved
  have hproc : s.kernel.ptable s.current
      = { c.sys.kernel.ptable c.sys.current with regs := regs } := by
    rw [hq.ptable, hcur]
    exact if_pos rfl
  have hrun : (s.kernel.ptable s.current).state = P_RUNNABLE := by
    rw [hproc]
    exact hstate
  have hno : regs.reg_rax ≠ SYSCALL_GETPID → regs.reg_rax ≠ SYSCALL_YIELD →
      regs.reg_rax ≠ SYSCALL_PAGE_ALLOC → ¬ CallOk b s regs := by
    rintro h1 h2 h3 (h | h | ⟨h, -⟩)
    · exact h1 h
    · exact h2 h
    · exact h3 h
  rw [handleSyscall]
  -- by the number of the call, in the order of the source
  by_cases hpanic : regs.reg_rax = SYSCALL_PANIC
  · rw [if_pos hpanic]
    refine .fail (.call hq hv (hno ?_ ?_ ?_)) hq trivial
    · rw [hpanic]; decide
    · rw [hpanic]; decide
    · rw [hpanic]; decide
  rw [if_neg hpanic]
  by_cases hgetpid : regs.reg_rax = SYSCALL_GETPID
  · rw [if_pos hgetpid, answer_user hrun]
    refine .getpid hmode hgetpid hq ?_
    rw [hproc]
  rw [if_neg hgetpid]
  by_cases hyield : regs.reg_rax = SYSCALL_YIELD
  · rw [if_pos hyield]
    rw [hcur]
    exact .yield hmode hyield (hq.setProc c.sys.current yielded) rfl
  rw [if_neg hyield]
  by_cases halloc : regs.reg_rax = SYSCALL_PAGE_ALLOC
  · rw [if_pos halloc]
    exact pageAlloc_outcome hmode halloc hq hv hrun
  · rw [if_neg halloc]
    exact .fail (.call hq hv (hno hgetpid hyield halloc)) hq trivial

/-- Only a runnable process runs. -/
def Running (c : Config) : Prop :=
  ∀ rax, c.mode = .user rax → (c.sys.kernel.ptable c.sys.current).state = P_RUNNABLE

/-- A key is looked at before anything else is done. -/
theorem checkKeyboard_outcome {f : Sys → Config} (hq : Quiet b (base c a) s)
    (hf : ∀ s', Quiet b (base c a) s' → s'.v = s.v → Outcome b c a (f s')) :
    Outcome b c a (checkKeyboard data s f) := by
  obtain ⟨s', hquiet, hv, heq | ⟨mode, hmode, heq⟩⟩ := checkKeyboard_cases data s f
  · rw [heq]
    exact hf s' (hq.trans (hquiet b)) hv
  · rw [heq]
    exact .quit (hq.trans (hquiet b)) hmode

/-- The viewer does not make itself impossible. -/
theorem Quiet.viewable (h : Quiet b s s') (hv : s'.v = s.v) (hs : Viewable b s) : Viewable b s' := by
  refine ⟨?_, ?_⟩
  · rw [h.ptable]
    exact hs.1
  rcases h.pages with ⟨hpages, -⟩ | ⟨hnone, q, -, -, hsome⟩
  · rw [hv, hpages]
    exact hs.2
  · rw [hv, hnone] at hsome
    cases hsome

/-- And memory is shown. -/
theorem memshow_outcome {f : Sys → Config} (hq : Quiet b (base c a) s)
    (hblame : ¬ Viewable b s → Blame b c a)
    (hf : ∀ s', Quiet b (base c a) s' → s'.v ≠ none → Outcome b c a (f s')) :
    Outcome b c a (.orFail (memshow b s) f) := by
  rcases memshow_cases b s with ⟨s', hs', hquiet, hv⟩ | ⟨s', message, hs', hquiet, hview⟩
  · rw [hs']
    exact hf s' (hq.trans hquiet) hv
  · rw [hs']
    exact .fail (hblame hview) (hq.trans hquiet) trivial

/-- What a pass of the scheduler leads to. -/
theorem schedulePass_outcome (hmode : c.mode = .spinning pid spins) :
    Outcome b c (.pass data) (schedulePass b data c.sys pid spins) := by
  by_cases hr : (c.sys.kernel.ptable (next pid)).state = P_RUNNABLE
  · have hrun : schedulePass b data c.sys pid spins = run b (next pid) c.sys := if_pos hr
    rw [hrun]
    rcases run_cases hr with ⟨hcan, hrun⟩ | ⟨hcan, message, hrun⟩
    · rw [hrun]
      exact .dispatch hmode hr rfl (Or.inl ⟨hcan, rfl⟩)
    · rw [hrun]
      exact .dispatch hmode hr rfl (Or.inr ⟨hcan, message, rfl⟩)
  · have hidle : ∀ {s : Sys}, Quiet b c.sys s →
        Outcome b c (.pass data) { sys := s, mode := .spinning (next pid) (spins + 1) } :=
      fun hq => .idle hmode hr hq rfl
    have hwait : schedulePass b data c.sys pid spins = checkKeyboard data c.sys fun s =>
        if spins % 4096 = 0 then
          .orFail (memshow b s) fun s => { sys := s, mode := .spinning (next pid) (spins + 1) }
        else { sys := s, mode := .spinning (next pid) (spins + 1) } := if_neg hr
    rw [hwait]
    have hself : Quiet b (base c (.pass data)) c.sys := Quiet.refl c.sys
    refine checkKeyboard_outcome hself ?_
    intro s hq hv
    split
    · refine memshow_outcome hq ?_ fun s' hq' _ => hidle hq'
      exact fun hview => .viewSpin hmode fun hs => hview (hq.viewable hv hs)
    · exact hidle hq

/-- What an exception leads to. -/
theorem exception_outcome {rax : Option Word} (hmode : c.mode = .user rax) :
    Outcome b c (.exception mem regs data) (exception b regs data (c.sys.setMem mem)) := by
  have hself : Quiet b (base c (.exception mem regs data)) (trapped c mem regs) :=
    Quiet.refl _
  have hrest : ∀ s', Quiet b (base c (.exception mem regs data)) s' →
      Outcome b c (.exception mem regs data)
        (checkKeyboard data s' fun s => handleException b regs s) := by
    intro s' hq
    exact checkKeyboard_outcome hq fun s hq' _ => handleException_outcome hmode hq'
  show Outcome b c _ (.orFail (if _ then memshow b (trapped c mem regs)
    else .ok (trapped c mem regs)) _)
  split
  · exact memshow_outcome hself (fun hview => .viewTrap hview) fun s' hq _ => hrest s' hq
  · exact hrest _ hself

/-- What a system call leads to. -/
theorem syscall_outcome {rax : Option Word} (hmode : c.mode = .user rax) (hrun : Running c) :
    Outcome b c (.syscall mem regs data) (syscall b regs data (c.sys.setMem mem)) := by
  have hself : Quiet b (base c (.syscall mem regs data)) (trapped c mem regs) := Quiet.refl _
  refine memshow_outcome hself (fun hview => .viewCall hview) ?_
  intro s hq hv
  refine checkKeyboard_outcome hq ?_
  intro s' hq' hv'
  exact handleSyscall_outcome hmode (hrun rax hmode) hq' (by rw [hv']; exact hv)

/-- **WHAT A STEP CAN DO**, by the cases of `Outcome`. -/
theorem step_outcome (hrun : Running c) (h : step b c a = some c') : Outcome b c a c' := by
  cases a with
  | exception mem regs data =>
      simp only [step] at h
      split at h
      · rename_i rax hmode
        obtain rfl := Option.some.inj h
        exact exception_outcome hmode
      · cases h
  | syscall mem regs data =>
      simp only [step] at h
      split at h
      · rename_i rax hmode
        obtain rfl := Option.some.inj h
        exact syscall_outcome hmode hrun
      · cases h
  | pass data =>
      simp only [step] at h
      split at h
      · rename_i pid spins hmode
        obtain rfl := Option.some.inj h
        exact schedulePass_outcome hmode
      · -- after a failure only the keyboard counts
        rename_i message hmode
        obtain rfl := Option.some.inj h
        have hself : Quiet b (base c (.pass data)) c.sys := Quiet.refl c.sys
        exact checkKeyboard_outcome hself fun s hq _ => .fail (.failed hmode) hq trivial
      · cases h

end KernelLoop
