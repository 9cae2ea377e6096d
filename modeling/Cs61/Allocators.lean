import Cs61.KernelStart

/-! # The allocators under the kernel

    `p-allocator.cc` as four processes of `kernel.cc`: each takes the pages of its
    heap from the kernel, one after the other, checks that a new page is zero and
    writes its process ID there.  They are interleaved by system calls and by the
    timer, in any order (`allocators_safe`).  The result of `rand` is any number,
    and what the linker decides is a parameter. -/

namespace KernelLoop

open PhysPages ProcessSetup KernelEntry
open PageTable (Word)

/-! ## What the kernel leaves alone -/

/-- The page of the memory viewer is not one of a process. -/
def Low (s : Sys) : Prop := ∀ v, s.v = some v → v + PAGESIZE ≤ PROC_START_ADDR

/-- The memory of processes, and what counts as used there, stay as they are. -/
structure Kept (s s' : Sys) : Prop where
  mem : ∀ x, PROC_START_ADDR ≤ x → s'.kernel.mem x = s.kernel.mem x
  pages : ∀ q, 256 ≤ q → s'.kernel.physpages q = s.kernel.physpages q

variable {b : Boot} {c c' : Config} {s s' : Sys} {a : Action} {mem : Nat → UInt8}
variable {regs : Regstate} {data : Option UInt8}

/-- What the kernel keeps it keeps after a page is cleared. -/
theorem Kept.zeroPage (h : Kept s s') (addr : Nat) : Kept (zeroPage addr s) (zeroPage addr s') := by
  constructor
  · intro x hx
    show memset s'.kernel.mem addr 0 PAGESIZE x = memset s.kernel.mem addr 0 PAGESIZE x
    rw [memset, memset, h.mem x hx]
  · intro q hq
    show incr s'.kernel.physpages (addr / PAGESIZE) q = incr s.kernel.physpages (addr / PAGESIZE) q
    rw [incr, incr, h.pages q hq]

/-- The memory viewer takes page 1. -/
theorem Quiet.low (h : Quiet b s s') (hv : s.v = none → s.kernel.physpages 1 = 0) (hlow : Low s) :
    Low s' := by
  intro v hsome
  rcases h.pages with ⟨-, hsame⟩ | ⟨hnone, q, ⟨-, -, hfirst⟩, -, hq⟩
  · exact hlow v (hsame ▸ hsome)
  · have hle : q ≤ 1 := by
      by_contra hgt
      have hno := hfirst 1 (by omega)
      rw [free_one b (hv hnone)] at hno
      cases hno
    obtain rfl := Option.some.inj (hsome.symm.trans hq)
    show q * 4096 + 4096 ≤ 0x100000
    omega

/-- The viewer and the keyboard keep the memory of processes. -/
theorem Quiet.kept (h : Quiet b s s') (hv : s.v = none → s.kernel.physpages 1 = 0) (hlow : Low s) :
    Low s' ∧ Kept s s' := by
  refine ⟨h.low hv hlow, ?_, fun q hq => h.above hv hq⟩
  intro x hx
  refine h.mem x ?_
  rintro v hsome ⟨-, hlt⟩
  have hle := h.low hv hlow v hsome
  omega

/-- What a system call that the kernel knows does to the memory of processes. -/
inductive Called (c : Config) (s : Sys) (regs : Regstate) (c' : Config) : Prop where
  | stopped (hm : Stopped c'.mode)
  | getpid (hr : regs.reg_rax = SYSCALL_GETPID)
      (hm : c'.mode = .user (some (BitVec.ofNat 64 (c.sys.kernel.ptable c.sys.current).pid)))
      (hk : Kept s c'.sys)
  | yield (hr : regs.reg_rax = SYSCALL_YIELD) (hm : Scheduling c') (hk : Kept s c'.sys)
  | alloc (hr : regs.reg_rax = SYSCALL_PAGE_ALLOC) (hm : c'.mode = .user (some 0))
      (hk : Kept (zeroPage regs.reg_rdi.toNat s) c'.sys)

theorem quit_stopped (hm : c.mode = .off ∨ ∃ argument, c.mode = .rebooting argument) :
    Stopped c.mode := by
  rcases hm with hm | ⟨argument, hm⟩
  · rw [hm]
    trivial
  · rw [hm]
    trivial

/-- A system call of a process that behaves is one of those, or stops the machine. -/
theorem Sound.called (h : Sound b c) (hlow : Low c.sys) (hb : Behaves c (.syscall mem regs data))
    (hs : KernelLoop.step b c (.syscall mem regs data) = some c') :
    Low c'.sys ∧ Called c (c.sys.setMem mem) regs c' := by
  have hv : (trapped c mem regs).v = none → (trapped c mem regs).kernel.physpages 1 = 0 := h.viewer
  have hl : Low (trapped c mem regs) := hlow
  cases step_outcome h.running hs with
  | getpid hmode ha hq hm =>
      obtain ⟨hlow', hmem, hpages⟩ := hq.kept hv hl
      exact ⟨hlow', .getpid ha hm ⟨hmem, hpages⟩⟩
  | yield hmode ha hq hm =>
      obtain ⟨hlow', hmem, hpages⟩ := hq.kept hv hl
      exact ⟨hlow', .yield ha hm ⟨hmem, hpages⟩⟩
  | alloc hmode ha hq hok hs' hm =>
      obtain ⟨hlow', hmem, hpages⟩ := hq.kept hv hl
      have hkept : Kept (c.sys.setMem mem) _ := ⟨hmem, hpages⟩
      rw [hs']
      exact ⟨hlow', .alloc ha hm (hs' ▸ hkept.zeroPage _)⟩
  | quit hq hm => exact ⟨(hq.kept hv hl).1, .stopped (quit_stopped hm)⟩
  | fail hwhy hq hm => exact absurd hwhy (h.blameless hb)

/-- The timer and the scheduler leave the memory of processes alone. -/
theorem Sound.turned (h : Sound b c) (hlow : Low c.sys) (hb : Behaves c a)
    (hs : KernelLoop.step b c a = some c') (ha : ∀ mem regs data, a ≠ .syscall mem regs data) :
    Low c'.sys ∧ (Stopped c'.mode ∨ Kept (base c a) c'.sys) := by
  have hv : (base c a).v = none → (base c a).kernel.physpages 1 = 0 := by
    cases a <;> exact h.viewer
  have hl : Low (base c a) := by
    cases a <;> exact hlow
  cases step_outcome h.running hs with
  | timer hmode hi hq hm =>
      obtain ⟨hlow', hkept⟩ := hq.kept hv hl
      exact ⟨hlow', Or.inr hkept⟩
  | fault hmode hi hu hq hm =>
      obtain ⟨hlow', hmem, hpages⟩ := hq.kept hv hl
      exact ⟨hlow', Or.inr ⟨hmem, hpages⟩⟩
  | getpid hmode hr hq hm => exact absurd rfl (ha _ _ _)
  | yield hmode hr hq hm => exact absurd rfl (ha _ _ _)
  | alloc hmode hr hq hok hs' hm => exact absurd rfl (ha _ _ _)
  | dispatch hmode hr hs' hm =>
      rw [hs']
      exact ⟨hlow, Or.inr ⟨fun _ _ => rfl, fun _ _ => rfl⟩⟩
  | idle hmode hr hq hm =>
      obtain ⟨hlow', hkept⟩ := hq.kept hv hl
      exact ⟨hlow', Or.inr hkept⟩
  | quit hq hm => exact ⟨(hq.kept hv hl).1, Or.inl (quit_stopped hm)⟩
  | fail hwhy hq hm => exact absurd hwhy (h.blameless hb)

/-- The kernel takes no step once it has stopped. -/
theorem Sound.going (h : Sound b c) (hs : KernelLoop.step b c a = some c') : ¬ Stopped c.mode := by
  intro hstop
  cases hmode : c.mode with
  | user rax =>
      rw [hmode] at hstop
      exact hstop
  | spinning pid spins =>
      rw [hmode] at hstop
      exact hstop
  | failed message => exact h.fine.1 message hmode
  | wild => exact h.fine.2 hmode
  | rebooting argument => cases a <;> simp [KernelLoop.step, hmode] at hs
  | off => cases a <;> simp [KernelLoop.step, hmode] at hs

/-- A slot that is free is never used. -/
theorem Outcome.free (h : Inv b c) (ho : Outcome b c a c') {i : Nat}
    (hi : (c.sys.kernel.ptable i).state = P_FREE) : (c'.sys.kernel.ptable i).state = P_FREE := by
  rcases (ho.entry i).2.2 with hsame | ⟨hcur, -⟩
  · rw [hsame, hi]
  · rw [hcur] at hi
    exact absurd hi h.live

/-- The invariant does not depend on the memory. -/
theorem Sound.setMem (h : Sound b c) (mem : Nat → UInt8) :
    Sound b { c with sys := c.sys.setMem mem } :=
  { pids := h.pids, zero := h.zero, states := h.states, tables := h.tables, current := h.current,
    live := h.live, counts := h.counts, running := h.running, passed := h.passed, regs := h.regs,
    viewer := h.viewer, fine := h.fine }

end KernelLoop

namespace KernelLoop.Allocators

open PhysPages ProcessSetup KernelEntry
open PageTable (Word)

/-! ## The program -/

/-- Where `process_main` is. -/
inductive Pc where
  | getpid
  | setup
  | test
  | alloc
  | allocated
  | check
  | write
  | console
  | yield
  | idle
  | failed

/-- The variables of `process_main`, and the register of results. -/
structure Vars where
  pc : Pc
  rax : Word
  p : Int
  heap_bottom : Nat
  heap_top : Nat
  stack_bottom : Nat
  new_page : Nat
  l : Nat

/-- What the linker and the compiler decide for the image of each process: its
    symbol `end`, and the stack pointer that `rdrsp` finds. -/
structure Program where
  endSymbol : Nat → Nat
  rdrsp : Nat → Nat

/-- `console + CPOS(24, 79)`. -/
def consoleCorner : Nat := 0xB8000 + 2 * (24 * 80 + 79)

/-- What a process does next: it stays in its own memory, or calls the kernel. -/
inductive Move where
  | step (u : Vars) (mem : Nat → UInt8)
  | call (rax rdi : Word) (u : Vars)

/-- An `int` from a register. -/
def toInt (rax : Word) : Int := (rax.setWidth 32).toInt

/-- The assertion of `heap_byte_ptr`. -/
def heapByte (u : Vars) (addr : Nat) : Bool :=
  u.heap_bottom ≤ addr && addr ≤ u.heap_top

/-- The assertion of `heap_long_ptr`. -/
def heapLong (u : Vars) (addr : Nat) : Bool :=
  u.heap_bottom ≤ addr && addr ≤ u.heap_top && addr % 8 == 0

/-- Eight bytes are zero. -/
def longZero (mem : Nat → UInt8) (addr : Nat) : Bool :=
  (List.range 8).all fun i => mem (addr + i) == 0

/-- A byte is written. -/
def poke (mem : Nat → UInt8) (addr : Nat) (v : UInt8) : Nat → UInt8 :=
  Function.update mem addr v

/-- The next step of `process_main` of process `pid`, from `sys_getpid` on; `draw` is
    what `rand(0, ALLOC_SLOWDOWN - 1)` returns.  The two assertions before it, about
    the constant `test`, are left out. -/
def move (prog : Program) (pid : Nat) (draw : Int) (mem : Nat → UInt8) (u : Vars) : Move :=
  match u.pc with
  | .getpid => .call SYSCALL_GETPID 0 { u with pc := .setup }
  | .setup =>
      let heap_bottom := roundUp (prog.endSymbol pid) PAGESIZE
      .step { u with
        pc := .test
        p := toInt u.rax
        heap_bottom := heap_bottom
        heap_top := heap_bottom
        stack_bottom := roundDown (prog.rdrsp pid - 1) PAGESIZE } mem
  | .test =>
      if u.heap_top ≠ u.stack_bottom then
        .step { u with pc := if draw < u.p then .alloc else .yield } mem
      else .step { u with pc := .idle } mem
  | .alloc => .call SYSCALL_PAGE_ALLOC (BitVec.ofNat 64 u.heap_top) { u with pc := .allocated }
  | .allocated =>
      if toInt u.rax < 0 then .step { u with pc := .idle } mem
      else
        let new_page := u.heap_top
        let u := { u with new_page := new_page, heap_top := u.heap_top + PAGESIZE, l := new_page }
        .step { u with pc := if heapLong u new_page then .check else .failed } mem
  | .check =>
      -- the condition of the loop, and then its body
      if heapLong u (u.new_page + PAGESIZE) then
        if u.l ≠ u.new_page + PAGESIZE then
          if longZero mem u.l then .step { u with l := u.l + 8 } mem
          else .step { u with pc := .failed } mem
        else .step { u with pc := .write } mem
      else .step { u with pc := .failed } mem
  | .write =>
      if heapByte u u.new_page then
        .step { u with pc := .console } (poke mem u.new_page (UInt8.ofInt u.p))
      else .step { u with pc := .failed } mem
  | .console =>
      .step { u with pc := .yield } (poke (poke mem consoleCorner (UInt8.ofInt u.p))
        (consoleCorner + 1) (UInt8.ofInt (u.p / 256)))
  | .yield => .call SYSCALL_YIELD 0 { u with pc := .test }
  | .idle => .call SYSCALL_YIELD 0 u
  | .failed => .call SYSCALL_PANIC 0 u

/-! ## The machine -/

/-- The kernel, and the variables of every process. -/
structure World where
  c : Config
  vars : Nat → Vars

/-- The registers of a process whose stack pointer is in its memory. -/
def UserRegs : Type := { regs : Regstate // checkProcessRegisters regs = none }

/-- What happens next. -/
inductive Act where
  /-- The process that runs makes its next step. -/
  | go (draw : Int) (regs : UserRegs) (data : Option UInt8)
  /-- The timer interrupts it. -/
  | tick (regs : UserRegs) (data : Option UInt8)
  /-- The scheduler makes a pass. -/
  | pass (data : Option UInt8)

/-- The result of a system call arrives. -/
def deliver (mode : Mode) (u : Vars) : Vars :=
  match mode with
  | .user (some v) => { u with rax := v }
  | _ => u

/-- One step of the machine; none where the action does not fit the kernel's mode. -/
def World.step (b : Boot) (prog : Program) (w : World) : Act → Option World
  | .go draw regs data =>
      match w.c.mode with
      | .user _ =>
          let pid := w.c.sys.current
          match move prog pid draw w.c.sys.kernel.mem (w.vars pid) with
          | .step u mem =>
              some { c := { w.c with sys := w.c.sys.setMem mem }, vars := Function.update w.vars pid u }
          | .call rax rdi u =>
              (KernelLoop.step b w.c (.syscall w.c.sys.kernel.mem
                { regs.val with reg_rax := rax, reg_rdi := rdi } data)).map fun c =>
                { c := c, vars := Function.update w.vars pid (deliver c.mode u) }
      | _ => none
  | .tick regs data =>
      (KernelLoop.step b w.c (.exception w.c.sys.kernel.mem
        { regs.val with reg_intno := INT_TIMER } data)).map fun c => { w with c := c }
  | .pass data => (KernelLoop.step b w.c (.pass data)).map fun c => { w with c := c }

/-- A run: the actions one after the other. -/
def World.steps (b : Boot) (prog : Program) (w : World) : List Act → Option World
  | [] => some w
  | a :: acts => (w.step b prog a).bind fun w' => w'.steps b prog acts

/-- A process before its first instruction. -/
def fresh : Vars :=
  { pc := .getpid, rax := 0, p := 0, heap_bottom := 0, heap_top := 0, stack_bottom := 0,
    new_page := 0, l := 0 }

/-! ## What holds of a heap -/

/-- Where the heap of a process starts. -/
def bottom (prog : Program) (pid : Nat) : Nat := roundUp (prog.endSymbol pid) PAGESIZE

/-- The end of the pages that a process has. -/
def limit (prog : Program) (pid : Nat) (u : Vars) : Nat :=
  match u.pc with
  | .getpid | .setup => bottom prog pid
  | .allocated => u.heap_top + PAGESIZE
  | _ => u.heap_top

/-- The end of the pages that bear its process ID. -/
def marked (prog : Program) (pid : Nat) (u : Vars) : Nat :=
  match u.pc with
  | .getpid | .setup => bottom prog pid
  | .check | .write => u.new_page
  | _ => u.heap_top

/-- What is in the heap: the process ID at the start of a page. -/
def content (pid mark x : Nat) : UInt8 :=
  if x < mark ∧ x % PAGESIZE = 0 then UInt8.ofNat pid else 0

/-- A process that is linked and started as it should be. -/
structure Laid (prog : Program) (pid : Nat) : Prop where
  first : 1 ≤ pid
  last : pid ≤ 4
  start : PROC_START_ADDR + PROC_SIZE * (pid - 1) ≤ bottom prog pid
  stop : bottom prog pid ≤ stackAddr pid
  stack : stackAddr pid < prog.rdrsp pid ∧ prog.rdrsp pid ≤ stackAddr pid + PAGESIZE

/-- The pages up to `lim` are those of the process, and no others between its image
    and its stack; they are zero but for the marks below `mark`. -/
structure Owns (prog : Program) (mem : Nat → UInt8) (physpages : Nat → UInt8) (pid lim mark : Nat) :
    Prop where
  low : bottom prog pid ≤ mark
  le : mark ≤ lim
  high : lim ≤ stackAddr pid
  marks : mark % PAGESIZE = 0
  limits : lim % PAGESIZE = 0
  pages : ∀ q, bottom prog pid ≤ q * PAGESIZE → q * PAGESIZE < stackAddr pid →
    physpages q = if q * PAGESIZE < lim then 1 else 0
  bytes : ∀ x, bottom prog pid ≤ x → x < lim → mem x = content pid mark x

/-- What `process_main` knows at each place. -/
def Facts (pid : Nat) (u : Vars) : Prop :=
  match u.pc with
  | .setup => u.rax = BitVec.ofNat 64 pid
  | .alloc => u.heap_top < stackAddr pid
  | .allocated => u.rax = 0
  | .check => u.heap_top = u.new_page + PAGESIZE ∧ u.l % 8 = 0 ∧ u.new_page ≤ u.l
      ∧ u.l ≤ u.heap_top
  | .write => u.heap_top = u.new_page + PAGESIZE
  | .idle => u.heap_top = stackAddr pid
  | .failed => False
  | _ => True

/-- Its variables, once they are set. -/
def Ready (prog : Program) (pid : Nat) (u : Vars) : Prop :=
  u.p = pid ∧ u.heap_bottom = bottom prog pid ∧ u.stack_bottom = stackAddr pid

/-- **THE INVARIANT** of one process. -/
structure Heap (prog : Program) (mem : Nat → UInt8) (physpages : Nat → UInt8) (pid : Nat)
    (u : Vars) : Prop extends Owns prog mem physpages pid (limit prog pid u) (marked prog pid u) where
  ready : u.pc ≠ .getpid → u.pc ≠ .setup → Ready prog pid u
  facts : Facts pid u

variable {b : Boot} {prog : Program} {mem mem' physpages physpages' : Nat → UInt8}
variable {pid lim mark : Nat} {u u' : Vars} {draw : Int}

theorem roundUp_page (x : Nat) : roundUp x PAGESIZE % PAGESIZE = 0 ∧ x ≤ roundUp x PAGESIZE := by
  show (x + 4096 - 1 - (x + 4096 - 1) % 4096) % 4096 = 0
    ∧ x ≤ x + 4096 - 1 - (x + 4096 - 1) % 4096
  omega

theorem stackAddr_page (pid : Nat) : stackAddr pid % PAGESIZE = 0 := by
  show (0x100000 + 0x40000 * pid - 4096) % 4096 = 0
  omega

/-- What the others do is not seen. -/
theorem Owns.congr (h : Owns prog mem physpages pid lim mark)
    (hmem : ∀ x, bottom prog pid ≤ x → x < stackAddr pid → mem' x = mem x)
    (hpages : ∀ q, bottom prog pid ≤ q * PAGESIZE → q * PAGESIZE < stackAddr pid →
      physpages' q = physpages q) : Owns prog mem' physpages' pid lim mark := by
  refine ⟨h.low, h.le, h.high, h.marks, h.limits, ?_, ?_⟩
  · intro q hlo hhi
    rw [hpages q hlo hhi]
    exact h.pages q hlo hhi
  · intro x hlo hhi
    rw [hmem x hlo (Nat.lt_of_lt_of_le hhi h.high)]
    exact h.bytes x hlo hhi

/-- What the others do does not change a heap. -/
theorem Heap.congr (h : Heap prog mem physpages pid u)
    (hmem : ∀ x, bottom prog pid ≤ x → x < stackAddr pid → mem' x = mem x)
    (hpages : ∀ q, bottom prog pid ≤ q * PAGESIZE → q * PAGESIZE < stackAddr pid →
      physpages' q = physpages q) : Heap prog mem' physpages' pid u :=
  { toOwns := h.toOwns.congr hmem hpages, ready := h.ready, facts := h.facts }

/-- The next page comes from the kernel. -/
theorem Owns.grow (h : Owns prog mem physpages pid mark mark) (hroom : mark < stackAddr pid) :
    Owns prog (memset mem mark 0 PAGESIZE) (incr physpages (mark / PAGESIZE)) pid
      (mark + PAGESIZE) mark := by
  have hpage : PAGESIZE = 4096 := rfl
  have hmarks := h.marks
  have hstack := stackAddr_page pid
  rw [hpage] at hmarks hstack
  refine ⟨h.low, Nat.le_add_right _ _, ?_, h.marks, ?_, ?_, ?_⟩
  · rw [hpage]
    omega
  · rw [hpage]
    omega
  · intro q hlo hhi
    have hq := h.pages q hlo hhi
    by_cases hnew : q = mark / PAGESIZE
    · have hfree : ¬ q * PAGESIZE < mark := by
        rw [hnew, hpage]
        omega
      rw [if_neg hfree] at hq
      rw [← hnew, incr, if_pos rfl, hq, if_pos]
      · rfl
      · rw [hnew, hpage]
        omega
    · have hsame : q * PAGESIZE < mark + PAGESIZE ↔ q * PAGESIZE < mark := by
        rw [hpage] at hnew ⊢
        omega
      rw [incr, if_neg hnew, hq]
      simp only [hsame]
  · intro x hlo hhi
    rw [memset]
    by_cases hnew : mark ≤ x
    · rw [if_pos ⟨hnew, hhi⟩, content, if_neg]
      rintro ⟨hlt, -⟩
      omega
    · rw [if_neg fun hx => hnew hx.1]
      exact h.bytes x hlo (Nat.lt_of_not_le hnew)

/-- A new page gets its mark. -/
theorem Owns.stamp (h : Owns prog mem physpages pid (mark + PAGESIZE) mark) :
    Owns prog (poke mem mark (UInt8.ofNat pid)) physpages pid (mark + PAGESIZE)
      (mark + PAGESIZE) := by
  have hpage : PAGESIZE = 4096 := rfl
  have hmarks := h.marks
  refine ⟨h.low.trans (Nat.le_add_right _ _), Nat.le_refl _, h.high, h.limits, h.limits, h.pages, ?_⟩
  intro x hlo hhi
  rw [content, poke]
  by_cases hx : x = mark
  · rw [hx, Function.update_self, if_pos ⟨by rw [hpage]; omega, hmarks⟩]
  · have hsame : (x < mark + PAGESIZE ∧ x % PAGESIZE = 0) ↔ x < mark ∧ x % PAGESIZE = 0 := by
      rw [hpage] at hmarks hhi ⊢
      omega
    rw [Function.update_of_ne hx, h.bytes x hlo hhi, content]
    simp only [hsame]

/-! ## Steps in user mode -/

/-- A process ID is what it is, as an `int`. -/
theorem toInt_pid (hpid : 1 ≤ pid ∧ pid ≤ 4) : toInt (BitVec.ofNat 64 pid) = pid := by
  have hall : ∀ pid ≤ 4, toInt (BitVec.ofNat 64 pid) = pid := by decide
  exact hall pid hpid.2

/-- Heaps are in the memory of processes. -/
theorem Laid.above (h : Laid prog pid) : PROC_START_ADDR ≤ bottom prog pid :=
  (Nat.le_add_right _ _).trans h.start

/-- The stack of a process is one page. -/
theorem Laid.stack_bottom (h : Laid prog pid) :
    roundDown (prog.rdrsp pid - 1) PAGESIZE = stackAddr pid := by
  obtain ⟨hlo, hhi⟩ := h.stack
  have hpage := stackAddr_page pid
  have hsize : PAGESIZE = 4096 := rfl
  rw [hsize] at hpage hhi ⊢
  rw [roundDown]
  omega

/-- A page that is new is zero. -/
theorem Owns.zero (h : Owns prog mem physpages pid lim mark) {x : Nat} (hlo : mark ≤ x)
    (hhi : x < lim) : mem x = 0 := by
  rw [h.bytes x (h.low.trans hlo) hhi, content, if_neg]
  rintro ⟨hlt, -⟩
  omega

/-- The check of a new page finds zeros. -/
theorem Owns.longZero (h : Owns prog mem physpages pid lim mark) {x : Nat} (hlo : mark ≤ x)
    (hhi : x + 8 ≤ lim) : longZero mem x = true := by
  rw [Allocators.longZero, List.all_eq_true]
  intro i hi
  have hlt := List.mem_range.mp hi
  rw [beq_iff_eq]
  exact h.zero (by omega) (by omega)

/-- Where a step in user mode may write. -/
def Within (prog : Program) (pid : Nat) (mem mem' : Nat → UInt8) : Prop :=
  ∀ x, mem' x ≠ mem x → x < PROC_START_ADDR ∨ bottom prog pid ≤ x ∧ x < stackAddr pid

theorem Within.refl (prog : Program) (pid : Nat) (mem : Nat → UInt8) : Within prog pid mem mem :=
  fun _ hx => absurd rfl hx

/-- The assertion about the page that is new. -/
theorem heapLong_next {top : Nat} (hlow : u.heap_bottom ≤ top) (hpage : top % PAGESIZE = 0)
    (htop : top ≤ u.heap_top) : heapLong u top = true := by
  have hsize : PAGESIZE = 4096 := rfl
  rw [hsize] at hpage
  simp only [heapLong, Bool.and_eq_true, decide_eq_true_eq, beq_iff_eq]
  omega

/-- The variables are set. -/
theorem Heap.move_setup (hlaid : Laid prog pid) (h : Heap prog mem physpages pid u)
    (hpc : u.pc = .setup) (hm : move prog pid draw mem u = .step u' mem') :
    Heap prog mem' physpages pid u' ∧ Within prog pid mem mem' := by
  have howns := h.toOwns
  have hrax := h.facts
  simp only [limit, marked, hpc] at howns
  simp only [Facts, hpc] at hrax
  simp only [Allocators.move, hpc] at hm
  cases hm
  refine ⟨⟨howns, fun _ _ => ⟨?_, rfl, hlaid.stack_bottom⟩, trivial⟩, Within.refl _ _ _⟩
  rw [hrax]
  exact toInt_pid ⟨hlaid.first, hlaid.last⟩

/-- The condition of the loop. -/
theorem Heap.move_test (h : Heap prog mem physpages pid u) (hpc : u.pc = .test)
    (hm : move prog pid draw mem u = .step u' mem') :
    Heap prog mem' physpages pid u' ∧ Within prog pid mem mem' := by
  have howns := h.toOwns
  obtain ⟨hp, hbottom, hstack⟩ := h.ready (by rw [hpc]; nofun) (by rw [hpc]; nofun)
  simp only [limit, marked, hpc] at howns
  simp only [Allocators.move, hpc] at hm
  split at hm
  · rename_i hne
    cases hm
    have hlt : u.heap_top < stackAddr pid := Nat.lt_of_le_of_ne howns.high (hstack ▸ hne)
    refine ⟨?_, Within.refl _ _ _⟩
    -- whatever `rand` returns
    by_cases hdraw : draw < u.p
    · rw [if_pos hdraw]
      exact ⟨howns, fun _ _ => ⟨hp, hbottom, hstack⟩, hlt⟩
    · rw [if_neg hdraw]
      exact ⟨howns, fun _ _ => ⟨hp, hbottom, hstack⟩, trivial⟩
  · rename_i heq
    cases hm
    have hfull : u.heap_top = stackAddr pid := (not_not.mp heq).trans hstack
    exact ⟨⟨howns, fun _ _ => ⟨hp, hbottom, hstack⟩, hfull⟩, Within.refl _ _ _⟩

/-- The kernel has given a page. -/
theorem Heap.move_allocated (h : Heap prog mem physpages pid u) (hpc : u.pc = .allocated)
    (hm : move prog pid draw mem u = .step u' mem') :
    Heap prog mem' physpages pid u' ∧ Within prog pid mem mem' := by
  have howns := h.toOwns
  have hrax := h.facts
  obtain ⟨hp, hbottom, hstack⟩ := h.ready (by rw [hpc]; nofun) (by rw [hpc]; nofun)
  simp only [limit, marked, hpc] at howns
  simp only [Facts, hpc] at hrax
  simp only [Allocators.move, hpc] at hm
  rw [hrax, if_neg (show ¬ toInt 0 < 0 by decide), if_pos (heapLong_next (hbottom ▸ howns.low)
    howns.marks (Nat.le_add_right _ _))] at hm
  cases hm
  refine ⟨⟨howns, fun _ _ => ⟨hp, hbottom, hstack⟩, rfl, ?_, ?_, ?_⟩, Within.refl _ _ _⟩
  · have hmarks := howns.marks
    have hsize : PAGESIZE = 4096 := rfl
    rw [hsize] at hmarks
    show u.heap_top % 8 = 0
    omega
  · exact Nat.le_refl _
  · exact Nat.le_add_right _ _

/-- A pass of the loop that checks the new page: it finds zeros. -/
theorem Heap.move_check (h : Heap prog mem physpages pid u) (hpc : u.pc = .check)
    (hm : move prog pid draw mem u = .step u' mem') :
    Heap prog mem' physpages pid u' ∧ Within prog pid mem mem' := by
  have howns := h.toOwns
  have hfacts := h.facts
  obtain ⟨hp, hbottom, hstack⟩ := h.ready (by rw [hpc]; nofun) (by rw [hpc]; nofun)
  simp only [limit, marked, hpc] at howns
  simp only [Facts, hpc] at hfacts
  obtain ⟨htop, hl, hlo, hhi⟩ := hfacts
  have hlow : bottom prog pid ≤ u.new_page := howns.low
  have hmarks : u.new_page % PAGESIZE = 0 := howns.marks
  have hsize : PAGESIZE = 4096 := rfl
  have hlong : heapLong u (u.new_page + PAGESIZE) = true := by
    refine heapLong_next ?_ ?_ (Nat.le_of_eq htop.symm)
    · rw [hbottom]
      omega
    · rw [hsize] at hmarks ⊢
      omega
  simp only [Allocators.move, hpc, hlong, if_true] at hm
  split at hm
  · rename_i hne
    have hnext : u.l + 8 ≤ u.heap_top := by
      rw [hsize] at hmarks htop hne
      omega
    have hzero : Allocators.longZero mem u.l = true := howns.longZero hlo hnext
    rw [if_pos hzero] at hm
    cases hm
    refine ⟨⟨howns, fun _ _ => ⟨hp, hbottom, hstack⟩, htop, ?_, ?_, hnext⟩, Within.refl _ _ _⟩
    · show (u.l + 8) % 8 = 0
      omega
    · show u.new_page ≤ u.l + 8
      omega
  · cases hm
    exact ⟨⟨howns, fun _ _ => ⟨hp, hbottom, hstack⟩, htop⟩, Within.refl _ _ _⟩

/-- The new page gets its mark. -/
theorem Heap.move_write (hlaid : Laid prog pid) (h : Heap prog mem physpages pid u)
    (hpc : u.pc = .write) (hm : move prog pid draw mem u = .step u' mem') :
    Heap prog mem' physpages pid u' ∧ Within prog pid mem mem' := by
  have howns := h.toOwns
  have htop := h.facts
  obtain ⟨hp, hbottom, hstack⟩ := h.ready (by rw [hpc]; nofun) (by rw [hpc]; nofun)
  simp only [limit, marked, hpc] at howns
  simp only [Facts, hpc] at htop
  have hlow : bottom prog pid ≤ u.new_page := howns.low
  have hbyte : heapByte u u.new_page = true := by
    simp only [heapByte, Bool.and_eq_true, decide_eq_true_eq]
    omega
  simp only [Allocators.move, hpc, hbyte, if_true] at hm
  cases hm
  have hmark : UInt8.ofInt u.p = UInt8.ofNat pid := by
    have hall : ∀ pid ≤ 4, UInt8.ofInt (pid : Nat) = UInt8.ofNat pid := by decide
    rw [hp]
    exact hall pid hlaid.last
  have howns' : Owns prog mem physpages pid (u.new_page + PAGESIZE) u.new_page := htop ▸ howns
  refine ⟨⟨?_, fun _ _ => ⟨hp, hbottom, hstack⟩, trivial⟩, ?_⟩
  · have hstamp := howns'.stamp
    rw [← hmark] at hstamp
    show Owns prog _ physpages pid u.heap_top u.heap_top
    rw [htop]
    exact hstamp
  · intro x hx
    have hsame : x = u.new_page := by
      by_contra hne
      exact hx (Function.update_of_ne hne _ _)
    have hhigh : u.heap_top ≤ stackAddr pid := howns.high
    have hsize : PAGESIZE = 4096 := rfl
    rw [hsize] at htop
    right
    omega

/-- The console is not in the memory of processes. -/
theorem Heap.move_console (hlaid : Laid prog pid) (h : Heap prog mem physpages pid u)
    (hpc : u.pc = .console) (hm : move prog pid draw mem u = .step u' mem') :
    Heap prog mem' physpages pid u' ∧ Within prog pid mem mem' := by
  have howns := h.toOwns
  obtain ⟨hp, hbottom, hstack⟩ := h.ready (by rw [hpc]; nofun) (by rw [hpc]; nofun)
  simp only [limit, marked, hpc] at howns
  simp only [Allocators.move, hpc] at hm
  cases hm
  have hcorner : ∀ x, x ≠ consoleCorner → x ≠ consoleCorner + 1 →
      poke (poke mem consoleCorner (UInt8.ofInt u.p)) (consoleCorner + 1)
        (UInt8.ofInt (u.p / 256)) x = mem x := by
    intro x hx hx'
    rw [poke, Function.update_of_ne hx', poke, Function.update_of_ne hx]
  have hlow : consoleCorner + 1 < PROC_START_ADDR := by decide
  refine ⟨⟨howns.congr ?_ fun _ _ _ => rfl, fun _ _ => ⟨hp, hbottom, hstack⟩, trivial⟩, ?_⟩
  · intro x hx _
    have habove := hlaid.above
    exact hcorner x (by omega) (by omega)
  · intro x hx
    left
    by_contra hge
    exact hx (hcorner x (by omega) (by omega))

/-- **A STEP IN USER MODE** keeps the heap as it should be, and no assertion fails. -/
theorem Heap.move (hlaid : Laid prog pid) (h : Heap prog mem physpages pid u)
    (hm : move prog pid draw mem u = .step u' mem') :
    Heap prog mem' physpages pid u' ∧ Within prog pid mem mem' := by
  cases hpc : u.pc with
  | getpid => simp only [Allocators.move, hpc, reduceCtorEq] at hm
  | setup => exact h.move_setup hlaid hpc hm
  | test => exact h.move_test hpc hm
  | alloc => simp only [Allocators.move, hpc, reduceCtorEq] at hm
  | allocated => exact h.move_allocated hpc hm
  | check => exact h.move_check hpc hm
  | write => exact h.move_write hlaid hpc hm
  | console => exact h.move_console hlaid hpc hm
  | yield => simp only [Allocators.move, hpc, reduceCtorEq] at hm
  | idle => simp only [Allocators.move, hpc, reduceCtorEq] at hm
  | failed =>
      have hfacts := h.facts
      simp only [Facts, hpc] at hfacts

/-! ## System calls -/

/-- The process has its process ID. -/
theorem Heap.asked (h : Heap prog mem physpages pid u) (hpc : u.pc = .getpid) :
    Heap prog mem physpages pid { u with pc := .setup, rax := BitVec.ofNat 64 pid } := by
  have howns := h.toOwns
  simp only [limit, marked, hpc] at howns
  exact ⟨howns, fun _ hno => absurd rfl hno, rfl⟩

/-- The process is back from `sys_yield`. -/
theorem Heap.turned (h : Heap prog mem physpages pid u) (hpc : u.pc = .yield) :
    Heap prog mem physpages pid { u with pc := .test } := by
  have howns := h.toOwns
  have hready : Ready prog pid u := h.ready (by rw [hpc]; nofun) (by rw [hpc]; nofun)
  simp only [limit, marked, hpc] at howns
  exact ⟨howns, fun _ _ => hready, trivial⟩

/-- No assertion has failed. -/
theorem Heap.fine (h : Heap prog mem physpages pid u) : u.pc ≠ .failed := by
  intro hpc
  have hfacts := h.facts
  simp only [Facts, hpc] at hfacts

/-- Before a page is asked for there is room for it. -/
theorem Heap.room (h : Heap prog mem physpages pid u) (hpc : u.pc = .alloc) :
    Owns prog mem physpages pid u.heap_top u.heap_top ∧ u.heap_top < stackAddr pid := by
  have howns := h.toOwns
  have hfacts := h.facts
  simp only [limit, marked, hpc] at howns
  simp only [Facts, hpc] at hfacts
  exact ⟨howns, hfacts⟩

/-- The page that the process has asked for. -/
theorem Heap.given (h : Heap prog mem physpages pid u) (hpc : u.pc = .alloc) :
    Heap prog (memset mem u.heap_top 0 PAGESIZE) (incr physpages (u.heap_top / PAGESIZE)) pid
      { u with pc := .allocated, rax := 0 } := by
  obtain ⟨howns, hroom⟩ := h.room hpc
  have hready : Ready prog pid u := h.ready (by rw [hpc]; nofun) (by rw [hpc]; nofun)
  exact ⟨howns.grow hroom, fun _ _ => hready, rfl⟩

/-- Which system calls a process makes, and from where. -/
inductive Calls (u : Vars) : Word → Word → Vars → Prop where
  | getpid (hpc : u.pc = .getpid) : Calls u SYSCALL_GETPID 0 { u with pc := .setup }
  | alloc (hpc : u.pc = .alloc) :
      Calls u SYSCALL_PAGE_ALLOC (BitVec.ofNat 64 u.heap_top) { u with pc := .allocated }
  | yield (hpc : u.pc = .yield) : Calls u SYSCALL_YIELD 0 { u with pc := .test }
  | idle (hpc : u.pc = .idle) : Calls u SYSCALL_YIELD 0 u
  | failed (hpc : u.pc = .failed) : Calls u SYSCALL_PANIC 0 u

/-- A step that is a system call is one of these. -/
theorem move_calls {rax rdi : Word} (hm : move prog pid draw mem u = .call rax rdi u') :
    Calls u rax rdi u' := by
  -- by the place in the program; between the calls there is none
  cases hpc : u.pc with
  | getpid =>
      simp only [move, hpc] at hm
      cases hm
      exact .getpid hpc
  | alloc =>
      simp only [move, hpc] at hm
      cases hm
      exact .alloc hpc
  | yield =>
      simp only [move, hpc] at hm
      cases hm
      exact .yield hpc
  | idle =>
      simp only [move, hpc] at hm
      cases hm
      exact .idle hpc
  | failed =>
      simp only [move, hpc] at hm
      cases hm
      exact .failed hpc
  | setup =>
      simp only [move, hpc] at hm
      cases hm
  | test =>
      simp only [move, hpc] at hm
      split at hm <;> cases hm
  | allocated =>
      simp only [move, hpc] at hm
      split at hm <;> cases hm
  | check =>
      simp only [move, hpc] at hm
      split at hm
      · split at hm
        · split at hm <;> cases hm
        · cases hm
      · cases hm
  | write =>
      simp only [move, hpc] at hm
      split at hm <;> cases hm
  | console =>
      simp only [move, hpc] at hm
      cases hm

/-! ## Runs -/

variable {c c' : Config} {s s' : Sys} {w w' : World} {acts : List Act} {other : Nat}

/-- All four are. -/
def Linked (prog : Program) : Prop := ∀ pid, 1 ≤ pid → pid ≤ 4 → Laid prog pid

/-- **THE INVARIANT** of the machine. -/
structure Safe (b : Boot) (prog : Program) (w : World) : Prop where
  sound : Sound b w.c
  low : Low w.c.sys
  free : ∀ i, 5 ≤ i → (w.c.sys.kernel.ptable i).state = P_FREE
  heaps : ¬ Stopped w.c.mode → ∀ pid, 1 ≤ pid → pid ≤ 4 →
    Heap prog w.c.sys.kernel.mem w.c.sys.kernel.physpages pid (w.vars pid)
  fine : ∀ pid, 1 ≤ pid → pid ≤ 4 → (w.vars pid).pc ≠ .failed

/-- The process that runs is one of the four. -/
theorem Safe.current (h : Safe b prog w) : 1 ≤ w.c.sys.current ∧ w.c.sys.current ≤ 4 := by
  have hlive := h.sound.live
  constructor
  · by_contra hlt
    have hzero : w.c.sys.current = 0 := by omega
    rw [hzero] at hlive
    exact hlive h.sound.zero
  · by_contra hgt
    exact hlive (h.free _ (by omega))

/-- The heaps of two processes are apart. -/
theorem Laid.apart (h : Laid prog pid) (h' : Laid prog other) (hne : other ≠ pid) {x : Nat}
    (hx : bottom prog pid ≤ x ∧ x < stackAddr pid) :
    ¬ (bottom prog other ≤ x ∧ x < stackAddr other) := by
  rintro ⟨hlo, hhi⟩
  have hstart : 0x100000 + 0x40000 * (pid - 1) ≤ bottom prog pid := h.start
  have hstart' : 0x100000 + 0x40000 * (other - 1) ≤ bottom prog other := h'.start
  have hstack : x < 0x100000 + 0x40000 * pid - 4096 := hx.2
  have hstack' : x < 0x100000 + 0x40000 * other - 4096 := hhi
  have hfirst := h.first
  have hfirst' := h'.first
  have hlast := h.last
  have hlast' := h'.last
  omega

/-- What a process does in its own memory, the others do not see. -/
theorem Heap.within (h : Heap prog mem physpages other u) (hlaid : Laid prog pid)
    (hlaid' : Laid prog other) (hne : other ≠ pid) (hw : Within prog pid mem mem') :
    Heap prog mem' physpages other u := by
  refine h.congr ?_ fun _ _ _ => rfl
  intro x hlo hhi
  by_contra hx
  rcases hw x hx with hlt | hin
  · have habove := hlaid'.above
    omega
  · exact hlaid.apart hlaid' hne hin ⟨hlo, hhi⟩

/-- What the kernel keeps. -/
theorem Heap.kept (h : Heap prog s.kernel.mem s.kernel.physpages pid u) (hlaid : Laid prog pid)
    (hk : Kept s s') : Heap prog s'.kernel.mem s'.kernel.physpages pid u := by
  have habove : 0x100000 ≤ bottom prog pid := hlaid.above
  refine h.congr ?_ ?_
  · intro x hlo _
    exact hk.mem x (hlaid.above.trans hlo)
  · intro q hlo _
    have hpage : bottom prog pid ≤ q * 4096 := hlo
    exact hk.pages q (by omega)

/-- A page that another process is given. -/
theorem Heap.others (h : Heap prog s.kernel.mem s.kernel.physpages other u)
    (hlaid : Laid prog pid) (hlaid' : Laid prog other) (hne : other ≠ pid) {top : Nat}
    (hpage : top % PAGESIZE = 0) (hlo : bottom prog pid ≤ top) (hhi : top < stackAddr pid) :
    Heap prog (zeroPage top s).kernel.mem (zeroPage top s).kernel.physpages other u := by
  have hsize : PAGESIZE = 4096 := rfl
  have hstack := stackAddr_page pid
  rw [hsize] at hpage hstack
  refine h.congr ?_ ?_
  · intro x hxlo hxhi
    refine if_neg ?_
    rintro ⟨hle, hlt⟩
    rw [hsize] at hlt
    refine hlaid.apart hlaid' hne ⟨hlo.trans hle, ?_⟩ ⟨hxlo, hxhi⟩
    omega
  · intro q hqlo hqhi
    refine if_neg ?_
    intro hq
    refine hlaid.apart hlaid' hne (x := top) ⟨hlo, hhi⟩ ?_
    have htop : q * PAGESIZE = top := by
      rw [hq, hsize]
      omega
    rw [← htop]
    exact ⟨hqlo, hqhi⟩

/-- The process that runs takes a step in user mode. -/
theorem Safe.user (hlink : Linked prog) (h : Safe b prog w) (hgo : ¬ Stopped w.c.mode)
    (hm : move prog w.c.sys.current draw w.c.sys.kernel.mem (w.vars w.c.sys.current)
      = .step u mem) :
    Safe b prog { c := { w.c with sys := w.c.sys.setMem mem },
                  vars := Function.update w.vars w.c.sys.current u } := by
  obtain ⟨hfirst, hlast⟩ := h.current
  have hlaid := hlink _ hfirst hlast
  obtain ⟨hheap, hwithin⟩ := (h.heaps hgo _ hfirst hlast).move hlaid hm
  have hothers : ∀ pid, 1 ≤ pid → pid ≤ 4 → Heap prog mem w.c.sys.kernel.physpages pid
      (Function.update w.vars w.c.sys.current u pid) := by
    intro pid hlo hhi
    by_cases hpid : pid = w.c.sys.current
    · rw [hpid, Function.update_self]
      exact hheap
    · rw [Function.update_of_ne hpid]
      exact (h.heaps hgo pid hlo hhi).within hlaid (hlink pid hlo hhi) hpid hwithin
  exact ⟨h.sound.setMem mem, h.low, h.free, fun _ => hothers,
    fun pid hlo hhi => (hothers pid hlo hhi).fine⟩

/-- A process that calls the kernel behaves. -/
theorem Safe.behaves (hlink : Linked prog) (h : Safe b prog w) (hgo : ¬ Stopped w.c.mode)
    {rax rdi : Word} (hcall : Calls (w.vars w.c.sys.current) rax rdi u) (regs : UserRegs)
    (data : Option UInt8) :
    Behaves w.c (.syscall mem { regs.val with reg_rax := rax, reg_rdi := rdi } data) := by
  obtain ⟨hfirst, hlast⟩ := h.current
  have hlaid := hlink _ hfirst hlast
  have hheap := h.heaps hgo _ hfirst hlast
  cases hcall with
  | getpid hpc => exact Or.inl rfl
  | yield hpc => exact Or.inr (Or.inl ⟨rfl, regs.property⟩)
  | idle hpc => exact Or.inr (Or.inl ⟨rfl, regs.property⟩)
  | failed hpc => exact absurd hpc hheap.fine
  | alloc hpc =>
      -- the page of the heap's top is below the stack
      obtain ⟨howns, hroom⟩ := hheap.room hpc
      have hlow := hlaid.above.trans howns.low
      have hpage := howns.marks
      have hstack := stackAddr_page w.c.sys.current
      have hstop : stackAddr w.c.sys.current ≤ 0x1FF000 := by
        show 0x100000 + 0x40000 * w.c.sys.current - 4096 ≤ 0x1FF000
        omega
      have hsize : PAGESIZE = 4096 := rfl
      have haddr : (BitVec.ofNat 64 (w.vars w.c.sys.current).heap_top).toNat
          = (w.vars w.c.sys.current).heap_top := by
        rw [BitVec.toNat_ofNat]
        exact Nat.mod_eq_of_lt (by omega)
      rw [hsize] at hpage hstack
      refine Or.inr (Or.inr ⟨rfl, ?_, ?_, ?_⟩)
      · rw [haddr]
        exact hlow
      · rw [haddr]
        show _ + 4096 ≤ 0x200000
        omega
      · -- the page is not used yet
        rw [haddr]
        have hdiv : (w.vars w.c.sys.current).heap_top / PAGESIZE * PAGESIZE
            = (w.vars w.c.sys.current).heap_top := by
          rw [hsize]
          omega
        refine (howns.pages _ ?_ ?_).trans (if_neg ?_)
        · rw [hdiv]
          exact howns.low
        · rw [hdiv]
          exact hroom
        · rw [hdiv]
          exact Nat.lt_irrefl _

/-- A result does not change the place in the program. -/
theorem deliver_pc (mode : Mode) (u : Vars) : (deliver mode u).pc = u.pc := by
  cases mode with
  | user rax => cases rax <;> rfl
  | _ => rfl

/-- A call does not lead to a failed assertion. -/
theorem Calls.fine {rax rdi : Word} (h : Calls u rax rdi u') (hpc : u.pc ≠ .failed) :
    u'.pc ≠ .failed := by
  cases h with
  | getpid hpc => nofun
  | alloc hpc => nofun
  | yield hpc => nofun
  | idle hidle =>
      rw [hidle]
      nofun
  | failed hfail => exact absurd hfail hpc

/-- The heap of the process that has called. -/
theorem Heap.called {rax rdi : Word} (hlaid : Laid prog c.sys.current)
    (hpids : (c.sys.kernel.ptable c.sys.current).pid = c.sys.current)
    (h : Heap prog c.sys.kernel.mem c.sys.kernel.physpages c.sys.current u)
    (hcall : Calls u rax rdi u') (hgo : ¬ Stopped c'.mode)
    (hc : Called c c.sys regs c') (hrax : regs.reg_rax = rax) (hrdi : regs.reg_rdi = rdi) :
    (∀ pid u, pid ≠ c.sys.current → Laid prog pid →
        Heap prog c.sys.kernel.mem c.sys.kernel.physpages pid u →
        Heap prog c'.sys.kernel.mem c'.sys.kernel.physpages pid u)
      ∧ Heap prog c'.sys.kernel.mem c'.sys.kernel.physpages c.sys.current (deliver c'.mode u') := by
  cases hc with
  | stopped hm => exact absurd hm hgo
  | getpid hr hm hk =>
      -- what the kernel does for one process, no other sees
      refine ⟨fun pid u _ hlaid' hu => hu.kept hlaid' hk, ?_⟩
      rw [hm, hpids]
      cases hcall with
      | getpid hpc => exact (h.asked hpc).kept hlaid hk
      | alloc hpc => exact absurd (hrax.symm.trans hr) (by decide)
      | yield hpc => exact absurd (hrax.symm.trans hr) (by decide)
      | idle hpc => exact absurd (hrax.symm.trans hr) (by decide)
      | failed hpc => exact absurd hpc h.fine
  | yield hr hm hk =>
      refine ⟨fun pid u _ hlaid' hu => hu.kept hlaid' hk, ?_⟩
      rw [hm]
      cases hcall with
      | getpid hpc => exact absurd (hrax.symm.trans hr) (by decide)
      | alloc hpc => exact absurd (hrax.symm.trans hr) (by decide)
      | yield hpc => exact (h.turned hpc).kept hlaid hk
      | idle hpc => exact h.kept hlaid hk
      | failed hpc => exact absurd hpc h.fine
  | alloc hr hm hk =>
      cases hcall with
      | getpid hpc => exact absurd (hrax.symm.trans hr) (by decide)
      | yield hpc => exact absurd (hrax.symm.trans hr) (by decide)
      | idle hpc => exact absurd (hrax.symm.trans hr) (by decide)
      | failed hpc => exact absurd hpc h.fine
      | alloc hpc =>
          obtain ⟨howns, hroom⟩ := h.room hpc
          -- the address that is asked for is the top of the heap
          have haddr : regs.reg_rdi.toNat = u.heap_top := by
            have hstop : stackAddr c.sys.current ≤ 0x1FF000 := by
              have hlast := hlaid.last
              show 0x100000 + 0x40000 * c.sys.current - 4096 ≤ 0x1FF000
              omega
            rw [hrdi, BitVec.toNat_ofNat]
            exact Nat.mod_eq_of_lt (by omega)
          rw [haddr] at hk
          refine ⟨?_, ?_⟩
          · -- the page is in no other heap
            intro pid v hne hlaid' hv
            exact (hv.others hlaid hlaid' hne howns.marks howns.low hroom).kept hlaid' hk
          · rw [hm]
            have hgiven : Heap prog (zeroPage u.heap_top c.sys).kernel.mem
                (zeroPage u.heap_top c.sys).kernel.physpages c.sys.current
                { u with pc := .allocated, rax := 0 } := h.given hpc
            exact hgiven.kept hlaid hk

/-- The process that runs calls the kernel. -/
theorem Safe.call (hlink : Linked prog) (h : Safe b prog w) {rax : Option Word}
    (hmode : w.c.mode = .user rax) {r rdi : Word}
    (hcall : Calls (w.vars w.c.sys.current) r rdi u) (regs : UserRegs) (data : Option UInt8)
    (hs : KernelLoop.step b w.c (.syscall w.c.sys.kernel.mem
      { regs.val with reg_rax := r, reg_rdi := rdi } data) = some c') :
    Safe b prog { c := c', vars := Function.update w.vars w.c.sys.current (deliver c'.mode u) } := by
  obtain ⟨hfirst, hlast⟩ := h.current
  have hgo : ¬ Stopped w.c.mode := by
    rw [hmode]
    exact id
  have hbehaves : Behaves w.c (.syscall w.c.sys.kernel.mem
      { regs.val with reg_rax := r, reg_rdi := rdi } data) :=
    h.behaves hlink hgo hcall regs data
  have hsound := h.sound.step hbehaves hs
  have hinv := h.sound.toInv
  obtain ⟨hlow, hcalled⟩ := h.sound.called h.low hbehaves hs
  refine ⟨hsound, hlow, ?_, ?_, ?_⟩
  · intro i hi
    exact (step_outcome h.sound.running hs).free hinv (h.free i hi)
  · intro hgo' pid hlo hhi
    obtain ⟨hothers, hown⟩ := Heap.called (hlink _ hfirst hlast)
      (hinv.pids _ hinv.current) (h.heaps hgo _ hfirst hlast) hcall hgo' hcalled rfl rfl
    show Heap prog c'.sys.kernel.mem c'.sys.kernel.physpages pid
      (Function.update w.vars w.c.sys.current (deliver c'.mode u) pid)
    by_cases hpid : pid = w.c.sys.current
    · rw [hpid, Function.update_self]
      exact hown
    · rw [Function.update_of_ne hpid]
      exact hothers pid _ hpid (hlink pid hlo hhi) (h.heaps hgo pid hlo hhi)
  · intro pid hlo hhi
    show (Function.update w.vars w.c.sys.current (deliver c'.mode u) pid).pc ≠ .failed
    by_cases hpid : pid = w.c.sys.current
    · rw [hpid, Function.update_self, deliver_pc]
      exact hcall.fine (h.fine _ hfirst hlast)
    · rw [Function.update_of_ne hpid]
      exact h.fine pid hlo hhi

/-- The timer, or a pass of the scheduler. -/
theorem Safe.turned (hlink : Linked prog) (h : Safe b prog w) {a : Action}
    (ha : ∀ mem regs data, a ≠ .syscall mem regs data) (hb : Behaves w.c a)
    (hmem : (base w.c a).kernel.mem = w.c.sys.kernel.mem
      ∧ (base w.c a).kernel.physpages = w.c.sys.kernel.physpages)
    (hs : KernelLoop.step b w.c a = some c') : Safe b prog { w with c := c' } := by
  obtain ⟨hlow, hkept⟩ := h.sound.turned h.low hb hs ha
  refine ⟨h.sound.step hb hs, hlow, ?_, ?_, h.fine⟩
  · intro i hi
    exact (step_outcome h.sound.running hs).free h.sound.toInv (h.free i hi)
  · intro hgo' pid hlo hhi
    have hheap := h.heaps (h.sound.going hs) pid hlo hhi
    rcases hkept with hstop | hkept
    · exact absurd hstop hgo'
    · rw [← hmem.1, ← hmem.2] at hheap
      exact hheap.kept (hlink pid hlo hhi) hkept

/-- **ONE STEP** keeps the invariant. -/
theorem Safe.step (hlink : Linked prog) (h : Safe b prog w) {a : Act}
    (hs : w.step b prog a = some w') : Safe b prog w' := by
  -- a process steps, the timer interrupts it, or the kernel looks for one
  cases a with
  | go draw regs data =>
      simp only [World.step] at hs
      cases hmode : w.c.mode with
      | user rax =>
          have hgo : ¬ Stopped w.c.mode := by
            rw [hmode]
            exact id
          simp only [hmode] at hs
          cases hm : move prog w.c.sys.current draw w.c.sys.kernel.mem (w.vars w.c.sys.current) with
          | step u mem =>
              simp only [hm] at hs
              obtain rfl := Option.some.inj hs
              have huser := h.user hlink hgo hm
              rw [← hmode]
              exact huser
          | call r rdi u =>
              simp only [hm] at hs
              obtain ⟨c', hstep, rfl⟩ := Option.map_eq_some_iff.mp hs
              exact h.call hlink hmode (move_calls hm) regs data hstep
      | spinning pid spins =>
          simp only [hmode] at hs
          cases hs
      | failed message => exact absurd hmode (h.sound.fine.1 message)
      | rebooting argument =>
          simp only [hmode] at hs
          cases hs
      | off =>
          simp only [hmode] at hs
          cases hs
      | wild => exact absurd hmode h.sound.fine.2
  | tick regs data =>
      obtain ⟨c', hstep, rfl⟩ := Option.map_eq_some_iff.mp hs
      have hb : Behaves w.c (.exception w.c.sys.kernel.mem
          { regs.val with reg_intno := INT_TIMER } data) := Or.inl ⟨rfl, regs.property⟩
      exact h.turned hlink (by simp) hb ⟨rfl, rfl⟩ hstep
  | pass data =>
      obtain ⟨c', hstep, rfl⟩ := Option.map_eq_some_iff.mp hs
      have hb : Behaves w.c (.pass data) := trivial
      exact h.turned hlink (by simp) hb ⟨rfl, rfl⟩ hstep

/-- **EVERY RUN** keeps the invariant. -/
theorem Safe.steps (hlink : Linked prog) (h : Safe b prog w)
    (hs : w.steps b prog acts = some w') : Safe b prog w' := by
  induction acts generalizing w with
  | nil =>
      obtain rfl := Option.some.inj hs
      exact h
  | cons a acts ih =>
      obtain ⟨w₁, hstep, hrest⟩ := Option.bind_eq_some_iff.mp hs
      exact ih (h.step hlink hstep) hrest

/-! ## From `kernel_start` -/

variable {ramimages : List (String × ElfHeader)} {k k' : KState}

/-- The images of the four processes. -/
def image (pid : Nat) : String :=
  match pid with
  | 1 => "allocator"
  | 2 => "allocator2"
  | 3 => "allocator3"
  | _ => "allocator4"

/-- The linker puts the images where they belong, and `end` behind them. -/
def Built (prog : Program) (ramimages : List (String × ElfHeader)) : Prop :=
  ∀ pid, 1 ≤ pid → pid ≤ 4 → ∀ elf, programImage ramimages (image pid) = some elf →
    ∀ ph ∈ loads (headers elf), PROC_START_ADDR + PROC_SIZE * (pid - 1) ≤ ph.p_va
      ∧ ph.p_va + ph.p_memsz ≤ prog.endSymbol pid

/-- The page is that of the image or of the stack of one of the four. -/
def InUse (ramimages : List (String × ElfHeader)) (q : Nat) : Prop :=
  ∃ pid, 1 ≤ pid ∧ pid ≤ 4 ∧ PageOf ramimages (image pid) pid q

/-- No page of an image or of a stack lies in a heap. -/
theorem InUse.not_heap {q : Nat} (h : InUse ramimages q) (hbuilt : Built prog ramimages)
    (hlink : Linked prog) (hlaid : Laid prog pid)
    (hq : bottom prog pid ≤ q * PAGESIZE ∧ q * PAGESIZE < stackAddr pid) : False := by
  obtain ⟨other, hlo, hhi, hof⟩ := h
  have hlaid' := hlink other hlo hhi
  have hstart : 0x100000 + 0x40000 * (pid - 1) ≤ bottom prog pid := hlaid.start
  have hfirst := hlaid.first
  have hlast := hlaid.last
  have hsize : PAGESIZE = 4096 := rfl
  rw [hsize] at hq
  rcases hof with rfl | ⟨elf, himage, ph, hph, hle, hlt⟩
  · -- a stack is behind its own heap, and before the next image
    have hpage := stackAddr_page other
    have hstack : stackAddr other = 0x100000 + 0x40000 * other - 4096 := rfl
    have hstack' : stackAddr pid = 0x100000 + 0x40000 * pid - 4096 := rfl
    rw [hsize] at hpage hq
    omega
  · obtain ⟨hva, hstop⟩ := hbuilt other hlo hhi elf himage ph hph
    have hva : 0x100000 + 0x40000 * (other - 1) ≤ ph.p_va := hva
    have hround : (ph.p_va - ph.p_va % 4096) / 4096 ≤ q := hle
    have hbottom : prog.endSymbol other ≤ bottom prog other := (roundUp_page _).2
    have hstop' := hlaid'.stop
    have hstack : stackAddr other = 0x100000 + 0x40000 * other - 4096 := rfl
    have hstack' : stackAddr pid = 0x100000 + 0x40000 * pid - 4096 := rfl
    rw [hsize] at hlt
    by_cases hne : other = pid
    · rw [hne] at hbottom hstop
      omega
    · omega

/-- What is in use after one more process is set up. -/
theorem SetUp.used {name : String} (h : SetUp b ramimages name pid k k') (hname : name = image pid)
    (hlo : 1 ≤ pid) (hhi : pid ≤ 4) (hk : ∀ q, k.physpages q = 0 ∨ InUse ramimages q) (q : Nat) :
    k'.physpages q = 0 ∨ InUse ramimages q := by
  rcases h.pages q with hsame | ⟨-, -, -, hof⟩
  · rw [hsame]
    exact hk q
  · exact Or.inr ⟨pid, hlo, hhi, hname ▸ hof⟩

/-- What is in use after the four processes are set up. -/
theorem setupProcesses_used {command : String}
    (hcommand : (programImage ramimages command).map isEmpty = some true)
    (hk : ∀ q, k.physpages q = 0)
    (hs : setupProcesses b ramimages command k = some k') :
    (∀ i, 5 ≤ i → k'.ptable i = k.ptable i) ∧ ∀ q, k'.physpages q = 0 ∨ InUse ramimages q := by
  rw [setupProcesses] at hs
  obtain ⟨pgm, hpgm, hs⟩ := Option.bind_eq_some_iff.mp hs
  rw [hpgm] at hcommand
  rw [if_pos (Option.some.inj hcommand)] at hs
  obtain ⟨k₁, h₁, hs⟩ := Option.bind_eq_some_iff.mp hs
  obtain ⟨k₂, h₂, hs⟩ := Option.bind_eq_some_iff.mp hs
  obtain ⟨k₃, h₃, h₄⟩ := Option.bind_eq_some_iff.mp hs
  have hs₁ := processSetup_setUp (by decide) h₁
  have hs₂ := processSetup_setUp (by decide) h₂
  have hs₃ := processSetup_setUp (by decide) h₃
  have hs₄ := processSetup_setUp (by decide) h₄
  constructor
  · intro i hi
    rw [hs₄.others i (by omega), hs₃.others i (by omega), hs₂.others i (by omega),
      hs₁.others i (by omega)]
  · have hu₁ := SetUp.used hs₁ rfl (by decide) (by decide) fun q => Or.inl (hk q)
    have hu₂ := SetUp.used hs₂ rfl (by decide) (by decide) hu₁
    have hu₃ := SetUp.used hs₃ rfl (by decide) (by decide) hu₂
    exact SetUp.used hs₄ rfl (by decide) (by decide) hu₃

/-- **`kernel_start`** sets up four processes whose heaps are empty. -/
theorem safe_start {firstProcess : String} {command : Option String}
    (hlink : Linked prog) (hbuilt : Built prog ramimages) (habove : AboveStart ramimages)
    (hcommand : (programImage ramimages (command.getD firstProcess)).map isEmpty = some true)
    (hstart : kernelStart b firstProcess ramimages command mem = some c) :
    Safe b prog { c := c, vars := fun _ => fresh } := by
  have hs := kernelStart_start hstart
  obtain ⟨k, hk, rfl⟩ := Option.map_eq_some_iff.mp hstart
  obtain ⟨hfree, hused⟩ := setupProcesses_used hcommand (fun _ => rfl) hk
  have hkernel : (run b 1 (initialSys k)).sys.kernel = k := run_kernel b 1 (initialSys k)
  refine ⟨hs.sound habove, ?_, ?_, ?_, fun _ _ _ => nofun⟩
  · intro v hv
    rw [hs.v] at hv
    cases hv
  · intro i hi
    show ((run b 1 (initialSys k)).sys.kernel.ptable i).state = P_FREE
    rw [hkernel, hfree i hi]
    rfl
  · intro _ pid hlo hhi
    have hlaid := hlink pid hlo hhi
    have hpage := (roundUp_page (prog.endSymbol pid)).1
    refine ⟨⟨Nat.le_refl _, Nat.le_refl _, hlaid.stop, hpage, hpage, ?_, ?_⟩,
      fun hno => absurd rfl hno, trivial⟩
    · intro q hqlo hqhi
      show (run b 1 (initialSys k)).sys.kernel.physpages q = if q * PAGESIZE < bottom prog pid
        then 1 else 0
      rw [hkernel, if_neg (Nat.not_lt.mpr hqlo)]
      rcases hused q with hzero | huse
      · exact hzero
      · exact (huse.not_heap hbuilt hlink hlaid ⟨hqlo, hqhi⟩).elim
    · intro x hxlo hxhi
      have hlt : x < bottom prog pid := hxhi
      omega

/-- **THE ALLOCATORS ARE SAFE**: in every run from `kernel_start`, however the four
    processes are interleaved, no assertion of the kernel or of a process fails; the pages
    of a process between its image and its stack are in use exactly as far as it has
    allocated them, and they hold what it has written and nothing else; when it stops to
    allocate, it has them all. -/
theorem allocators_safe {firstProcess : String} {command : Option String}
    (hlink : Linked prog) (hbuilt : Built prog ramimages) (habove : AboveStart ramimages)
    (hcommand : (programImage ramimages (command.getD firstProcess)).map isEmpty = some true)
    (hstart : kernelStart b firstProcess ramimages command mem = some c)
    (hrun : World.steps b prog { c := c, vars := fun _ => fresh } acts = some w) :
    (∀ message, w.c.mode ≠ .failed message) ∧ w.c.mode ≠ .wild
      ∧ ∀ pid, 1 ≤ pid → pid ≤ 4 → (w.vars pid).pc ≠ .failed
        ∧ (¬ Stopped w.c.mode →
          (∀ q, bottom prog pid ≤ q * PAGESIZE → q * PAGESIZE < stackAddr pid →
            w.c.sys.kernel.physpages q = if q * PAGESIZE < limit prog pid (w.vars pid) then 1 else 0)
          ∧ (∀ x, bottom prog pid ≤ x → x < limit prog pid (w.vars pid) →
            w.c.sys.kernel.mem x = content pid (marked prog pid (w.vars pid)) x)
          ∧ ((w.vars pid).pc = .idle → limit prog pid (w.vars pid) = stackAddr pid)) := by
  have hsafe := (safe_start hlink hbuilt habove hcommand hstart).steps hlink hrun
  refine ⟨hsafe.sound.fine.1, hsafe.sound.fine.2, ?_⟩
  intro pid hlo hhi
  refine ⟨hsafe.fine pid hlo hhi, fun hgo => ?_⟩
  have hheap := hsafe.heaps hgo pid hlo hhi
  refine ⟨hheap.pages, hheap.bytes, ?_⟩
  intro hpc
  have hfacts := hheap.facts
  simp only [Facts, hpc] at hfacts
  simp only [limit, hpc]
  exact hfacts

/-- An image of two pages at the start of its process's memory. -/
def smallLinked (pid : Nat) : ElfHeader where
  e_magic := ELF_MAGIC
  e_entry := 0
  programs := [{ p_type := 1, p_offset := 0, p_va := PROC_START_ADDR + PROC_SIZE * (pid - 1),
                 p_filesz := 16, p_memsz := 0x1010 }]
  bytes := fun i => UInt8.ofNat i

/-- The four images. -/
def smallImages : List (String × ElfHeader) := [1, 2, 3, 4].map fun pid => (image pid, smallLinked pid)

/-- `end` right behind the image, and a stack pointer inside the stack page. -/
def smallProgram : Program where
  endSymbol := fun pid => PROC_START_ADDR + PROC_SIZE * (pid - 1) + 0x1010
  rdrsp := fun pid => stackAddr pid + 0xFE0

/-- The small programs are linked as they should be. -/
theorem small_linked : Linked smallProgram := by
  intro pid hlo hhi
  have hall : ∀ pid ≤ 4, 1 ≤ pid →
      PROC_START_ADDR + PROC_SIZE * (pid - 1) ≤ bottom smallProgram pid
        ∧ bottom smallProgram pid ≤ stackAddr pid
        ∧ stackAddr pid < smallProgram.rdrsp pid
        ∧ smallProgram.rdrsp pid ≤ stackAddr pid + PAGESIZE := by
    decide
  obtain ⟨hstart, hstop, hstack⟩ := hall pid hhi hlo
  exact ⟨hlo, hhi, hstart, hstop, hstack⟩

theorem small_built : Built smallProgram smallImages := by
  intro pid hlo hhi elf helf ph hph
  have hall : ∀ pid ≤ 4, 1 ≤ pid → ((programImage smallImages (image pid)).map fun elf =>
      (loads (headers elf)).all fun ph => PROC_START_ADDR + PROC_SIZE * (pid - 1) ≤ ph.p_va
        && ph.p_va + ph.p_memsz ≤ smallProgram.endSymbol pid) = some true := by
    decide
  have hone := hall pid hhi hlo
  rw [helf] at hone
  have hseg := List.all_eq_true.mp (Option.some.inj hone) ph hph
  simp only [Bool.and_eq_true, decide_eq_true_eq] at hseg
  exact hseg

theorem small_above : AboveStart smallImages := by
  have hall : ∀ r ∈ smallImages, ∀ ph ∈ loads r.2.programs, PROC_START_ADDR ≤ ph.p_va := by decide
  exact hall

/-- Registers that the kernel accepts. -/
def smallUser : UserRegs := ⟨smallRegs 0 0 0, by decide⟩

/-- The first process allocates a page and is interrupted while it checks it, and
    the next one starts. -/
def smallTurns : List Act :=
  (List.replicate 7 (.go 0 smallUser none) ++ [.tick smallUser none, .pass none]
    ++ List.replicate 6 (.go 0 smallUser none))

theorem allocators_safe_small : ∃ c w,
    kernelStart smallBoot "allocators" smallImages none (fun _ => 0) = some c
      ∧ World.steps smallBoot smallProgram { c := c, vars := fun _ => fresh } smallTurns = some w
      ∧ (∀ message, w.c.mode ≠ .failed message) := by
  have hruns : ((kernelStart smallBoot "allocators" smallImages none fun _ => 0).bind fun c =>
      World.steps smallBoot smallProgram { c := c, vars := fun _ => fresh } smallTurns).isSome
        = true := by
    decide +kernel
  obtain ⟨w, hw⟩ := Option.isSome_iff_exists.mp hruns
  obtain ⟨c, hc, hrun⟩ := Option.bind_eq_some_iff.mp hw
  have hcommand : (programImage smallImages (Option.getD none "allocators")).map isEmpty
      = some true := by decide
  exact ⟨c, w, hc, hrun,
    (allocators_safe small_linked small_built small_above hcommand hc hrun).1⟩

end KernelLoop.Allocators
