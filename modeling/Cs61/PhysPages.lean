import Cs61.CyclicScan
import Cs61.KernelEntry

/-! # Physical pages of WeensyOS

    The kernel's memory, `physpages` and `ptable`, and the ways in which pages
    are granted: `kalloc`, the claims of `process_setup` for segments and
    stack, and `syscall_page_alloc`.  `kernelEnd` is the linker's
    `_kernel_end`.

    * `Inv.step` — the reference counts are 1 for what was granted;
    * `kalloc_cases` — what `kalloc` grants; `granted_once`. -/

namespace PhysPages

open KernelEntry CyclicScan

/-! ## Addresses -/

/-- `PAGESIZE`. -/
def PAGESIZE : Nat := 4096
/-- `MEMSIZE_PHYSICAL`: the end of physical memory. -/
def MEMSIZE_PHYSICAL : Nat := 0x200000
/-- `NPAGES`. -/
def NPAGES : Nat := MEMSIZE_PHYSICAL / PAGESIZE
/-- `IOPHYSMEM`: memory-mapped devices begin here. -/
def IOPHYSMEM : Nat := 0x000A0000
/-- `EXTPHYSMEM`: and end here. -/
def EXTPHYSMEM : Nat := 0x00100000
/-- `KERNEL_START_ADDR`. -/
def KERNEL_START_ADDR : Nat := 0x40000
/-- `KERNEL_STACK_TOP`, as a number. -/
def STACK_TOP : Nat := KERNEL_STACK_TOP.toNat
/-- `PROC_START_ADDR`. -/
def PROC_START_ADDR : Nat := 0x100000
/-- `PROC_SIZE`. -/
def PROC_SIZE : Nat := 0x40000

/-- `round_down(x, m)`. -/
def roundDown (x m : Nat) : Nat := x - x % m

/-- `round_up(x, m)`. -/
def roundUp (x m : Nat) : Nat := roundDown (x + m - 1) m

/-- `reserved_physical_address(pa)`. -/
def reservedPhysicalAddress (pa : Nat) : Bool :=
  pa < PAGESIZE || (pa ≥ IOPHYSMEM && pa < EXTPHYSMEM)

/-- `allocatable_physical_address(pa)`. -/
def allocatablePhysicalAddress (kernelEnd pa : Nat) : Bool :=
  !reservedPhysicalAddress pa
    && (pa < KERNEL_START_ADDR || pa ≥ roundUp kernelEnd PAGESIZE)
    && (pa < STACK_TOP - PAGESIZE || pa ≥ STACK_TOP)
    && pa < MEMSIZE_PHYSICAL

/-! ## State -/

/-- `struct proc`. -/
structure Proc where
  pagetable : X86Stack.Word
  pid : Nat
  state : BitVec 32
  regs : Regstate

/-- Registers that are all zero. -/
def zeroRegs : Regstate where
  reg_rax := 0
  reg_rcx := 0
  reg_rdx := 0
  reg_rbx := 0
  reg_rbp := 0
  reg_rsi := 0
  reg_rdi := 0
  reg_r8 := 0
  reg_r9 := 0
  reg_r10 := 0
  reg_r11 := 0
  reg_r12 := 0
  reg_r13 := 0
  reg_r14 := 0
  reg_r15 := 0
  reg_fs := 0
  reg_gs := 0
  reg_intno := 0
  reg_swapgs := 0
  reg_errcode := 0
  reg_rip := 0
  reg_cs := 0
  reg_rflags := 0
  reg_rsp := 0
  reg_ss := 0

/-- What the kernel keeps.  `mem` is memory outside of its own variables. -/
structure KState where
  mem : Nat → UInt8
  physpages : Nat → UInt8
  ptable : Nat → Proc

/-- `memset`. -/
def memset (mem : Nat → UInt8) (addr : Nat) (c : UInt8) (n : Nat) : Nat → UInt8 :=
  fun x => if addr ≤ x ∧ x < addr + n then c else mem x

/-- `++physpages[pageno].refcount`. -/
def incr (physpages : Nat → UInt8) (pageno : Nat) : Nat → UInt8 :=
  fun q => if q = pageno then physpages q + 1 else physpages q

/-- The step of the loop of `kalloc`. -/
def pageIncrement : Nat := 1

/-- The condition of `kalloc`'s loop. -/
def isFree (kernelEnd : Nat) (physpages : Nat → UInt8) (pageno : Nat) : Bool :=
  allocatablePhysicalAddress kernelEnd (pageno * PAGESIZE) && physpages pageno == 0

/-- `kalloc(sz)`; `none` is `nullptr`. -/
def kalloc (kernelEnd sz : Nat) (s : KState) : Option Nat × KState :=
  if sz > PAGESIZE then (none, s)
  else match scan NPAGES pageIncrement (isFree kernelEnd s.physpages) NPAGES 0 with
    | none => (none, s)
    | some pageno =>
        let pa := pageno * PAGESIZE
        (some pa, { s with
          physpages := incr s.physpages pageno, mem := memset s.mem pa 0xCC PAGESIZE })

/-- `assert(physpages[a / PAGESIZE].refcount == 0)` and the increment.  An
    index outside of the array has no meaning either. -/
def claim (a : Nat) (s : KState) : Option KState :=
  if a / PAGESIZE < NPAGES ∧ s.physpages (a / PAGESIZE) = 0 then
    some { s with physpages := incr s.physpages (a / PAGESIZE) }
  else none

/-- The stack page of a process. -/
def stackAddr (pid : Nat) : Nat := PROC_START_ADDR + PROC_SIZE * pid - PAGESIZE

/-- `syscall_page_alloc(addr)`. -/
def syscallPageAlloc (addr : Nat) (s : KState) : Option (Int × KState) :=
  (claim addr s).map fun s => (0, { s with mem := memset s.mem addr 0 PAGESIZE })

/-! ## Runs -/

/-- A page-aligned address of an allocatable page. -/
structure Page (kernelEnd : Nat) where
  addr : Nat
  aligned : addr % PAGESIZE = 0
  allocatable : allocatablePhysicalAddress kernelEnd addr = true

/-- A process whose stack page is allocatable. -/
structure StackPid (kernelEnd : Nat) where
  pid : Nat
  allocatable : allocatablePhysicalAddress kernelEnd (stackAddr pid) = true

/-- The steps of the kernel that grant pages. -/
inductive Step (kernelEnd : Nat)
  | kalloc (sz : Nat)
  | segmentPage (a : Page kernelEnd)
  | stackPage (pid : StackPid kernelEnd)
  | pageAlloc (addr : Page kernelEnd)

/-- The kernel, with the pages that were granted. -/
structure Config where
  state : KState
  granted : List Nat

variable {kernelEnd sz a pageno : Nat} {s s' : KState} {c c' : Config}

/-- A step, unless an assertion fails. -/
def step (c : Config) : Step kernelEnd → Option Config
  | .kalloc sz =>
      match PhysPages.kalloc kernelEnd sz c.state with
      | (none, s) => some { c with state := s }
      | (some pa, s) => some { state := s, granted := pa / PAGESIZE :: c.granted }
  | .segmentPage a =>
      (claim a.addr c.state).map fun s => { state := s, granted := a.addr / PAGESIZE :: c.granted }
  | .stackPage pid =>
      (claim (stackAddr pid.pid) c.state).map fun s =>
        { state := s, granted := stackAddr pid.pid / PAGESIZE :: c.granted }
  | .pageAlloc addr =>
      (syscallPageAlloc addr.addr c.state).map fun r =>
        { state := r.2, granted := addr.addr / PAGESIZE :: c.granted }

/-- The steps one after the other, each with an ending of its own. -/
def run (c : Config) : List (Step kernelEnd) → Option Config
  | [] => some c
  | st :: steps => (step c st).bind fun c' => run c' steps

/-- What a claim needs and does. -/
theorem claim_some (h : claim a s = some s') : s.physpages (a / PAGESIZE) = 0
    ∧ a / PAGESIZE < NPAGES ∧ s' = { s with physpages := incr s.physpages (a / PAGESIZE) } := by
  rw [claim] at h
  split at h
  · rename_i hcond
    exact ⟨hcond.2, hcond.1, (Option.some.inj h).symm⟩
  · cases h

/-- Requests of more than a page fail. -/
theorem kalloc_large (h : sz > PAGESIZE) : kalloc kernelEnd sz s = (none, s) := if_pos h

/-- A request fails when the scan finds no free page. -/
theorem kalloc_none (h : ¬ sz > PAGESIZE)
    (hscan : scan NPAGES pageIncrement (isFree kernelEnd s.physpages) NPAGES 0 = none) :
    kalloc kernelEnd sz s = (none, s) := by
  rw [kalloc, if_neg h, hscan]

/-- A request is granted the page that the scan finds. -/
theorem kalloc_some (h : ¬ sz > PAGESIZE)
    (hscan : scan NPAGES pageIncrement (isFree kernelEnd s.physpages) NPAGES 0 = some pageno) :
    kalloc kernelEnd sz s = (some (pageno * PAGESIZE), { s with
      physpages := incr s.physpages pageno
      mem := memset s.mem (pageno * PAGESIZE) 0xCC PAGESIZE }) := by
  rw [kalloc, if_neg h, hscan]

/-- A request for a page, or the scan that it makes. -/
theorem kalloc_cases (kernelEnd sz : Nat) (s : KState) :
    (kalloc kernelEnd sz s).1 = none ∧ (kalloc kernelEnd sz s).2 = s
        ∧ (sz > PAGESIZE ∨ ∀ pageno < NPAGES, isFree kernelEnd s.physpages pageno = false)
      ∨ ∃ pageno < NPAGES, ¬ sz > PAGESIZE ∧ isFree kernelEnd s.physpages pageno = true
          ∧ kalloc kernelEnd sz s = (some (pageno * PAGESIZE), { s with
              physpages := incr s.physpages pageno
              mem := memset s.mem (pageno * PAGESIZE) 0xCC PAGESIZE }) := by
  have hpos : 0 < NPAGES := by decide
  by_cases hsz : sz > PAGESIZE
  · rw [kalloc_large hsz]
    exact Or.inl ⟨rfl, rfl, Or.inl hsz⟩
  cases hscan : scan NPAGES pageIncrement (isFree kernelEnd s.physpages) NPAGES 0 with
  | none =>
      rw [kalloc_none hsz hscan]
      exact Or.inl ⟨rfl, rfl, Or.inr ((scan_eq_none_of_coprime (by decide) hpos).mp hscan)⟩
  | some pageno =>
      obtain ⟨hfree, hlt⟩ := scan_some hpos hscan
      exact Or.inr ⟨pageno, hlt, hsz, hfree, kalloc_some hsz hscan⟩

/-- The pages that `kalloc` takes for free. -/
theorem isFree_iff {physpages : Nat → UInt8} : isFree kernelEnd physpages pageno = true
    ↔ allocatablePhysicalAddress kernelEnd (pageno * PAGESIZE) = true ∧ physpages pageno = 0 := by
  rw [isFree, Bool.and_eq_true, beq_iff_eq]

/-- The parts of memory that are kept from processes. -/
theorem allocatable_iff {pa : Nat} : allocatablePhysicalAddress kernelEnd pa = true
    ↔ reservedPhysicalAddress pa = false
      ∧ ¬ (KERNEL_START_ADDR ≤ pa ∧ pa < roundUp kernelEnd PAGESIZE)
      ∧ ¬ (STACK_TOP - PAGESIZE ≤ pa ∧ pa < STACK_TOP) ∧ pa < MEMSIZE_PHYSICAL := by
  simp only [allocatablePhysicalAddress, Bool.and_eq_true, Bool.not_eq_true', Bool.or_eq_true,
    decide_eq_true_eq, and_assoc]
  refine and_congr_right fun _ => and_congr ?_ (and_congr_left' ?_) <;> omega

/-! ## The invariant -/

/-- The reference counts are those of the pages that were granted. -/
structure Inv (c : Config) : Prop where
  counts : ∀ q, c.state.physpages q = if q ∈ c.granted then 1 else 0
  once : c.granted.Nodup

/-- A page has a count of 0 when nobody has been granted it. -/
theorem Inv.free_iff (h : Inv c) {q : Nat} : c.state.physpages q = 0 ↔ q ∉ c.granted := by
  rw [h.counts]
  by_cases hq : q ∈ c.granted
  · simp [hq]
  · simp [hq]

/-- A free page is granted. -/
theorem Inv.grant (h : Inv c) {q : Nat} (hq : c.state.physpages q = 0)
    (hs : s.physpages = incr c.state.physpages q) : Inv { state := s, granted := q :: c.granted } := by
  refine ⟨fun p => ?_, List.nodup_cons.mpr ⟨h.free_iff.mp hq, h.once⟩⟩
  show s.physpages p = _
  rw [hs, incr]
  by_cases hp : p = q
  · rw [if_pos hp, hp, hq, if_pos List.mem_cons_self]
    rfl
  · rw [if_neg hp, h.counts]
    simp [List.mem_cons, hp]

/-- A claim keeps the invariant. -/
theorem Inv.claim (h : Inv c) (hs : PhysPages.claim a c.state = some s) :
    Inv { state := s, granted := a / PAGESIZE :: c.granted } := by
  obtain ⟨hzero, -, rfl⟩ := claim_some hs
  exact h.grant hzero rfl

/-- **ONE STEP** keeps the invariant. -/
theorem Inv.step (h : Inv c) {st : Step kernelEnd} (hc : PhysPages.step c st = some c') :
    Inv c' := by
  cases st with
  | kalloc sz =>
      rcases kalloc_cases kernelEnd sz c.state with
        ⟨hnone, hsame, -⟩ | ⟨pageno, -, -, hfree, heq⟩
      · have hpair : PhysPages.kalloc kernelEnd sz c.state = (none, c.state) :=
          Prod.ext hnone hsame
        rw [PhysPages.step, hpair] at hc
        obtain rfl := Option.some.inj hc
        exact h
      · rw [PhysPages.step, heq] at hc
        obtain rfl := Option.some.inj hc
        have hinv := h.grant (isFree_iff.mp hfree).2 (s := { c.state with
          physpages := incr c.state.physpages pageno
          mem := memset c.state.mem (pageno * PAGESIZE) 0xCC PAGESIZE }) rfl
        rwa [show pageno * PAGESIZE / PAGESIZE = pageno from Nat.mul_div_cancel _ (by decide)]
  | segmentPage a =>
      obtain ⟨s, hs, rfl⟩ := Option.map_eq_some_iff.mp hc
      exact h.claim hs
  | stackPage pid =>
      obtain ⟨s, hs, rfl⟩ := Option.map_eq_some_iff.mp hc
      exact h.claim hs
  | pageAlloc addr =>
      obtain ⟨r, hr, rfl⟩ := Option.map_eq_some_iff.mp hc
      obtain ⟨s, hs, rfl⟩ := Option.map_eq_some_iff.mp hr
      have hinv := h.claim hs
      exact ⟨hinv.counts, hinv.once⟩

/-- Every run keeps the invariant. -/
theorem Inv.run (h : Inv c) {steps : List (Step kernelEnd)}
    (hc : PhysPages.run c steps = some c') : Inv c' := by
  induction steps generalizing c with
  | nil =>
      obtain rfl := Option.some.inj hc
      exact h
  | cons st steps ih =>
      obtain ⟨c₁, hstep, hrest⟩ := Option.bind_eq_some_iff.mp hc
      exact ih (h.step hstep) hrest

/-- The invariant holds at the start. -/
theorem inv_start (hs : ∀ q, s.physpages q = 0) : Inv { state := s, granted := [] } :=
  ⟨fun q => (hs q).trans (if_neg List.not_mem_nil).symm, List.nodup_nil⟩

/-! ## What is granted -/

/-- Page numbers and addresses of allocatable pages. -/
theorem Page.number (a : Page kernelEnd) : a.addr / PAGESIZE < NPAGES
    ∧ a.addr / PAGESIZE * PAGESIZE = a.addr := by
  have hlt : a.addr < MEMSIZE_PHYSICAL := (allocatable_iff.mp a.allocatable).2.2.2
  have hdiv := Nat.div_add_mod a.addr PAGESIZE
  rw [a.aligned, Nat.add_zero, Nat.mul_comm] at hdiv
  refine ⟨Nat.div_lt_of_lt_mul (Nat.lt_of_lt_of_eq hlt (by decide)), hdiv⟩

/-- The result of `kalloc` is a free page. -/
theorem kalloc_page {pa : Nat} (h : (kalloc kernelEnd sz s).1 = some pa) :
    pa % PAGESIZE = 0 ∧ allocatablePhysicalAddress kernelEnd pa = true
      ∧ s.physpages (pa / PAGESIZE) = 0 := by
  rcases kalloc_cases kernelEnd sz s with ⟨hnone, -⟩ | ⟨pageno, -, -, hfree, heq⟩
  · rw [hnone] at h
    cases h
  · rw [heq] at h
    obtain rfl := Option.some.inj h
    obtain ⟨halloc, hzero⟩ := isFree_iff.mp hfree
    refine ⟨Nat.mul_mod_left _ _, halloc, ?_⟩
    rwa [Nat.mul_div_cancel _ (by decide)]

/-- `kalloc` fails only when it must. -/
theorem kalloc_null : (kalloc kernelEnd sz s).1 = none
    ↔ sz > PAGESIZE ∨ ∀ a : Page kernelEnd, s.physpages (a.addr / PAGESIZE) ≠ 0 := by
  rcases kalloc_cases kernelEnd sz s with ⟨hnone, -, hwhy⟩ | ⟨pageno, -, hsz, hfree, heq⟩
  · refine ⟨fun _ => hwhy.imp_right fun hno a hzero => ?_, fun _ => hnone⟩
    obtain ⟨hlt, haddr⟩ := a.number
    have hfree := isFree_iff.mpr ⟨haddr ▸ a.allocatable, hzero⟩
    rw [hno _ hlt] at hfree
    cases hfree
  · obtain ⟨halloc, hzero⟩ := isFree_iff.mp hfree
    rw [heq]
    constructor
    · intro h
      cases h
    rintro (hlarge | hfull)
    · exact absurd hlarge hsz
    · refine absurd ?_ (hfull ⟨pageno * PAGESIZE, Nat.mul_mod_left _ _, halloc⟩)
      show s.physpages (pageno * PAGESIZE / PAGESIZE) = 0
      rwa [Nat.mul_div_cancel _ (by decide)]

/-- **NO PAGE IS GRANTED TWICE**, by whichever steps, and `kalloc` finds a free
    page of the allocatable ones if there is any. -/
theorem granted_once (hs : ∀ q, s.physpages q = 0) {steps : List (Step kernelEnd)}
    (hrun : run { state := s, granted := [] } steps = some c) :
    c.granted.Nodup
      ∧ (∀ sz pa, (kalloc kernelEnd sz c.state).1 = some pa →
          pa % PAGESIZE = 0 ∧ allocatablePhysicalAddress kernelEnd pa = true
            ∧ reservedPhysicalAddress pa = false
            ∧ ¬ (KERNEL_START_ADDR ≤ pa ∧ pa < roundUp kernelEnd PAGESIZE)
            ∧ ¬ (STACK_TOP - PAGESIZE ≤ pa ∧ pa < STACK_TOP)
            ∧ c.state.physpages (pa / PAGESIZE) = 0 ∧ pa / PAGESIZE ∉ c.granted)
      ∧ ∀ sz, (kalloc kernelEnd sz c.state).1 = none
          ↔ sz > PAGESIZE ∨ ∀ a : Page kernelEnd, c.state.physpages (a.addr / PAGESIZE) ≠ 0 := by
  have hinv := (inv_start hs).run hrun
  refine ⟨hinv.once, ?_, fun sz => kalloc_null⟩
  intro sz pa hpa
  obtain ⟨haligned, halloc, hzero⟩ := kalloc_page hpa
  obtain ⟨hres, himage, hstack, -⟩ := allocatable_iff.mp halloc
  exact ⟨haligned, halloc, hres, himage, hstack, hzero, hinv.free_iff.mp hzero⟩

/-- The kernel before any page is granted. -/
def freshKernel : KState where
  mem := fun _ => 0
  physpages := fun _ => 0
  ptable := fun pid => { pagetable := 0, pid := pid, state := 0, regs := zeroRegs }

/-- A short run: a segment, two allocations and a stack. -/
def smallSteps : List (Step 0x60000) :=
  [.segmentPage ⟨0x100000, by decide, by decide⟩, .kalloc 100, .stackPage ⟨1, by decide⟩,
    .pageAlloc ⟨0x110000, by decide, by decide⟩, .kalloc 5000]

/-- One step of each kind, and a request that is too large. -/
theorem granted_once_small : ∃ c : Config,
    run { state := freshKernel, granted := [] } smallSteps = some c ∧ c.granted.Nodup := by
  have hruns : (run { state := freshKernel, granted := [] } smallSteps).isSome = true := by
    decide +kernel
  obtain ⟨c, hc⟩ := Option.isSome_iff_exists.mp hruns
  exact ⟨c, hc, (granted_once (fun _ => rfl) hc).1⟩

end PhysPages
