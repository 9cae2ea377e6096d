import Cs61.KernelInv

/-! # Runs from `kernel_start`

    What `process_setup` leaves in the process table and in the page counts, so
    that the invariant holds from the start (`inv_start`), and what processes must
    do so that the kernel never fails (`runs_safe`). -/

namespace KernelLoop

open PhysPages ProcessSetup KernelEntry
open PageTable (Word)

variable {b : Boot} {k k' : KState} {elf : Option ElfHeader} {L : List ElfProgram}
variable {ramimages : List (String × ElfHeader)} {name : String} {pid : Nat}

/-! ## `process_setup` -/

/-- Pages that are claimed are in physical memory. -/
theorem claimPages_lt {stop a : Nat} (ha : a % PAGESIZE = 0) (h : claimPages stop a k = some k') :
    ∀ q ∈ pagesTo stop a, q < NPAGES := by
  fun_induction claimPages stop a k with
  | case1 a k hlt ih =>
      obtain ⟨k₁, hclaim, hrest⟩ := Option.bind_eq_some_iff.mp h
      rw [pagesTo_step hlt]
      intro q hq
      rcases List.mem_cons.mp hq with rfl | hq
      · exact (claim_some hclaim).2.1
      · exact ih k₁ (by rwa [Nat.add_mod_right]) hrest q hq
  | case2 a k hge =>
      rw [pagesTo_end ha hge]
      exact fun q hq => absurd hq List.not_mem_nil

/-- The pages that segments claim are theirs. -/
theorem claims_from (h : L.foldlM (fun s ph => claimSegment ph s) k = some k') :
    ∃ P, Claims P k k' ∧ ∀ q ∈ P, q < NPAGES ∧ ∃ ph ∈ L,
      roundDown ph.p_va PAGESIZE / PAGESIZE ≤ q ∧ q * PAGESIZE < ph.p_va + ph.p_memsz := by
  induction L generalizing k with
  | nil =>
      obtain rfl := Option.some.inj h
      exact ⟨[], Claims.nil k, fun q hq => absurd hq List.not_mem_nil⟩
  | cons ph L ih =>
      rw [List.foldlM_cons] at h
      obtain ⟨k₁, hph, hrest⟩ := Option.bind_eq_some_iff.mp h
      obtain ⟨P, hP, hfrom⟩ := ih hrest
      refine ⟨_, (claims_of_claimPages (roundDown_page ph.p_va).1 hph).append hP, ?_⟩
      intro q hq
      rcases List.mem_append.mp hq with hq | hq
      · refine ⟨claimPages_lt (roundDown_page ph.p_va).1 hph q hq, ph, List.mem_cons_self, ?_⟩
        rw [pagesTo, List.mem_range'_1] at hq
        have hwrap : wrap (ph.p_va + ph.p_memsz) ≤ ph.p_va + ph.p_memsz := Nat.mod_le _ _
        have hlast : q < (wrap (ph.p_va + ph.p_memsz) + 4095) / 4096 := by
          have hpage : PAGESIZE = 4096 := rfl
          rw [hpage] at hq
          omega
        refine ⟨hq.1, ?_⟩
        show q * 4096 < _
        omega
      · obtain ⟨hlt, ph', hmem, hle⟩ := hfrom q hq
        exact ⟨hlt, ph', List.mem_cons_of_mem _ hmem, hle⟩

/-- Copying changes memory only. -/
theorem copies_rest (h : L.foldlM (fun s ph => copySegment elf ph s) k = some k') :
    k'.physpages = k.physpages ∧ k'.ptable = k.ptable := by
  induction L generalizing k with
  | nil =>
      obtain rfl := Option.some.inj h
      exact ⟨rfl, rfl⟩
  | cons ph L ih =>
      rw [List.foldlM_cons] at h
      obtain ⟨k₁, hph, hrest⟩ := Option.bind_eq_some_iff.mp h
      obtain ⟨hpages, htable⟩ := ih hrest
      obtain ⟨hpages₁, htable₁⟩ := copySegment_rest hph
      exact ⟨hpages.trans hpages₁, htable.trans htable₁⟩

/-- The segments of the images lie in the memory of processes. -/
def AboveStart (ramimages : List (String × ElfHeader)) : Prop :=
  ∀ r ∈ ramimages, ∀ ph ∈ loads r.2.programs, PROC_START_ADDR ≤ ph.p_va

/-- The segments that are loaded are those of an image in the table. -/
theorem loads_of_image {ph : ElfProgram} (himage : programImage ramimages name = some elf)
    (hph : ph ∈ loads (headers elf)) : ∃ r ∈ ramimages, ph ∈ loads r.2.programs := by
  rw [programImage] at himage
  split at himage
  · obtain rfl := Option.some.inj himage
    exact absurd hph List.not_mem_nil
  · rename_i r hfind
    split at himage
    · obtain rfl := Option.some.inj himage
      exact ⟨r, List.mem_of_find?_eq_some hfind, hph⟩
    · cases himage

/-- A page of the image, or of the stack. -/
def PageOf (ramimages : List (String × ElfHeader)) (name : String) (pid q : Nat) : Prop :=
  q = stackAddr pid / PAGESIZE ∨ ∃ elf, programImage ramimages name = some elf
    ∧ ∃ ph ∈ loads (headers elf), roundDown ph.p_va PAGESIZE / PAGESIZE ≤ q
      ∧ q * PAGESIZE < ph.p_va + ph.p_memsz

/-- The pages of a process are in the memory of processes. -/
theorem PageOf.above {q : Nat} (h : PageOf ramimages name pid q) (habove : AboveStart ramimages)
    (hpid : 1 ≤ pid) : 256 ≤ q := by
  rcases h with rfl | ⟨elf, himage, ph, hph, hle, -⟩
  · show 256 ≤ (0x100000 + 0x40000 * pid - 4096) / 4096
    omega
  · obtain ⟨r, hr, hmem⟩ := loads_of_image himage hph
    have hstart : 0x100000 ≤ ph.p_va := habove r hr ph hmem
    have hround : (ph.p_va - ph.p_va % 4096) / 4096 ≤ q := hle
    omega

/-- A process that was set up, and the pages that were claimed for it. -/
structure SetUp (b : Boot) (ramimages : List (String × ElfHeader)) (name : String) (i : Nat)
    (k k' : KState) : Prop where
  others : ∀ q, q ≠ i → k'.ptable q = k.ptable q
  pid : (k'.ptable i).pid = (k.ptable i).pid
  pagetable : (k'.ptable i).pagetable = b.site.addr
  state : (k'.ptable i).state = P_RUNNABLE
  regs : checkProcessRegisters (k'.ptable i).regs = none
  pages : ∀ q, k'.physpages q = k.physpages q
    ∨ k.physpages q = 0 ∧ k'.physpages q = 1 ∧ q < NPAGES ∧ PageOf ramimages name i q

/-- The registers of a new process pass their check. -/
theorem checkProcessRegisters_start (hpid : 1 ≤ pid ∧ pid ≤ 4) {regs : Regstate}
    (hrsp : regs.reg_rsp = BitVec.ofNat 64 (stackAddr pid + PAGESIZE))
    (hcs : regs.reg_cs = SEGSEL_APP_CODE.setWidth 64 ||| 3) :
    checkProcessRegisters regs = none := by
  have hall : ∀ pid ≤ 4, 1 ≤ pid → (0x100000 : Word) ≤ BitVec.ofNat 64 (stackAddr pid + PAGESIZE)
      ∧ BitVec.ofNat 64 (stackAddr pid + PAGESIZE) ≤ MEMSIZE_VIRTUAL := by decide
  obtain ⟨hlo, hhi⟩ := hall pid hpid.2 hpid.1
  rw [checkProcessRegisters, hrsp, hcs, if_neg (not_not.mpr hlo), if_neg (not_not.mpr hhi)]
  rfl

/-- **ONE PROCESS** is set up. -/
theorem processSetup_setUp (hpid : 1 ≤ pid ∧ pid ≤ 4)
    (h : processSetup b.kernel ramimages pid name k = some k') :
    SetUp b ramimages name pid k k' := by
  rw [processSetup] at h
  obtain ⟨elf, himage, h⟩ := Option.bind_eq_some_iff.mp h
  obtain ⟨k₁, hclaims, h⟩ := Option.bind_eq_some_iff.mp h
  obtain ⟨k₂, hcopies, h⟩ := Option.bind_eq_some_iff.mp h
  obtain ⟨k₃, hstack, h⟩ := Option.bind_eq_some_iff.mp h
  obtain rfl := Option.some.inj h
  -- both loops over the headers go through the LOAD segments
  rw [forSegments_fix] at hclaims hcopies
  obtain ⟨P, hP, hfrom⟩ := claims_from hclaims
  obtain ⟨hpages, htable⟩ := copies_rest hcopies
  have hlt := (claim_some hstack).2.1
  have hstack := claims_of_claim hstack
  -- the entry of the process, assignment by assignment
  have hentry : k₃.ptable pid = { initProcess { allowProgrammedIo := false, disableInterrupts := false }
      (k.ptable pid) with
      pagetable := b.kernel.kernel_pagetable
      regs := { (initProcess { allowProgrammedIo := false, disableInterrupts := false }
        (k.ptable pid)).regs with reg_rip := entry elf } } := by
    rw [congrFun hstack.ptable pid, setProc_same, congrFun htable pid, congrFun hP.ptable pid,
      setProc_same, setProc_same]
  have hfinal : ∀ f g : Proc → Proc, ((setProc pid f (setProc pid g k₃)).ptable pid)
      = f (g (k₃.ptable pid)) := by
    intro f g
    rw [setProc_same, setProc_same]
  have hothers : ∀ q, q ≠ pid → ∀ f g : Proc → Proc,
      (setProc pid f (setProc pid g k₃)).ptable q = k.ptable q := by
    intro q hq f g
    rw [setProc_ne _ hq, setProc_ne _ hq, congrFun hstack.ptable q, setProc_ne _ hq,
      congrFun htable q, congrFun hP.ptable q, setProc_ne _ hq, setProc_ne _ hq]
  refine ⟨fun q hq => hothers q hq _ _, ?_, ?_, ?_, ?_, ?_⟩
  · rw [hfinal, hentry]
    rfl
  · rw [hfinal, hentry]
    exact b.table
  · rw [hfinal]
  · rw [hfinal, hentry]
    exact checkProcessRegisters_start hpid rfl rfl
  · intro q
    show k₃.physpages q = k.physpages q ∨ k.physpages q = 0 ∧ k₃.physpages q = 1 ∧ _
    by_cases hlast : q = stackAddr pid / PAGESIZE
    · -- the stack page, which no segment touches
      obtain ⟨hfree, htaken⟩ := hstack.taken q (List.mem_singleton.mpr hlast)
      have hnot : q ∉ P := by
        intro hq
        have hone := (hP.taken q hq).2
        have hzero : k₂.physpages q = 0 := hfree
        rw [hpages, hone] at hzero
        exact absurd hzero (by decide)
      refine Or.inr ⟨?_, htaken, ?_, Or.inl hlast⟩
      · rw [← hfree]
        exact ((congrFun hpages q).trans (hP.others q hnot)).symm
      · rw [hlast]
        exact hlt
    · -- any other page, which is a segment's or as it was
      have hrest : k₃.physpages q = k₁.physpages q :=
        (hstack.others q fun hq => hlast (List.mem_singleton.mp hq)).trans (congrFun hpages q)
      rw [hrest]
      by_cases hq : q ∈ P
      · obtain ⟨hlt', ph, hph, hle⟩ := hfrom q hq
        exact Or.inr ⟨(hP.taken q hq).1, (hP.taken q hq).2, hlt',
          Or.inr ⟨elf, himage, ph, hph, hle⟩⟩
      · exact Or.inl (hP.others q hq)

/-! ## `kernel_start` -/

/-- The process table while processes are set up. -/
structure Starting (b : Boot) (ramimages : List (String × ElfHeader)) (k : KState) : Prop where
  pids : ∀ i, (k.ptable i).pid = i
  zero : (k.ptable 0).state = P_FREE
  states : ∀ i, (k.ptable i).state = P_FREE ∨ (k.ptable i).state = P_RUNNABLE
  tables : ∀ i, (k.ptable i).state ≠ P_FREE → (k.ptable i).pagetable = b.site.addr
  regs : ∀ i, (k.ptable i).state = P_RUNNABLE → checkProcessRegisters (k.ptable i).regs = none
  counts : ∀ q, k.physpages q = 0 ∨ k.physpages q = 1
  low : AboveStart ramimages → ∀ q < 256, k.physpages q = 0
  high : ∀ q, NPAGES ≤ q → k.physpages q = 0

/-- Before the first process is set up. -/
theorem starting_empty (b : Boot) (ramimages : List (String × ElfHeader)) (mem : Nat → UInt8) :
    Starting b ramimages { mem := mem, physpages := fun _ => 0, ptable := emptyTable } := by
  refine ⟨fun _ => rfl, rfl, fun _ => Or.inl rfl, ?_, ?_, fun _ => Or.inl rfl, fun _ _ _ => rfl,
    fun _ _ => rfl⟩
  · intro i hne
    exact absurd rfl hne
  · intro i hr
    exact absurd hr (show ¬ P_FREE = P_RUNNABLE by decide)

/-- One more process is set up. -/
theorem Starting.setUp (h : Starting b ramimages k) (hpid : 1 ≤ pid)
    (hs : SetUp b ramimages name pid k k') : Starting b ramimages k' := by
  refine ⟨?_, ?_, ?_, ?_, ?_, ?_, ?_, ?_⟩
  · intro i
    by_cases hi : i = pid
    · rw [hi, hs.pid, h.pids]
    · rw [hs.others i hi, h.pids]
  · rw [hs.others 0 (by omega), h.zero]
  · intro i
    by_cases hi : i = pid
    · rw [hi]
      exact Or.inr hs.state
    · rw [hs.others i hi]
      exact h.states i
  · intro i hne
    by_cases hi : i = pid
    · rw [hi, hs.pagetable]
    · rw [hs.others i hi] at hne ⊢
      exact h.tables i hne
  · intro i hr
    by_cases hi : i = pid
    · rw [hi, hs.regs]
    · rw [hs.others i hi] at hr ⊢
      exact h.regs i hr
  · intro q
    rcases hs.pages q with hq | ⟨-, hq, -⟩
    · rw [hq]
      exact h.counts q
    · exact Or.inr hq
  · intro habove q hq
    rcases hs.pages q with hsame | ⟨-, -, -, hof⟩
    · rw [hsame, h.low habove q hq]
    · exact absurd (hof.above habove hpid) (by omega)
  · intro q hq
    rcases hs.pages q with hsame | ⟨-, -, hlt, -⟩
    · rw [hsame, h.high q hq]
    · exact absurd hlt (Nat.not_lt.mpr hq)

/-- All processes are set up, and the first of them can run. -/
theorem setupProcesses_starting {command : String} (h : Starting b ramimages k)
    (hs : setupProcesses b ramimages command k = some k') :
    Starting b ramimages k' ∧ (k'.ptable 1).state = P_RUNNABLE := by
  rw [setupProcesses] at hs
  obtain ⟨pgm, -, hs⟩ := Option.bind_eq_some_iff.mp hs
  split at hs
  · obtain ⟨k₁, h₁, hs⟩ := Option.bind_eq_some_iff.mp hs
    obtain ⟨k₂, h₂, hs⟩ := Option.bind_eq_some_iff.mp hs
    obtain ⟨k₃, h₃, h₄⟩ := Option.bind_eq_some_iff.mp hs
    have hs₁ := processSetup_setUp (by decide) h₁
    have hs₂ := processSetup_setUp (by decide) h₂
    have hs₃ := processSetup_setUp (by decide) h₃
    have hs₄ := processSetup_setUp (by decide) h₄
    refine ⟨(((h.setUp (by decide) hs₁).setUp (by decide) hs₂).setUp (by decide) hs₃).setUp
      (by decide) hs₄, ?_⟩
    rw [hs₄.others 1 (by decide), hs₃.others 1 (by decide), hs₂.others 1 (by decide)]
    exact hs₁.state
  · have hs₁ := processSetup_setUp (by decide) hs
    exact ⟨h.setUp (by decide) hs₁, hs₁.state⟩

/-- The page table of every process passes its check. -/
theorem checkPagetable_kernel (b : Boot) : checkPagetable b b.site.addr = none := by
  rw [checkPagetable, b.maps.check_kernel b.entryStart b.entryEnd]

/-- A configuration that `kernel_start` leads to. -/
structure Start (b : Boot) (ramimages : List (String × ElfHeader)) (c : Config) : Prop where
  starting : Starting b ramimages c.sys.kernel
  current : c.sys.current = 1
  mode : c.mode = .user none
  state : (c.sys.kernel.ptable 1).state = P_RUNNABLE
  v : c.sys.v = none

/-- **`kernel_start`** ends in the first process. -/
theorem kernelStart_start {firstProcess : String} {command : Option String} {mem : Nat → UInt8}
    {c : Config} (h : kernelStart b firstProcess ramimages command mem = some c) :
    Start b ramimages c := by
  obtain ⟨k, hk, rfl⟩ := Option.map_eq_some_iff.mp h
  obtain ⟨hstarting, hstate⟩ := setupProcesses_starting (starting_empty b ramimages mem) hk
  have hcan : CanRun b (k.ptable 1) := by
    refine ⟨hstarting.regs 1 hstate, ?_⟩
    rw [hstarting.tables 1 (runnable_not_free hstate)]
    exact checkPagetable_kernel b
  have hrunnable : ((initialSys k).kernel.ptable 1).state = P_RUNNABLE := hstate
  rcases run_cases (b := b) hrunnable with ⟨-, hrun⟩ | ⟨hno, -⟩
  · rw [hrun]
    exact ⟨hstarting, rfl, rfl, hstate, rfl⟩
  · exact absurd hcan hno

/-- What `kernel_start` leaves keeps the invariant. -/
theorem Start.inv {c : Config} (h : Start b ramimages c) : Inv b c := by
  have hrun : Runnable c.sys c.sys.current := by
    rw [Runnable, h.current]
    exact h.state
  have htable : Table b c.sys := by
    refine ⟨fun i _ => h.starting.pids i, h.starting.zero, ?_, fun i _ => h.starting.tables i, ?_,
      runnable_not_free hrun, h.starting.counts⟩
    · intro i _
      rcases h.starting.states i with hi | hi
      · exact Or.inl hi
      · exact Or.inr (Or.inl hi)
    · rw [h.current]
      decide
  exact htable.user h.mode hrun

/-! ## Processes that behave -/

variable {s : Sys} {c c' : Config} {a : Action} {acts : List Action}
variable {mem : Nat → UInt8} {regs : Regstate} {data : Option UInt8}

/-- What a process may do.  Its stack pointer is in its memory whenever it gives
    the processor away, it faults at user level only, and it asks for pages that are
    free and lie in the memory of processes. -/
def Behaves (c : Config) : Action → Prop
  | .exception _ regs _ =>
      regs.reg_intno = INT_TIMER ∧ checkProcessRegisters regs = none
        ∨ regs.reg_intno = INT_PAGEFAULT ∧ regs.reg_errcode &&& PTE_U ≠ 0
  | .syscall _ regs _ =>
      regs.reg_rax = SYSCALL_GETPID
        ∨ regs.reg_rax = SYSCALL_YIELD ∧ checkProcessRegisters regs = none
        ∨ regs.reg_rax = SYSCALL_PAGE_ALLOC ∧ PROC_START_ADDR ≤ regs.reg_rdi.toNat
          ∧ regs.reg_rdi.toNat + PAGESIZE ≤ MEMSIZE_PHYSICAL
          ∧ c.sys.kernel.physpages (regs.reg_rdi.toNat / PAGESIZE) = 0
  | .pass _ => True

instance (c : Config) (a : Action) : Decidable (Behaves c a) :=
  match a with
  | .exception _ _ _ => inferInstanceAs (Decidable (_ ∧ _ ∨ _ ∧ _))
  | .syscall _ _ _ => inferInstanceAs (Decidable (_ ∨ _ ∧ _ ∨ _ ∧ _))
  | .pass _ => inferInstanceAs (Decidable True)

/-- All actions of a run behave. -/
def Behaving (b : Boot) (c : Config) : List Action → Bool
  | [] => true
  | a :: acts =>
      decide (Behaves c a) && match step b c a with
        | none => true
        | some c' => Behaving b c' acts

/-- The kernel has not failed. -/
def Fine (mode : Mode) : Prop := (∀ message, mode ≠ .failed message) ∧ mode ≠ .wild

/-- The invariant, while processes behave. -/
structure Sound (b : Boot) (c : Config) : Prop extends Inv b c where
  regs : ¬ Stopped c.mode → ∀ i < MAXNPROC, Runnable c.sys i →
    checkProcessRegisters (c.sys.kernel.ptable i).regs = none
      ∨ i = c.sys.current ∧ ∃ rax, c.mode = .user rax
  viewer : c.sys.v = none → c.sys.kernel.physpages 1 = 0
  fine : Fine c.mode

/-- Page 1 can be taken. -/
theorem free_one {physpages : Nat → UInt8} (b : Boot) (h : physpages 1 = 0) :
    isFree b.kernelEnd physpages 1 = true := by
  refine isFree_iff.mpr ⟨allocatable_iff.mpr ⟨by decide, ?_, by decide, by decide⟩, h⟩
  rintro ⟨hle, -⟩
  exact absurd hle (by decide)

/-- While page 1 is free, the viewer takes no page of a process. -/
theorem Quiet.above {s s' : Sys} (h : Quiet b s s') (hv : s.v = none → s.kernel.physpages 1 = 0)
    {q : Nat} (hq : 256 ≤ q) : s'.kernel.physpages q = s.kernel.physpages q := by
  rcases h.pages with ⟨hpages, -⟩ | ⟨hnone, r, ⟨-, -, hfirst⟩, hpages, -⟩
  · rw [hpages]
  · have hr : r ≤ 1 := by
      by_contra hgt
      have hno := hfirst 1 (by omega)
      rw [free_one b (hv hnone)] at hno
      cases hno
    rw [hpages, incr, if_neg (by omega)]

/-- As long as the viewer has no page, page 1 is free. -/
theorem Quiet.viewer {s s' : Sys} (h : Quiet b s s') (hv : s.v = none → s.kernel.physpages 1 = 0) :
    s'.v = none → s'.kernel.physpages 1 = 0 := by
  intro hnone
  rcases h.pages with ⟨hpages, hsame⟩ | ⟨-, r, -, -, hsome⟩
  · rw [hpages]
    exact hv (hsame ▸ hnone)
  · rw [hnone] at hsome
    cases hsome

/-- There is a page for the viewer, and a process for it to show. -/
theorem Sound.viewable (h : Sound b c) (hs : s.kernel.physpages = c.sys.kernel.physpages)
    (hv : s.v = c.sys.v) (hzero : (s.kernel.ptable 0).state = (c.sys.kernel.ptable 0).state) :
    Viewable b s := by
  refine ⟨hzero.trans h.zero, ?_⟩
  intro hnone
  refine ⟨1, by decide, ?_⟩
  rw [hs]
  exact free_one b (h.viewer (hv ▸ hnone))

/-- **NOTHING IS TO BLAME** in a step of a process that behaves. -/
theorem Sound.blameless (h : Sound b c) (hb : Behaves c a) : ¬ Blame b c a := by
  have hview : ∀ mem regs, Viewable b (trapped c mem regs) := by
    intro mem regs
    exact h.viewable rfl rfl (trapped_state c mem regs 0)
  intro hblame
  cases hblame with
  | viewTrap hno => exact hno (hview _ _)
  | viewCall hno => exact hno (hview _ _)
  | viewSpin hmode hno => exact hno (h.viewable rfl rfl rfl)
  | exception hno =>
      rcases hb with ⟨htimer, -⟩ | hfault
      · exact hno (Or.inl htimer)
      · exact hno (Or.inr hfault)
  | call hq hv hno =>
      rcases hb with hcall | ⟨hcall, -⟩ | ⟨hcall, hlo, hhi, hfree⟩
      · exact hno (Or.inl hcall)
      · exact hno (Or.inr (Or.inl hcall))
      · have hstart : 0x100000 ≤ _ := hlo
        have hend : _ + 4096 ≤ 0x200000 := hhi
        refine hno (Or.inr (Or.inr ⟨hcall, ?_, ?_, ?_⟩))
        · show _ / 4096 < 512
          omega
        · refine (hq.above h.viewer ?_).trans hfree
          show 256 ≤ _ / 4096
          omega
        · have himage : b.kernelEnd ≤ 0x100000 := b.imageEnd
          simp only [harmful, Bool.or_eq_false_iff, Bool.and_eq_false_iff, decide_eq_false_iff_not]
          refine ⟨⟨⟨?_, ?_⟩, Or.inl ?_⟩, Or.inl ?_⟩
          · show ¬ _ < 4096
            omega
          · show ¬ _ + 4096 > 0x200000
            omega
          · omega
          · show ¬ _ < 0x80000
            omega
  | failed hmode => exact h.fine.1 _ hmode

/-- The registers that a trap saves. -/
theorem trapped_regs (c : Config) (mem : Nat → UInt8) (regs : Regstate) :
    ((trapped c mem regs).kernel.ptable c.sys.current).regs = regs := by
  rw [trapped_ptable, setProc_same]

/-- Whoever is not running has good registers. -/
theorem Sound.waiting (h : Sound b c) {rax : Option Word} (hmode : c.mode = .user rax)
    (ho : Outcome b c a c') {i : Nat} (hi : i < MAXNPROC) (hne : i ≠ c.sys.current)
    (hr : Runnable c'.sys i) : checkProcessRegisters (c'.sys.kernel.ptable i).regs = none := by
  have hgo : ¬ Stopped c.mode := by
    rw [hmode]
    exact id
  rw [ho.others hne]
  rcases h.regs hgo i hi (ho.runnable hr) with hregs | ⟨heq, -⟩
  · exact hregs
  · exact absurd heq hne

/-- Nothing has failed while the scheduler looks for a process. -/
theorem fine_scheduling (hm : Scheduling c) : Fine c.mode := by
  rw [hm]
  exact ⟨fun _ => Mode.noConfusion, Mode.noConfusion⟩

/-- Nothing has failed while a process runs. -/
theorem fine_user {rax : Option Word} (hm : c.mode = .user rax) : Fine c.mode := by
  rw [hm]
  exact ⟨fun _ => Mode.noConfusion, Mode.noConfusion⟩

/-- The scheduler starts, with good registers in the entry of `current`. -/
theorem Sound.scheduling (h : Sound b c) {rax : Option Word} (hmode : c.mode = .user rax)
    (hs : step b c a = some c') (ho : Outcome b c a c') (hm : Scheduling c')
    (hcur : Runnable c'.sys c.sys.current →
      checkProcessRegisters (c'.sys.kernel.ptable c.sys.current).regs = none)
    (hv : c'.sys.v = none → c'.sys.kernel.physpages 1 = 0) : Sound b c' := by
  refine { toInv := h.toInv.step hs, regs := ?_, viewer := hv, fine := fine_scheduling hm }
  intro _ i hi hr
  by_cases hne : i = c.sys.current
  · rw [hne] at hr ⊢
    exact Or.inl (hcur hr)
  · exact Or.inl (h.waiting hmode ho hi hne hr)

/-- A system call returns. -/
theorem Sound.answered (h : Sound b c) {rax rax' : Option Word} (hmode : c.mode = .user rax)
    (hs : step b c a = some c') (ho : Outcome b c a c') (hm : c'.mode = .user rax')
    (hcur : c'.sys.current = c.sys.current)
    (hv : c'.sys.v = none → c'.sys.kernel.physpages 1 = 0) : Sound b c' := by
  refine { toInv := h.toInv.step hs, regs := ?_, viewer := hv, fine := fine_user hm }
  intro _ i hi hr
  by_cases hne : i = c.sys.current
  · exact Or.inr ⟨hne.trans hcur.symm, rax', hm⟩
  · exact Or.inl (h.waiting hmode ho hi hne hr)

/-- **ONE STEP** of a process that behaves. -/
theorem Sound.step (h : Sound b c) (hb : Behaves c a) (hs : step b c a = some c') :
    Sound b c' := by
  have ho := step_outcome h.running hs
  have ho' := ho
  cases ho with
  | timer hmode hi hq hm =>
      -- the process goes on with what the timer has interrupted
      refine h.scheduling hmode hs ho' hm ?_ (hq.viewer h.viewer)
      intro _
      rw [hq.ptable, trapped_regs]
      rcases hb with ⟨-, hregs⟩ | ⟨hfault, -⟩
      · exact hregs
      · rw [hi] at hfault
        exact absurd hfault (by decide)
  | fault hmode hi hu hq hm =>
      -- a faulted process is not run again
      refine h.scheduling hmode hs ho' hm ?_ (hq.viewer h.viewer)
      intro hr
      rw [Runnable, hq.ptable, setProc_ptable_same] at hr
      exact absurd hr (show ¬ P_FAULTED = P_RUNNABLE by decide)
  | getpid hmode ha hq hm => exact h.answered hmode hs ho' hm hq.current (hq.viewer h.viewer)
  | yield hmode ha hq hm =>
      refine h.scheduling hmode hs ho' hm ?_ (hq.viewer h.viewer)
      intro _
      rw [hq.ptable, setProc_ptable_same]
      show checkProcessRegisters ((trapped c _ _).kernel.ptable c.sys.current).regs = none
      rw [trapped_regs]
      rcases hb with hcall | ⟨-, hregs⟩ | ⟨hcall, -⟩
      · rw [ha] at hcall
        exact absurd hcall (by decide)
      · exact hregs
      · rw [ha] at hcall
        exact absurd hcall (by decide)
  | @alloc _ _ regs _ _ _ hmode ha hq hok hs' hm =>
      -- the page that is asked for is not the viewer's, as a process asks above its start
      have hcur : c'.sys.current = c.sys.current := by
        rw [hs']
        exact hq.current
      refine h.answered hmode hs ho' hm hcur ?_
      rw [hs']
      intro hnone
      rcases hb with hcall | ⟨hcall, -⟩ | ⟨-, hlo, -⟩
      · rw [ha] at hcall
        exact absurd hcall (by decide)
      · rw [ha] at hcall
        exact absurd hcall (by decide)
      · have hstart : 0x100000 ≤ regs.reg_rdi.toNat := hlo
        have hone : ¬ 1 = regs.reg_rdi.toNat / PAGESIZE := by
          show ¬ 1 = regs.reg_rdi.toNat / 4096
          omega
        exact (if_neg hone).trans (hq.viewer h.viewer hnone)
  | @dispatch pid _ _ _ hmode hr hs' hm =>
      have hgo : ¬ Stopped c.mode := by
        rw [hmode]
        exact id
      have hregs : ∀ i < MAXNPROC, Runnable c.sys i →
          checkProcessRegisters (c.sys.kernel.ptable i).regs = none := by
        intro i hi hri
        rcases h.regs hgo i hi hri with hregs | ⟨-, rax, huser⟩
        · exact hregs
        · rw [hmode] at huser
          cases huser
      -- every process can run: its registers are checked here, its table is the kernel's
      have hcan : CanRun b (c.sys.kernel.ptable (next pid)) := by
        refine ⟨hregs _ (next_lt _) hr, ?_⟩
        rw [h.tables _ (next_lt _) (runnable_not_free hr)]
        exact checkPagetable_kernel b
      rcases hm with ⟨-, hm⟩ | ⟨hno, -⟩
      · refine { toInv := h.toInv.step hs, regs := ?_, viewer := ?_, fine := fine_user hm }
        · rw [hs']
          exact fun _ i hi hri => Or.inl (hregs i hi hri)
        · rw [hs']
          exact h.viewer
      · exact absurd hcan hno
  | idle hmode hr hq hm =>
      refine { toInv := h.toInv.step hs, regs := ?_, viewer := hq.viewer h.viewer, fine := ?_ }
      · intro _ i hi hri
        rw [Runnable, hq.ptable] at hri
        rw [hq.ptable]
        have hgo : ¬ Stopped c.mode := by
          rw [hmode]
          exact id
        rcases h.regs hgo i hi hri with hregs | ⟨-, rax, huser⟩
        · exact Or.inl hregs
        · rw [hmode] at huser
          cases huser
      · rw [hm]
        exact ⟨fun _ => Mode.noConfusion, Mode.noConfusion⟩
  | quit hq hm =>
      -- the kernel has stopped, and nothing is asked of the registers any more
      have hbase : (base c a).v = none → (base c a).kernel.physpages 1 = 0 := by
        cases a <;> exact h.viewer
      refine { toInv := h.toInv.step hs, regs := ?_, viewer := hq.viewer hbase, fine := ?_ }
      · intro hgo
        rcases hm with hm | ⟨argument, hm⟩ <;> rw [hm] at hgo <;> exact absurd trivial hgo
      · rcases hm with hm | ⟨argument, hm⟩ <;> rw [hm] <;>
          exact ⟨fun _ => Mode.noConfusion, Mode.noConfusion⟩
  -- a process that behaves leads to no failure
  | fail hwhy hq hm => exact absurd hwhy (h.blameless hb)

/-- Who runs next is no matter of memory and pages. -/
theorem run_kernel (b : Boot) (pid : Nat) (s : Sys) : (run b pid s).sys.kernel = s.kernel := by
  rw [run]
  split
  · cases hregs : checkProcessRegisters (s.kernel.ptable pid).regs with
    | some message => simp only [hregs]
    | none =>
        cases htable : checkPagetable b (s.kernel.ptable pid).pagetable with
        | some message => simp only [hregs, htable]
        | none => simp only [hregs, htable]
  · rfl

/-- The invariant holds from the start. -/
theorem Start.sound (h : Start b ramimages c) (habove : AboveStart ramimages) : Sound b c := by
  refine { toInv := h.inv, regs := ?_, viewer := ?_, fine := fine_user h.mode }
  · intro _ i _ hr
    exact Or.inl (h.starting.regs i hr)
  · intro _
    exact h.starting.low habove 1 (by decide)

/-- The invariant holds along a run of processes that behave. -/
theorem Sound.steps (h : Sound b c) (hb : Behaving b c acts = true) (hs : steps b c acts = some c') :
    Sound b c' := by
  induction acts generalizing c with
  | nil =>
      obtain rfl := Option.some.inj hs
      exact h
  | cons a acts ih =>
      obtain ⟨c₁, hstep, hrest⟩ := Option.bind_eq_some_iff.mp hs
      rw [Behaving, hstep, Bool.and_eq_true, decide_eq_true_iff] at hb
      exact ih (h.step hb.1 hstep) hb.2 hrest

/-- Where the linker has put the kernel's page tables. -/
def smallSite : BootTables.Site where
  addr := 0x50000
  aligned := rfl
  start := by decide
  low := by decide

/-- A machine for the examples. -/
def smallBoot : Boot where
  site := smallSite
  tables := smallSite.tables 512
  maps := BootTables.maps_tables _ _
  kernel := ProcessSetup.smallKernel
  table := rfl
  exceptionEntry := 0x40000
  entryStart := by decide
  entryEnd := by decide
  kernelEnd := 0x60000
  imageEnd := by decide
  marks := fun _ _ _ => 0

/-- `kernel_start("small")` on it. -/
def smallStart : Option Config :=
  kernelStart smallBoot "allocators" [("small", smallImage)] (some "small") fun _ => 0

/-- The registers of a process that traps. -/
def smallRegs (intno : BitVec 32) (rax rdi : Word) : Regstate :=
  { zeroRegs with
    reg_intno := intno, reg_rax := rax, reg_rdi := rdi, reg_rsp := 0x140000, reg_cs := 0x1B }

/-- A process is interrupted, asks for a page and for its number, yields and
    faults. -/
def smallRun : List Action :=
  .exception (fun _ => 0) (smallRegs INT_TIMER 0 0) none :: List.replicate 16 (.pass (some 0x11))
    ++ [.syscall (fun _ => 0) (smallRegs 0 SYSCALL_PAGE_ALLOC 0x110000) none,
      .syscall (fun _ => 0) (smallRegs 0 SYSCALL_GETPID 0) none,
      .syscall (fun _ => 0) (smallRegs 0 SYSCALL_YIELD 0) none]
    ++ List.replicate 16 (.pass none)
    ++ [.exception (fun _ => 0) { smallRegs INT_PAGEFAULT 0 0 with reg_errcode := 6 } none,
      .pass none]

/-- **THE KERNEL NEVER FAILS** while processes behave: no assertion fails and
    nothing panics, whichever traps and keys come in which order.  A runnable process
    other than process 0 runs, or the scheduler looks for one, or the machine is
    restarted or turned off. -/
theorem runs_safe {firstProcess : String} {command : Option String}
    (habove : AboveStart ramimages)
    (hstart : kernelStart b firstProcess ramimages command mem = some c)
    (hrun : steps b c acts = some c') (hb : Behaving b c acts = true) :
    (∃ rax, c'.mode = .user rax ∧ c'.sys.current < MAXNPROC ∧ c'.sys.current ≠ 0
        ∧ Runnable c'.sys c'.sys.current)
      ∨ (∃ pid spins, c'.mode = .spinning pid spins ∧ pid < MAXNPROC)
      ∨ (∃ argument, c'.mode = .rebooting argument) ∨ c'.mode = .off := by
  have hsound := ((kernelStart_start hstart).sound habove).steps hb hrun
  cases hmode : c'.mode with
  | user rax =>
      refine Or.inl ⟨rax, rfl, hsound.current, ?_, hsound.running rax hmode⟩
      intro hzero
      have hlive := hsound.live
      rw [hzero, hsound.zero] at hlive
      exact hlive rfl
  | spinning pid spins => exact Or.inr (Or.inl ⟨pid, spins, rfl, (hsound.passed _ _ hmode).1⟩)
  | failed message => exact absurd hmode (hsound.fine.1 message)
  | rebooting argument => exact Or.inr (Or.inr (Or.inl ⟨argument, rfl⟩))
  | off => exact Or.inr (Or.inr (Or.inr rfl))
  | wild => exact absurd hmode hsound.fine.2

theorem runs_safe_small : ∃ c c', smallStart = some c ∧ steps smallBoot c smallRun = some c'
    ∧ ((∃ rax, c'.mode = .user rax ∧ c'.sys.current < MAXNPROC ∧ c'.sys.current ≠ 0
        ∧ Runnable c'.sys c'.sys.current)
      ∨ (∃ pid spins, c'.mode = .spinning pid spins ∧ pid < MAXNPROC)
      ∨ (∃ argument, c'.mode = .rebooting argument) ∨ c'.mode = .off) := by
  have hruns : (smallStart.bind fun c => if Behaving smallBoot c smallRun then
      steps smallBoot c smallRun else none).isSome = true := by decide +kernel
  obtain ⟨c', hc'⟩ := Option.isSome_iff_exists.mp hruns
  obtain ⟨c, hc, hrun⟩ := Option.bind_eq_some_iff.mp hc'
  split at hrun
  · rename_i hb
    have habove : AboveStart [("small", smallImage)] := by
      intro r hr
      rw [List.mem_singleton.mp hr]
      decide
    exact ⟨c, c', hc, hrun, runs_safe habove hc hrun hb⟩
  · cases hrun

end KernelLoop
