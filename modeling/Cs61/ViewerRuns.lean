import Cs61.Allocators
import Cs61.MemViewer

/-! # What the memory viewer shows while the kernel runs

    As long as all processes use the kernel page table, `refresh` goes by physical
    addresses: a page that is in use is marked for the process to whose part of
    memory it belongs (`refresh_owned`).  `state_shown` is the picture of a state of
    the kernel, and `allocators_shown` the one of the four allocators. -/

namespace ViewerRuns

open PageTable PostOrder LoopRules Tilings VmWalk VmQueries VmRanges VmIter
open BootTables (Site Maps leaf identity and_or_absorb)
open PtVisit MemUsage MemRefresh MemViewer

variable {site : Site} {k : Kernel} {u u₁ : Usage} {i b : Nat} {L : List Vmiter}

/-! ## Owners -/

/-- What the loop over the kernel page table adds to the marks of a page. -/
def ownerFlags (pa : Word) : BitVec 32 :=
  fUser ||| fProcess ((((pa - procStartAddr) / 0x40000#64).setWidth 32) + 1#32).toInt

/-- The process to whose part of memory a page belongs. -/
def ownerOf (i : Nat) : Nat := (i - 0x100) / 64 + 1

/-- The flags that the viewer sets for a page of a process. -/
theorem ownerFlags_iff (hi : i < 512) :
    (ownerFlags (pageAddress i)).getLsbD b = true ↔ b = 1 ∨ 0x100 ≤ i ∧ b = ownerOf i + 2 := by
  have hall : ∀ i < 512, ownerFlags (pageAddress i)
      = BitVec.twoPow 32 1 ||| (if 0x100 ≤ i then BitVec.twoPow 32 (ownerOf i + 2) else 0) := by
    decide +kernel
  rw [hall i hi, BitVec.getLsbD_or, Bool.or_eq_true, getLsbD_twoPow_iff (by omega)]
  refine or_congr Iff.rfl ?_
  by_cases hlow : 0x100 ≤ i
  · rw [if_pos hlow, getLsbD_twoPow_iff (by rw [ownerOf]; omega)]
    exact (and_iff_right hlow).symm
  · rw [if_neg hlow]
    exact iff_of_false (by simp) fun h => hlow h.1

/-- The flags after one page of a process. -/
theorem flagged_markOwned (hi : i < 1024) (k : Kernel) (u : Usage) (it : Vmiter) :
    Flagged (k.markOwned u it) i b ↔ Flagged u i b ∨ (k.owned it = true
      ∧ (it.pa k.mem).toNat / 4096 = i ∧ (ownerFlags (it.pa k.mem)).getLsbD b = true) := by
  rw [Kernel.markOwned]
  by_cases howned : k.owned it = true
  · rw [if_pos howned]
    refine (flagged_mark hi _ _ _).trans (or_congr Iff.rfl ?_)
    exact (and_iff_right howned).symm
  · rw [if_neg howned]
    exact (or_iff_left fun h => howned h.1).symm

/-! ## The kernel page table -/

/-- The pages above the first are the user's. -/
theorem user_leaf (h : Maps site 512 k.mem) {va : Word} (hpos : 0x1000 ≤ va.toNat)
    (hva : va.toNat < 0x200000) : (leaf site va).user k.mem = true := by
  have hread : (leaf site va).pep.read k.mem = identity (va.toNat / 4096) :=
    (h 3 (by omega) _ (by omega)).trans (if_pos ⟨by omega, by omega⟩)
  have hpres : (identity (va.toNat / 4096)).getLsbD 0 = true := by
    rw [identity, BitVec.getLsbD_or, show ptePWU.getLsbD 0 = true by decide, Bool.or_true]
  have hflags : Vmiter.initialPerm &&& (pteP ||| pteU) = ptePWU &&& (pteP ||| pteU) := by decide
  have habsorb : ∀ x : Word, (x ||| ptePWU) &&& ptePWU = ptePWU := fun x => by
    rw [BitVec.and_comm]
    exact and_or_absorb ptePWU x
  rw [user_iff, onPath_perms (h.onPath_leaf hva), hread, if_pos hpres]
  show identity _ &&& Vmiter.initialPerm &&& (pteP ||| pteU) = pteP ||| pteU
  rw [BitVec.and_assoc, hflags, ← BitVec.and_assoc, identity, habsorb]
  decide

/-- A page in use belongs to the process that maps it. -/
theorem owned_leaf (h : Maps site 512 k.mem) (h1 : 1 ≤ i) (hi : i < 512) (hused : k.used i = true) :
    k.owned (leaf site (pageAddress i)) = true ∧ (leaf site (pageAddress i)).pa k.mem = pageAddress i := by
  have hnat := toNat_pageAddress (show i < 1024 by omega)
  have hpa : (leaf site (pageAddress i)).pa k.mem = pageAddress i :=
    h.pa_low (by omega) (by omega)
  refine ⟨?_, hpa⟩
  have hlow : pageAddress i < memsizePhysical := by
    rw [BitVec.lt_def, hnat]
    show 4096 * i < 0x200000
    omega
  rw [Kernel.owned, user_leaf h (by omega) (by omega), hpa, decide_eq_true hlow, hnat,
    show 4096 * i / 4096 = i by omega, hused]
  rfl

theorem owned_user {it : Vmiter} (h : k.owned it = true) : it.user k.mem = true := by
  rw [Kernel.owned, Bool.and_eq_true, Bool.and_eq_true] at h
  exact h.1.1

/-- **THE LOOP BY PHYSICAL ADDRESS** comes to the pages in use, each at its own
    address. -/
theorem scan_owned (h : Maps site 512 k.mem) (hzero : k.used 0 = false) :
    ∃ L, Returns (scan k.mem site.addr k.owned) L ∧ ∀ i < 1024, ∀ f : Word → Prop,
      (∃ it ∈ L, k.owned it = true ∧ (it.pa k.mem).toNat / 4096 = i ∧ f (it.pa k.mem))
        ↔ i < 512 ∧ k.used i = true ∧ f (pageAddress i) := by
  obtain ⟨L, hret, htiles, hall⟩ := scan_tiles h.wellFormed fun it (hit : k.owned it = true) =>
    perms_of_user (owned_user hit)
  refine ⟨L, hret, ?_⟩
  intro i hi f
  constructor
  · -- what the scan finds is a page below 2 MiB
    rintro ⟨it, hit, howned, hpage, hf⟩
    obtain ⟨hw, hal⟩ := hall it hit
    have hrange := htiles.mem_range it hit
    rw [rangeStart] at hrange
    obtain ⟨d, hon, -⟩ := onPath_of_low hw (by omega)
    have hpa : (it.pa k.mem).toNat % 4096 = 0 :=
      pageAligned_pa hon hal (present_of_user (owned_user howned))
    have hsame : it.pa k.mem = pageAddress i := by
      refine BitVec.eq_of_toNat_eq ?_
      rw [toNat_pageAddress hi]
      omega
    rw [Kernel.owned, Bool.and_eq_true, Bool.and_eq_true, hpage, decide_eq_true_iff,
      BitVec.lt_def] at howned
    have hlow : (it.pa k.mem).toNat < 0x200000 := howned.1.2
    exact ⟨by omega, howned.2, hsame ▸ hf⟩
  · -- and every page in use is found, as the ranges cover the addresses
    rintro ⟨hlt, hused, hf⟩
    have h1 : 1 ≤ i := by
      rcases Nat.eq_zero_or_pos i with rfl | hpos
      · rw [hzero] at hused
        cases hused
      · exact hpos
    obtain ⟨it, hit, hstart, hstop⟩ := htiles.covers (Nat.zero_le (4096 * i)) (by omega)
    rw [rangeStart] at hstart
    obtain ⟨hw, hal⟩ := hall it hit
    have hva : it.va.toNat % 4096 = 0 := hal
    have hlow : it.va.toNat < 0x200000 := by omega
    have hleaf : it = leaf site it.va := (hw.eq_fresh site.aligned).trans (h.fresh_low hlow)
    -- below 2 MiB every range is one page
    have hend : scanStop k.owned it = 4096 * (it.va.toNat / 4096 + 1) := by
      have hon : OnPath k.mem site.addr 3 it := by
        rw [hleaf]
        exact h.onPath_leaf hlow
      have hrange := onPath_rangeStop hon
      rw [scanStop]
      split
      · rfl
      · exact hrange
    have hsame : it.va = pageAddress i := by
      refine BitVec.eq_of_toNat_eq ?_
      rw [toNat_pageAddress hi]
      omega
    rw [hsame] at hleaf
    obtain ⟨howned, hpa⟩ := owned_leaf h h1 hlt hused
    rw [← hleaf] at howned hpa
    refine ⟨it, hit, howned, ?_, ?_⟩
    · rw [hpa, toNat_pageAddress hi]
      omega
    · rw [hpa]
      exact hf

theorem markOwned_separateTables (k : Kernel) (u : Usage) (it : Vmiter) :
    (k.markOwned u it).separateTables = u.separateTables := by
  rw [Kernel.markOwned]
  split
  · exact mark_separateTables _ _ _
  · rfl

/-- The marks when no process has a page table of its own. -/
theorem refresh_owned {page : Word} (h : Maps site 512 k.mem) (htable : k.kernelPagetable = site.addr)
    (hnone : ∀ pid, ¬ Separate k pid) (hzero : k.used 0 = false) (hv : u.v ≠ 0#64 ∨ page ≠ 0#64) :
    ∃ u', Returns₂ (k.refresh page u) u' ∧ u'.separateTables = false
      ∧ ∀ i < 1024, Marks (u'.marks i)
        (TablePage k.mem site.addr i ∨ (if u.v = 0#64 then page else u.v).toNat / 4096 = i)
        (i < 512 ∧ k.used i = true) False
        (fun p => (i < 512 ∧ k.used i = true) ∧ 0x100 ≤ i ∧ p = ownerOf i) := by
  have hkernel : PageTree k.mem k.kernelPagetable := by
    rw [htable]
    exact h.tree
  obtain ⟨u₁, hseen, hlast⟩ := refresh_seen hkernel
    (fun pid hs => absurd hs (hnone pid)) hv
  -- no table is separate
  have hsep : ¬ u₁.separateTables = true := by
    rw [hseen.separate]
    rintro ⟨pid, hs⟩
    exact hnone pid hs
  obtain ⟨L, hret, hmarks⟩ := scan_owned h hzero
  refine ⟨L.foldl k.markOwned u₁, hlast _ ((hret.map fun L => L.foldl k.markOwned u₁).outer.congr ?_),
    ?_, ?_⟩
  · intro inner outer
    rw [Kernel.refreshByOwner, if_neg hsep, htable]
  · rw [foldl_keeps Usage.separateTables fun u it => markOwned_separateTables k u it]
    exact Bool.not_eq_true _ ▸ hsep
  intro i hi
  -- bit by bit: the marks of the kernel, and those of an owner
  have hbits : ∀ b, Flagged (L.foldl k.markOwned u₁) i b
      ↔ ((TablePage k.mem site.addr i ∨ (if u.v = 0#64 then page else u.v).toNat / 4096 = i) ∧ b = 0)
        ∨ (i < 512 ∧ k.used i = true) ∧ (b = 1 ∨ 0x100 ≤ i ∧ b = ownerOf i + 2) := by
    intro b
    rw [flagged_foldl (fun u it => flagged_markOwned hi k u it), hseen.flags i hi b, htable,
      hmarks i hi fun pa => (ownerFlags pa).getLsbD b = true]
    refine or_congr (or_iff_left fun h => hnone _ h.choose_spec.1) ?_
    rw [← and_assoc]
    exact and_congr_right fun h => ownerFlags_iff h.1
  -- from the bits to the marks
  refine ⟨?_, ?_, ?_, ?_, ?_, False.elim⟩
  · refine (hbits 0).trans ?_
    simp
  · refine (hbits 1).trans ?_
    simp [ownerOf]
  · refine (hbits 2).trans ?_
    simp [ownerOf]
  · intro p h1
    refine (hbits (p + 2)).trans ?_
    simp
  · rintro p ⟨⟨hlt, -⟩, hlow, rfl⟩
    rw [ownerOf, maxNProc]
    omega

/-! ## The kernel's own state -/

open KernelLoop (Boot Sys Config Action Table Quiet FirstFree Outcome Sound Stopped step_outcome free_one)

variable {b : Boot} {s s' : Sys} {c c' : Config} {a : Action} {v q : Nat}

/-- The state of a process, as the memory viewer sees it. -/
def procState (state : BitVec 32) : ProcState :=
  if state = KernelLoop.P_FREE then .free
  else if state = KernelEntry.P_RUNNABLE then .runnable
  else if state = KernelLoop.P_FAULTED then .faulted
  else .blocked

/-- What `refresh` reads. -/
def viewed (b : Boot) (s : Sys) : Kernel where
  mem := b.tables
  kernelPagetable := b.kernel.kernel_pagetable
  ptable := fun pid =>
    { pagetable := (s.kernel.ptable pid).pagetable, state := procState (s.kernel.ptable pid).state }
  used := fun pn => s.kernel.physpages pn != 0

/-- What decides where the viewer finds its page. -/
def view (b : Boot) (s : Sys) : View := { kernelEnd := b.kernelEnd, physpages := s.kernel.physpages }

/-- `v_` at `v`, whatever the page holds. -/
def usageAt (v : Nat) (marks : Nat → BitVec 32) (separate : Bool) : Usage :=
  { v := BitVec.ofNat 64 v, marks := marks, separateTables := separate }

/-- The allocators share the kernel's page table. -/
theorem not_separate (h : Table b s) (pid : Nat) : ¬ Separate (viewed b s) pid := by
  rintro ⟨-, hlt, hstate, -, hne⟩
  have hlive : (s.kernel.ptable pid).state ≠ KernelLoop.P_FREE := by
    intro hfree
    refine hstate ?_
    show procState (s.kernel.ptable pid).state = .free
    rw [hfree]
    rfl
  exact hne ((h.tables pid hlt hlive).trans b.table.symm)

/-- The kernel page table is part of the kernel's data. -/
theorem table_not_allocatable (hsite : b.site.addr.toNat + 0x5000 ≤ b.kernelEnd) {i : Nat}
    (halloc : Allocatable (view b s) i) : ¬ TablePage b.tables b.site.addr i := by
  rintro ⟨p, t, hp, ht, hpage⟩
  obtain ⟨j, hj, rfl⟩ := b.maps.table_inv hp ht
  have hstart := b.site.start
  have hal : b.site.addr.toNat % 4096 = 0 := b.site.aligned
  have hle := hj.le
  rw [BootTables.toNat_page hle] at hpage
  obtain ⟨-, hkernel, -, -⟩ := PhysPages.allocatable_iff.mp halloc
  have hround : b.kernelEnd ≤ PhysPages.roundUp b.kernelEnd PhysPages.PAGESIZE :=
    (KernelLoop.Allocators.roundUp_page b.kernelEnd).2
  refine hkernel ⟨?_, ?_⟩
  · show 0x40000 ≤ 4096 * i
    omega
  · show 4096 * i < PhysPages.roundUp b.kernelEnd PhysPages.PAGESIZE
    omega

/-- **A STATE** of the kernel and its picture. -/
theorem state_shown (h : Table b s) (hsite : b.site.addr.toNat + 0x5000 ≤ b.kernelEnd)
    (hzero : s.kernel.physpages 0 = 0) (hq : 1 ≤ q ∧ q < 512) (marks : Nat → BitVec 32)
    (separate : Bool) :
    ∃ u', Returns₂ ((viewed b s).refresh 0 (usageAt (q * 4096) marks separate)) u' ∧ ∀ i < 512,
      (symbolAt (view b s) u' (pageAddress i)).2 = []
        ∧ (Allocatable (view b s) i → i ≠ q → letter (symbolAt (view b s) u' (pageAddress i)).1
          = code (if s.kernel.physpages i ≠ 0 ∧ 0x100 ≤ i then names.getD (ownerOf i) '\x00' else '.')) := by
  have hv : (BitVec.ofNat 64 (q * 4096)).toNat = q * 4096 := by
    rw [BitVec.toNat_ofNat]
    omega
  -- the viewer has a page
  have hne : (usageAt (q * 4096) marks separate).v ≠ 0#64 := by
    intro hz
    have hnat := congrArg BitVec.toNat hz
    rw [usageAt, hv] at hnat
    have hpos : q * 4096 ≠ 0 := by omega
    exact hpos hnat
  have hused : (viewed b s).used 0 = false := by
    show (s.kernel.physpages 0 != 0) = false
    rw [hzero]
    rfl
  have hset : (usageAt (q * 4096) marks separate).v ≠ 0#64 ∨ (0 : Word) ≠ 0#64 := .inl hne
  obtain ⟨u', hret, hsep, hmarks⟩ := refresh_owned b.maps b.table (not_separate h) hused hset
  refine ⟨u', hret, ?_⟩
  intro i hi
  have hm := hmarks i (by omega)
  rw [if_neg hne] at hm
  refine ⟨?_, ?_⟩
  · -- no complaint: no page is counted twice
    rw [hm.errors (view b s) hi, hsep]
    refine ⟨?_, ?_, fun _ => nofun, fun _ => nofun, fun _ => nofun⟩
    · show s.kernel.physpages i ≤ 16
      rcases h.counts i with hz | hz
      · rw [hz]
        decide
      · rw [hz]
        decide
    · -- no process is marked below its memory
      rintro hres - p ⟨-, hlow, -⟩
      have hrange := MemViewer.reserved_iff.mp hres
      omega
  · intro halloc hiq
    have hused : (viewed b s).used i = true ↔ s.kernel.physpages i ≠ 0 := bne_iff_ne
    -- neither a table nor the viewer's page
    have hk : ¬ (TablePage (viewed b s).mem b.site.addr i
        ∨ (usageAt (q * 4096) marks separate).v.toNat / 4096 = i) := by
      rintro (htable | hpage)
      · exact table_not_allocatable hsite halloc htable
      · rw [usageAt, hv] at hpage
        omega
    refine hm.letter_iff halloc ?_
    rw [hsep]
    -- the letter by cases: in use or free, and by whom
    by_cases huse : s.kernel.physpages i ≠ 0
    · have hu : i < 512 ∧ (viewed b s).used i = true := ⟨hi, hused.mpr huse⟩
      by_cases hlow : 0x100 ≤ i
      · rw [if_pos ⟨huse, hlow⟩]
        exact .process (fun hc => hk hc.1) ⟨hu, hlow, rfl⟩ fun p hp => hp.2.2
      · rw [if_neg fun hc => hlow hc.2]
        exact .user hk hu fun p hp => hlow hp.2.1
    · have hu : ¬ (i < 512 ∧ (viewed b s).used i = true) := fun hc => huse (hused.mp hc.2)
      rw [if_neg fun hc => huse hc.1]
      exact .free hk hu (fun p hp => hu hp.1) fun hc => huse (bne_iff_ne.mp hc)

/-! ## While the allocators run -/

/-- Page 0 is never used, and the marks are in page 1. -/
structure Viewing (s : Sys) : Prop where
  zero : s.kernel.physpages 0 = 0
  page : ∀ v, s.v = some v → v = PhysPages.PAGESIZE

theorem incr_ne {physpages : Nat → UInt8} (hq : q ≠ 0) :
    PhysPages.incr physpages q 0 = physpages 0 := if_neg fun h => hq h.symm

theorem FirstFree.ne_zero {physpages : Nat → UInt8} (h : FirstFree b physpages q) : q ≠ 0 := by
  rintro rfl
  obtain ⟨hres, -⟩ := PhysPages.allocatable_iff.mp (PhysPages.isFree_iff.mp h.2.1).1
  exact absurd hres (by decide)

/-- The invariant reads the reference counts and the viewer's page only. -/
theorem Viewing.congr (h : Viewing s) (hpages : s'.kernel.physpages = s.kernel.physpages)
    (hv : s'.v = s.v) : Viewing s' :=
  ⟨by rw [hpages, h.zero], fun v hsome => h.page v (hv ▸ hsome)⟩

/-- A quiet step keeps it. -/
theorem Viewing.quiet (h : Viewing s) (hq : Quiet b s s')
    (hone : s.v = none → s.kernel.physpages 1 = 0) : Viewing s' := by
  rcases hq.pages with ⟨hpages, hv⟩ | ⟨hnone, q, hfirst, hpages, hv⟩
  · exact h.congr hpages hv
  · have hle : q ≤ 1 := by
      by_contra hgt
      have hno := hfirst.2.2 1 (by omega)
      rw [free_one b (hone hnone)] at hno
      cases hno
    have hne := FirstFree.ne_zero hfirst
    obtain rfl : q = 1 := by omega
    refine ⟨by rw [hpages, incr_ne hne, h.zero], ?_⟩
    intro v hsome
    exact Option.some.inj (hsome.symm.trans hv)

theorem Viewing.base (h : Viewing c.sys) (hone : c.sys.v = none → c.sys.kernel.physpages 1 = 0)
    (a : Action) : Viewing (KernelLoop.base c a)
      ∧ ((KernelLoop.base c a).v = none → (KernelLoop.base c a).kernel.physpages 1 = 0) := by
  cases a with
  | exception mem regs data => exact ⟨h.congr rfl rfl, hone⟩
  | syscall mem regs data => exact ⟨h.congr rfl rfl, hone⟩
  | pass data => exact ⟨h, hone⟩

/-- A step of the kernel keeps it. -/
theorem Viewing.step (h : Viewing c.sys) (hsound : Sound b c)
    (hs : KernelLoop.step b c a = some c') : Viewing c'.sys := by
  have hone := hsound.viewer
  obtain ⟨hbase, hbaseOne⟩ := h.base hone a
  -- by what the step does; a count changes in `alloc` only
  cases step_outcome hsound.running hs with
  | timer hmode hi hq hm => exact hbase.quiet hq hbaseOne
  | fault hmode hi hu hq hm =>
      refine Viewing.quiet ?_ hq hbaseOne
      exact hbase.congr rfl rfl
  | getpid hmode ha hq hm => exact hbase.quiet hq hbaseOne
  | yield hmode ha hq hm =>
      refine Viewing.quiet ?_ hq hbaseOne
      exact hbase.congr rfl rfl
  | alloc hmode ha hq hok hs' hm =>
      have hquiet := hbase.quiet hq hbaseOne
      rw [hs']
      refine ⟨?_, hquiet.page⟩
      rcases hok with hcall | hcall | ⟨-, -, -, hharm⟩
      · rw [ha] at hcall
        exact absurd hcall (by decide)
      · rw [ha] at hcall
        exact absurd hcall (by decide)
      · -- a page is never given out from below `PAGESIZE`
        rw [KernelLoop.harmful, Bool.or_eq_false_iff, Bool.or_eq_false_iff, Bool.or_eq_false_iff,
          decide_eq_false_iff_not] at hharm
        have hge : 4096 ≤ _ := Nat.not_lt.mp hharm.1.1.1
        refine (incr_ne ?_).trans hquiet.zero
        exact Nat.ne_of_gt (Nat.div_pos hge (by decide))
  | dispatch hmode hr hs' hm =>
      rw [hs']
      exact h.congr rfl rfl
  | idle hmode hr hq hm => exact h.quiet hq hone
  | quit hq hm => exact hbase.quiet hq hbaseOne
  | fail hwhy hq hm => exact hbase.quiet hq hbaseOne

section Allocators

open KernelLoop.Allocators

variable {prog : Program} {w w' : World} {acts : List Act} {pid : Nat}
variable {ramimages : List (String × ProcessSetup.ElfHeader)}

/-- A step of an allocator keeps it. -/
theorem Viewing.move (h : Viewing w.c.sys) (hsafe : Safe b prog w) {a : Act}
    (hs : w.step b prog a = some w') : Viewing w'.c.sys := by
  cases a with
  | go draw regs data =>
      simp only [World.step] at hs
      split at hs
      · split at hs
        · obtain rfl := Option.some.inj hs
          exact h.congr rfl rfl
        · obtain ⟨c', hstep, rfl⟩ := Option.map_eq_some_iff.mp hs
          exact h.step hsafe.sound hstep
      · cases hs
  | tick regs data =>
      obtain ⟨c', hstep, rfl⟩ := Option.map_eq_some_iff.mp hs
      exact h.step hsafe.sound hstep
  | pass data =>
      obtain ⟨c', hstep, rfl⟩ := Option.map_eq_some_iff.mp hs
      exact h.step hsafe.sound hstep

/-- Every run keeps it. -/
theorem Viewing.moves (h : Viewing w.c.sys) (hlink : Linked prog) (hsafe : Safe b prog w)
    (hs : w.steps b prog acts = some w') : Viewing w'.c.sys := by
  induction acts generalizing w with
  | nil =>
      obtain rfl := Option.some.inj hs
      exact h
  | cons a acts ih =>
      obtain ⟨w₁, hstep, hrest⟩ := Option.bind_eq_some_iff.mp hs
      exact ih (h.move hsafe hstep) (hsafe.step hlink hstep) hrest

/-- A page of a heap can be allocated, and it is in the part of its process. -/
theorem Laid.page (h : Laid prog pid) (hlo : bottom prog pid ≤ q * PhysPages.PAGESIZE)
    (hhi : q * PhysPages.PAGESIZE < PhysPages.stackAddr pid) :
    Allocatable (view b s) q ∧ 0x100 ≤ q ∧ q < 512 ∧ ownerOf q = pid := by
  have h1 := h.first
  have h4 := h.last
  have hstart : 0x100000 + 0x40000 * (pid - 1) ≤ q * 4096 := Nat.le_trans h.start hlo
  have hstop : q * 4096 < 0x100000 + 0x40000 * pid - 4096 := hhi
  have hkernel : b.kernelEnd ≤ 0x100000 := b.imageEnd
  have hround : PhysPages.roundUp b.kernelEnd PhysPages.PAGESIZE ≤ 0x100000 := by
    show b.kernelEnd + 4096 - 1 - (b.kernelEnd + 4096 - 1) % 4096 ≤ 0x100000
    omega
  refine ⟨?_, by omega, by omega, by rw [ownerOf]; omega⟩
  refine PhysPages.allocatable_iff.mpr ⟨?_, ?_, ?_, ?_⟩
  · rw [← Bool.not_eq_true, reserved_iff]
    omega
  · rintro ⟨-, hlt⟩
    have hlt : 4096 * q < PhysPages.roundUp b.kernelEnd PhysPages.PAGESIZE := hlt
    omega
  · rintro ⟨-, hlt⟩
    have hlt : 4096 * q < 0x80000 := hlt
    omega
  · show 4096 * q < 0x200000
    omega

/-- **THE PICTURE OF THE ALLOCATORS**: whenever the memory viewer refreshes while the
    four processes run, it complains about no page, and between the image and the
    stack of each process it shows the number of the process on the pages that it
    has allocated, and dots on the others. -/
theorem allocators_shown {firstProcess : String} {command : Option String} {mem : Nat → UInt8}
    (hlink : Linked prog) (hbuilt : Built prog ramimages)
    (habove : KernelLoop.AboveStart ramimages)
    (hcommand : (ProcessSetup.programImage ramimages (command.getD firstProcess)).map
      KernelLoop.isEmpty = some true)
    (hstart : KernelLoop.kernelStart b firstProcess ramimages command mem = some c)
    (hsite : b.site.addr.toNat + 0x5000 ≤ b.kernelEnd)
    (hrun : World.steps b prog { c := c, vars := fun _ => fresh } acts = some w)
    (hv : w.c.sys.v = some v) (marks : Nat → BitVec 32) (separate : Bool) :
    ∃ u', Returns₂ ((viewed b w.c.sys).refresh 0 (usageAt v marks separate)) u'
      ∧ (∀ i < 512, (symbolAt (view b w.c.sys) u' (pageAddress i)).2 = [])
      ∧ (¬ Stopped w.c.mode → ∀ pid, 1 ≤ pid → pid ≤ 4 → ∀ q,
          bottom prog pid ≤ q * PhysPages.PAGESIZE → q * PhysPages.PAGESIZE < PhysPages.stackAddr pid →
          letter (symbolAt (view b w.c.sys) u' (pageAddress q)).1
            = code (if q * PhysPages.PAGESIZE < limit prog pid (w.vars pid) then names.getD pid '\x00'
                else '.')) := by
  have hsafe := safe_start hlink hbuilt habove hcommand hstart
  have hbegin := KernelLoop.kernelStart_start hstart
  have hviewing : Viewing c.sys := by
    refine ⟨hbegin.starting.low habove 0 (by decide), ?_⟩
    intro v hsome
    rw [hbegin.v] at hsome
    cases hsome
  have hend := Viewing.moves hviewing hlink hsafe hrun
  have hsafeEnd := hsafe.steps hlink hrun
  obtain rfl : v = 1 * 4096 := hend.page v hv
  obtain ⟨u', hret, hshown⟩ := state_shown hsafeEnd.sound.toTable hsite hend.zero
    (q := 1) ⟨by decide, by decide⟩ marks separate
  refine ⟨u', hret, fun i hi => (hshown i hi).1, ?_⟩
  intro hgo pid h1 h4 q hlo hhi
  obtain ⟨halloc, hlow, hq, howner⟩ := Laid.page (b := b) (s := w.c.sys) (hlink pid h1 h4) hlo hhi
  have hpages := (hsafeEnd.heaps hgo pid h1 h4).pages q hlo hhi
  have hletter := (hshown q hq).2 halloc (by omega)
  rw [hletter, howner, hpages]
  by_cases hlt : q * PhysPages.PAGESIZE < limit prog pid (w.vars pid)
  · rw [if_pos hlt, if_pos hlt, if_pos ⟨by decide, hlow⟩]
  · rw [if_neg hlt, if_neg hlt, if_neg fun hc => hc.1 rfl]

/-- The theorem's conditions can be met: four allocators start. -/
theorem allocators_shown_small : ∃ c w v,
    KernelLoop.kernelStart KernelLoop.smallBoot "allocators" smallImages none (fun _ => 0) = some c
      ∧ World.steps KernelLoop.smallBoot smallProgram { c := c, vars := fun _ => fresh } smallTurns
        = some w
      ∧ w.c.sys.v = some v
      ∧ ∃ u', Returns₂ ((viewed KernelLoop.smallBoot w.c.sys).refresh 0 (usageAt v (fun _ => 0) false)) u'
        ∧ ∀ i < 512, (symbolAt (view KernelLoop.smallBoot w.c.sys) u' (pageAddress i)).2 = [] := by
  have hruns : ((KernelLoop.kernelStart KernelLoop.smallBoot "allocators" smallImages none
      fun _ => 0).bind fun c => (World.steps KernelLoop.smallBoot smallProgram
        { c := c, vars := fun _ => fresh } smallTurns).bind fun w => w.c.sys.v).isSome = true := by
    decide +kernel
  obtain ⟨v, hw⟩ := Option.isSome_iff_exists.mp hruns
  obtain ⟨c, hc, hw⟩ := Option.bind_eq_some_iff.mp hw
  obtain ⟨w, hrun, hv⟩ := Option.bind_eq_some_iff.mp hw
  have hcommand : (ProcessSetup.programImage smallImages (Option.getD none "allocators")).map
      KernelLoop.isEmpty = some true := by decide
  obtain ⟨u', hret, herrors, -⟩ := allocators_shown small_linked small_built small_above hcommand hc
    (by decide) hrun hv (fun _ => 0) false
  exact ⟨c, w, v, hc, hrun, hv, u', hret, herrors⟩

end Allocators

end ViewerRuns
