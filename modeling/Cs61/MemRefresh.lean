import Cs61.MemUsage

/-! # `memusage::refresh` — every page is marked for what it is

    Each loop of `refresh` adds its flags to the pages it visits.  The marks of
    a process are collected in `ProcMark`; several processes mark one array, so
    the flags of a page are the union over them. -/

namespace MemRefresh

open PageTable PostOrder VmIter LoopRules PtIter PtVisit MemUsage

variable {k : Kernel}

/-- The flags that process `pid` adds to page `i`. -/
def ProcMark (k : Kernel) (pid i b : Nat) : Prop :=
  (LowTablePage k.mem (k.ptable pid).pagetable i ∧ (b = 0 ∨ b = pid + 2))
    ∨ ∃ va pa, UserMaps k.mem (k.ptable pid).pagetable va pa i
        ∧ (b = 1 ∨ b = pid + 2 ∨ (b = 2 ∧ ¬ va = pa))

/-- The test whether a process has a page table of its own. -/
theorem separate_iff {pid : Nat} (h1 : 1 ≤ pid) (h2 : pid < maxNProc) :
    k.separate pid = true ↔ Separate k pid := by
  rw [Kernel.separate, Separate, Bool.and_eq_true, Bool.and_eq_true, bne_iff_ne, bne_iff_ne,
    bne_iff_ne]
  tauto

/-- What a part of `refresh` has added to the flags. -/
structure Adds (u u' : Usage) (P : Nat → Nat → Prop) : Prop where
  v : u'.v = u.v
  flags : ∀ i, i < 1024 → ∀ b, Flagged u' i b ↔ Flagged u i b ∨ P i b

/-- Nothing is marked. -/
theorem Adds.refl (u : Usage) : Adds u u (fun _ _ => False) :=
  ⟨rfl, fun _ _ _ => ⟨Or.inl, fun h => h.resolve_right id⟩⟩

/-- One mark after the other. -/
theorem Adds.trans {u u' u'' : Usage} {P Q : Nat → Nat → Prop} (h : Adds u u' P)
    (h' : Adds u' u'' Q) : Adds u u'' (fun i b => P i b ∨ Q i b) := by
  refine ⟨h'.v.trans h.v, ?_⟩
  intro i hi b
  rw [h'.flags i hi, h.flags i hi, or_assoc]

/-- The marks, said in other words. -/
theorem Adds.congr {u u' : Usage} {P Q : Nat → Nat → Prop} (h : Adds u u' P)
    (hPQ : ∀ i b, P i b ↔ Q i b) : Adds u u' Q := by
  refine ⟨h.v, ?_⟩
  intro i hi b
  rw [h.flags i hi, hPQ]

/-- One page is marked. -/
theorem adds_mark (u : Usage) (pa : Word) (f : BitVec 32) :
    Adds u (u.mark pa f) (fun i b => pa.toNat / 4096 = i ∧ f.getLsbD b = true) :=
  ⟨mark_v u pa f, fun _ hi _ => flagged_mark hi u pa f⟩

/-- A loop that marks every page it visits with the same flags. -/
theorem adds_marks (mem : Mem) (f : BitVec 32) (L : List Ptiter) (u : Usage) :
    Adds u (L.foldl (fun u it => u.mark (it.pa mem) f) u)
      (fun i b => (∃ it ∈ L, (it.pa mem).toNat / 4096 = i) ∧ f.getLsbD b = true) := by
  refine ⟨foldl_keeps Usage.v (fun u it => mark_v u _ _) L u, ?_⟩
  intro i hi b
  rw [flagged_foldl (fun u it => flagged_mark hi u (Ptiter.pa mem it) f)]
  constructor
  · rintro (h | ⟨it, hit, hpage, hf⟩)
    · exact Or.inl h
    · exact Or.inr ⟨⟨it, hit, hpage⟩, hf⟩
  · rintro (h | ⟨⟨it, hit, hpage⟩, hf⟩)
    · exact Or.inl h
    · exact Or.inr ⟨it, hit, hpage, hf⟩

/-- The pages of a list are marked. -/
theorem adds_markUsers (mem : Mem) (f : BitVec 32) (L : List Vmiter) (u : Usage) :
    Adds u (L.foldl (Usage.markUser mem f) u)
      (fun i b => ∃ it ∈ L, it.user mem = true ∧ (it.pa mem).toNat / 4096 = i
        ∧ (userFlags it.va (it.pa mem) f).getLsbD b = true) := by
  refine ⟨foldl_keeps Usage.v (fun u it => markUser_v mem f u it) L u, ?_⟩
  intro i hi b
  exact flagged_foldl (fun u it => flagged_markUser hi mem f u it) L u

/-! ## One process -/

/-- The page table pages of a process are marked. -/
theorem adds_markProcTables {pid : Nat} (h1 : 1 ≤ pid) (h2 : pid < maxNProc) (L : List Ptiter)
    (u : Usage) :
    Adds u (k.markProcTables pid L u)
      (fun i b => ((∃ it ∈ L, (it.pa k.mem).toNat / 4096 = i)
        ∨ (k.ptable pid).pagetable.toNat / 4096 = i) ∧ (b = 0 ∨ b = pid + 2)) := by
  refine ((adds_marks k.mem (fKernel ||| fProcess pid) L u).trans (adds_mark _ _ _)).congr ?_
  intro i b
  rw [tableFlags_iff h1 h2, or_and_right]

/-- The pages that a process can use are marked. -/
theorem adds_markProcUsers {pid : Nat} (h1 : 1 ≤ pid) (h2 : pid < maxNProc)
    (hwf : WellFormed k.mem (k.ptable pid).pagetable) (u : Usage) :
    ∃ u', Returns (fun outer => k.markProcUsers outer pid u) u'
      ∧ u'.separateTables = u.separateTables
      ∧ Adds u u' (fun i b => ∃ va pa, UserMaps k.mem (k.ptable pid).pagetable va pa i
          ∧ (b = 1 ∨ b = pid + 2 ∨ (b = 2 ∧ ¬ va = pa))) := by
  obtain ⟨L, hL, husers⟩ := scan_user hwf
  refine ⟨_, hL.map _, ?_, (adds_markUsers k.mem (fProcess pid) L u).congr ?_⟩
  · exact foldl_keeps Usage.separateTables (fun u it => markUser_separateTables _ _ u it) L u
  · intro i b
    rw [← husers i (fun ident => b = 1 ∨ b = pid + 2 ∨ (b = 2 ∧ ¬ ident))]
    simp only [userFlags_iff h1 h2]

/-- **ONE PROCESS** adds its flags, and nothing else. -/
theorem refreshProc_spec {pid : Nat} (h1 : 1 ≤ pid) (h2 : pid < maxNProc)
    (hwf : Separate k pid → WellFormed k.mem (k.ptable pid).pagetable) (u : Usage) :
    ∃ u', Returns₂ (fun inner outer => k.refreshProc inner outer pid u) u'
      ∧ (u'.separateTables = true ↔ u.separateTables = true ∨ Separate k pid)
      ∧ Adds u u' (fun i b => Separate k pid ∧ ProcMark k pid i b) := by
  by_cases hs : k.separate pid = true
  · have hsep := (separate_iff h1 h2).mp hs
    obtain ⟨L, hL, htables⟩ := visit_low (hwf hsep).toPageTree
    have hadds := adds_markProcTables (k := k) h1 h2 L { u with separateTables := true }
    obtain ⟨u', hret, hsame, husers⟩ := adds_markProcUsers h1 h2 (hwf hsep)
      (k.markProcTables pid L { u with separateTables := true })
    refine ⟨u', (hL.bind (g := fun _ outer L => k.markProcUsers outer pid
      (k.markProcTables pid L { u with separateTables := true })) hret.outer).congr ?_, ?_,
      (hadds.trans husers).v, ?_⟩
    · intro inner outer
      rw [Kernel.refreshProc, if_pos hs]
    · rw [hsame, Kernel.markProcTables, mark_separateTables,
        foldl_keeps Usage.separateTables (fun u it => mark_separateTables u _ _)]
      exact ⟨fun _ => Or.inr hsep, fun _ => rfl⟩
    · intro i hi b
      refine ((hadds.trans husers).flags i hi b).trans (or_congr Iff.rfl ?_)
      rw [htables, ProcMark]
      exact ⟨fun h => ⟨hsep, h⟩, fun h => h.2⟩
  · have hsep : ¬ Separate k pid := fun h => hs ((separate_iff h1 h2).mpr h)
    refine ⟨u, (Returns₂.pure u).congr (fun inner outer => by rw [Kernel.refreshProc, if_neg hs]),
      ?_, ?_⟩
    · exact ⟨Or.inl, fun h => h.resolve_right hsep⟩
    · exact (Adds.refl u).congr (fun i b => ⟨False.elim, fun h => hsep h.1⟩)

/-- The flags of several processes. -/
theorem refreshProcs_spec {pids : List Nat} (hpids : ∀ pid ∈ pids, 1 ≤ pid ∧ pid < maxNProc)
    (hwf : ∀ pid, Separate k pid → WellFormed k.mem (k.ptable pid).pagetable) (u : Usage) :
    ∃ u', Returns₂ (fun inner outer => k.refreshProcs inner outer pids u) u'
      ∧ (u'.separateTables = true ↔ u.separateTables = true ∨ ∃ pid ∈ pids, Separate k pid)
      ∧ Adds u u' (fun i b => ∃ pid ∈ pids, Separate k pid ∧ ProcMark k pid i b) := by
  induction pids generalizing u with
  | nil =>
      refine ⟨u, Returns₂.pure u, ⟨Or.inl, ?_⟩, (Adds.refl u).congr fun i b => ⟨False.elim, ?_⟩⟩
      · rintro (h | ⟨pid, hpid, -⟩)
        · exact h
        · cases hpid
      · rintro ⟨pid, hpid, -⟩
        cases hpid
  | cons pid pids ih =>
      obtain ⟨h1, h2⟩ := hpids pid List.mem_cons_self
      obtain ⟨u₁, hret₁, hsep₁, hadds₁⟩ := refreshProc_spec h1 h2 (hwf pid) u
      obtain ⟨u₂, hret₂, hsep₂, hadds₂⟩ :=
        ih (fun p hp => hpids p (List.mem_cons_of_mem _ hp)) u₁
      refine ⟨u₂, hret₁.bind hret₂, ?_, (hadds₁.trans hadds₂).congr ?_⟩
      · rw [hsep₂, hsep₁, List.exists_mem_cons_iff, or_assoc]
      · intro i b
        rw [List.exists_mem_cons_iff]

/-! ## What the flags of a process stand for -/

section Flags

variable {pid i : Nat}

/-- The marks of kernel pages. -/
theorem procMark_kernel :
    ProcMark k pid i 0 ↔ LowTablePage k.mem (k.ptable pid).pagetable i := by
  constructor
  · rintro (⟨hpage, -⟩ | ⟨va, pa, -, h | h | ⟨h, -⟩⟩)
    · exact hpage
    · omega
    · omega
    · omega
  · intro hpage
    exact Or.inl ⟨hpage, Or.inl rfl⟩

/-- The marks of pages in user mode. -/
theorem procMark_user :
    ProcMark k pid i 1 ↔ ∃ va pa, UserMaps k.mem (k.ptable pid).pagetable va pa i := by
  constructor
  · rintro (⟨-, h | h⟩ | ⟨va, pa, hmap, -⟩)
    · omega
    · omega
    · exact ⟨va, pa, hmap⟩
  · rintro ⟨va, pa, hmap⟩
    exact Or.inr ⟨va, pa, hmap, Or.inl rfl⟩

/-- Process numbers start at 1, so that no process has the flag of `f_nonidentity`. -/
theorem procMark_nonidentity (h1 : 1 ≤ pid) : ProcMark k pid i 2
    ↔ ∃ va pa, UserMaps k.mem (k.ptable pid).pagetable va pa i ∧ va ≠ pa := by
  constructor
  · rintro (⟨-, h | h⟩ | ⟨va, pa, hmap, h | h | ⟨-, hne⟩⟩)
    · omega
    · omega
    · omega
    · omega
    · exact ⟨va, pa, hmap, hne⟩
  · rintro ⟨va, pa, hmap, hne⟩
    exact Or.inr ⟨va, pa, hmap, Or.inr (Or.inr ⟨rfl, hne⟩)⟩

/-- The marks of a process. -/
theorem procMark_process {p : Nat} (h1 : 1 ≤ pid) : ProcMark k p i (pid + 2)
    ↔ p = pid ∧ (LowTablePage k.mem (k.ptable pid).pagetable i
        ∨ ∃ va pa, UserMaps k.mem (k.ptable pid).pagetable va pa i) := by
  constructor
  · rintro (⟨hpage, h | h⟩ | ⟨va, pa, hmap, h | h | ⟨h, -⟩⟩)
    · omega
    · obtain rfl : p = pid := by omega
      exact ⟨rfl, Or.inl hpage⟩
    · omega
    · obtain rfl : p = pid := by omega
      exact ⟨rfl, Or.inr ⟨va, pa, hmap⟩⟩
    · omega
  · rintro ⟨rfl, hpage | ⟨va, pa, hmap⟩⟩
    · exact Or.inl ⟨hpage, Or.inr rfl⟩
    · exact Or.inr ⟨va, pa, hmap, Or.inr (Or.inl rfl)⟩

end Flags

/-! ## The whole refresh -/

/-- The test of a flag. -/
theorem and_ne_zero_iff {m : BitVec 32} {n : Nat} (hn : n < 32) :
    m &&& BitVec.twoPow 32 n ≠ 0#32 ↔ m.getLsbD n = true := by
  rw [Ne, WordMasks.and_twoPow_eq_zero_iff m hn, Bool.not_eq_false]

/-- The marks after `refresh`, for a page below `maxpa`. -/
structure Marked (k : Kernel) (u : Usage) (i : Nat) : Prop where
  user : u.marks i &&& fUser ≠ 0#32
    ↔ ∃ pid va pa, Separate k pid ∧ UserMaps k.mem (k.ptable pid).pagetable va pa i
  process : ∀ pid : Nat, 1 ≤ pid → pid < maxNProc → (u.marks i &&& fProcess pid ≠ 0#32
    ↔ Separate k pid ∧ (LowTablePage k.mem (k.ptable pid).pagetable i
        ∨ ∃ va pa, UserMaps k.mem (k.ptable pid).pagetable va pa i))
  nonidentity : u.marks i &&& fNonidentity ≠ 0#32
    ↔ ∃ pid va pa, Separate k pid ∧ UserMaps k.mem (k.ptable pid).pagetable va pa i ∧ va ≠ pa
  kernel : u.marks i &&& fKernel ≠ 0#32
    ↔ TablePage k.mem k.kernelPagetable i
      ∨ (∃ pid, Separate k pid ∧ LowTablePage k.mem (k.ptable pid).pagetable i)
      ∨ u.v.toNat / 4096 = i

/-- The loop goes through all processes but the first. -/
theorem mem_pids {pid : Nat} : pid ∈ List.range' 1 (maxNProc - 1) ↔ 1 ≤ pid ∧ pid < maxNProc := by
  rw [List.mem_range'_1, maxNProc]

/-- The kernel's page table pages are marked. -/
theorem adds_markKernelTables {L : List Ptiter} (v : Word)
    (hL : ∀ i, ((∃ it ∈ L, (it.pa k.mem).toNat / 4096 = i) ∨ k.kernelPagetable.toNat / 4096 = i)
      ↔ TablePage k.mem k.kernelPagetable i) (u : Usage) :
    Adds u (k.markKernelTables v L u)
      (fun i b => (TablePage k.mem k.kernelPagetable i ∨ v.toNat / 4096 = i) ∧ b = 0) := by
  refine (((adds_marks k.mem fKernel L u).trans (adds_mark _ _ _)).trans (adds_mark _ _ _)).congr ?_
  intro i b
  rw [show fKernel = BitVec.twoPow 32 0 by decide, getLsbD_twoPow_iff (by omega), ← or_and_right,
    ← or_and_right, hL]

/-- All flags of a refreshed page, bit by bit. -/
theorem refresh_flags {page : Word} {u : Usage} (hkernel : PageTree k.mem k.kernelPagetable)
    (hwf : ∀ pid, Separate k pid → WellFormed k.mem (k.ptable pid).pagetable)
    (hsome : ∃ pid, Separate k pid) (hv : u.v ≠ 0#64 ∨ page ≠ 0#64) :
    ∃ u', Returns₂ (k.refresh page u) u' ∧ u'.v = (if u.v = 0#64 then page else u.v)
      ∧ ∀ i, i < 1024 → ∀ b, Flagged u' i b
          ↔ ((TablePage k.mem k.kernelPagetable i ∨ u'.v.toNat / 4096 = i) ∧ b = 0)
            ∨ ∃ pid, Separate k pid ∧ ProcMark k pid i b := by
  have hne : (if u.v = 0#64 then page else u.v) ≠ 0#64 := by
    by_cases h0 : u.v = 0#64
    · rw [if_pos h0]
      exact hv.resolve_left (fun h => h h0)
    · rw [if_neg h0]
      exact h0
  -- past the allocation and its assertion
  have hdef : ∀ inner outer, k.refresh page u inner outer
      = (visit k.mem (fun it => !it.done) k.kernelPagetable inner outer).bind fun L =>
        (k.refreshProcs inner outer (List.range' 1 (maxNProc - 1))
          (k.markKernelTables (if u.v = 0#64 then page else u.v) L
            (.cleared (if u.v = 0#64 then page else u.v)))).bind (k.refreshByOwner outer) :=
    fun _ _ => if_neg hne
  generalize (if u.v = 0#64 then page else u.v) = v at hdef ⊢
  obtain ⟨L, hL, htables⟩ := visit_all hkernel
  have hadds := adds_markKernelTables v htables (.cleared v)
  obtain ⟨u', hret, hsep, hprocs⟩ := refreshProcs_spec (fun pid h => mem_pids.mp h) hwf
    (k.markKernelTables v L (.cleared v))
  have hlast : Returns₂ (fun _ outer => k.refreshByOwner outer u') u' := by
    -- some process has its own page table, so the owners are not looked at
    obtain ⟨pid, h⟩ := hsome
    have hsep' := hsep.mpr (Or.inr ⟨pid, mem_pids.mpr ⟨h.1, h.2.1⟩, h⟩)
    refine (Returns₂.pure u').congr ?_
    intro inner outer
    rw [Kernel.refreshByOwner, if_pos hsep']
  have hv' : u'.v = v := hprocs.v.trans hadds.v
  refine ⟨u', (hL.bind (g := fun inner outer L => (k.refreshProcs inner outer
    (List.range' 1 (maxNProc - 1)) (k.markKernelTables v L (.cleared v))).bind
      (k.refreshByOwner outer)) (hret.bind hlast)).congr hdef, hv', ?_⟩
  intro i hi b
  -- `memset` has cleared all marks before the first loop
  have hzero : ¬ Flagged (.cleared v) i b := by
    rw [Flagged, Usage.cleared, BitVec.getLsbD_zero]
    exact Bool.false_ne_true
  rw [hprocs.flags i hi, hadds.flags i hi, hv', or_iff_right hzero]
  refine or_congr Iff.rfl ⟨?_, ?_⟩
  · rintro ⟨pid, -, h⟩
    exact ⟨pid, h⟩
  · rintro ⟨pid, hs, hm⟩
    exact ⟨pid, mem_pids.mpr ⟨hs.1, hs.2.1⟩, hs, hm⟩

/-- **THE MARKS ARE RIGHT**: `refresh` returns, and each flag of each tracked
    page says what it stands for. -/
theorem refresh_marked {page : Word} {u : Usage} (hkernel : PageTree k.mem k.kernelPagetable)
    (hwf : ∀ pid, Separate k pid → WellFormed k.mem (k.ptable pid).pagetable)
    (hsome : ∃ pid, Separate k pid) (hv : u.v ≠ 0#64 ∨ page ≠ 0#64) :
    ∃ u', Returns₂ (k.refresh page u) u' ∧ u'.v = (if u.v = 0#64 then page else u.v)
      ∧ ∀ i, i < 1024 → Marked k u' i := by
  obtain ⟨u', hret, hv', hflags⟩ := refresh_flags hkernel hwf hsome hv
  refine ⟨u', hret, hv', ?_⟩
  intro i hi
  -- the four flags as bits
  have huser : fUser = BitVec.twoPow 32 1 := by decide
  have hnon : fNonidentity = BitVec.twoPow 32 2 := by decide
  have hker : fKernel = BitVec.twoPow 32 0 := by decide
  constructor
  · -- the mark of a user page
    rw [huser, and_ne_zero_iff (by omega)]
    refine (hflags i hi 1).trans ?_
    constructor
    · rintro (⟨-, h⟩ | ⟨pid, hsep, hm⟩)
      · omega
      · obtain ⟨va, pa, hmap⟩ := procMark_user.mp hm
        exact ⟨pid, va, pa, hsep, hmap⟩
    · rintro ⟨pid, va, pa, hsep, hmap⟩
      exact Or.inr ⟨pid, hsep, procMark_user.mpr ⟨va, pa, hmap⟩⟩
  · -- the mark of a process
    intro pid h1 h2
    have hlt : pid < 16 := h2
    rw [fProcess_eq h1 h2, and_ne_zero_iff (by omega)]
    refine (hflags i hi (pid + 2)).trans ?_
    constructor
    · rintro (⟨-, h⟩ | ⟨p, hsep, hm⟩)
      · omega
      · obtain ⟨rfl, hpage⟩ := (procMark_process h1).mp hm
        exact ⟨hsep, hpage⟩
    · rintro ⟨hsep, hpage⟩
      exact Or.inr ⟨pid, hsep, (procMark_process h1).mpr ⟨rfl, hpage⟩⟩
  · -- the mark of a page that is mapped elsewhere
    rw [hnon, and_ne_zero_iff (by omega)]
    refine (hflags i hi 2).trans ?_
    constructor
    · rintro (⟨-, h⟩ | ⟨pid, hsep, hm⟩)
      · omega
      · obtain ⟨va, pa, hmap, hne⟩ := (procMark_nonidentity hsep.1).mp hm
        exact ⟨pid, va, pa, hsep, hmap, hne⟩
    · rintro ⟨pid, va, pa, hsep, hmap, hne⟩
      exact Or.inr ⟨pid, hsep, (procMark_nonidentity hsep.1).mpr ⟨va, pa, hmap, hne⟩⟩
  · -- the mark of the kernel, which also comes from its own table and from the viewer
    rw [hker, and_ne_zero_iff (by omega)]
    refine (hflags i hi 0).trans ?_
    constructor
    · rintro (⟨hpage | hpage, -⟩ | ⟨pid, hsep, hm⟩)
      · exact Or.inl hpage
      · exact Or.inr (Or.inr hpage)
      · exact Or.inr (Or.inl ⟨pid, hsep, procMark_kernel.mp hm⟩)
    · rintro (hpage | ⟨pid, hsep, hpage⟩ | hpage)
      · exact Or.inl ⟨Or.inl hpage, rfl⟩
      · exact Or.inr ⟨pid, hsep, procMark_kernel.mpr hpage⟩
      · exact Or.inl ⟨Or.inr hpage, rfl⟩

/-- One process on `smallTable`, beside an empty kernel page table. -/
def smallKernel : Kernel where
  mem := smallTable
  kernelPagetable := 0x6000#64
  ptable pid := if pid = 1 then { pagetable := 0x1000#64, state := .runnable }
    else { pagetable := 0#64, state := .free }
  used _ := false

/-- A page without entries is a page table. -/
theorem emptyTable_pageTree : PageTree smallTable 0x6000#64 := by
  have hchild : ∀ i c, i < 512 → child smallTable 0x6000#64 i ≠ some c := by
    intro i c hi hc
    rcases smallTable_child (show PageAligned 0x6000#64 from rfl) hi hc with ⟨h, -⟩ | ⟨h, -⟩ | ⟨h, -⟩ | ⟨h, -⟩ <;>
      exact absurd h (by decide)
  refine ⟨rfl, isTree_of_unique_parent (child smallTable) (fun t => t = 0x6000#64) rfl ?_ ?_⟩
  · rintro t i c rfl hi hc
    exact absurd hc (hchild i c hi)
  · rintro t t' i i' c rfl - hi - hc -
    exact absurd hc (hchild i c hi)

/-- The small kernel has one process with a page table of its own. -/
theorem smallKernel_separate {pid : Nat} (h : Separate smallKernel pid) : pid = 1 := by
  by_contra hpid
  refine h.2.2.1 ?_
  rw [show smallKernel.ptable pid = { pagetable := 0#64, state := .free } from if_neg hpid]

theorem refresh_marked_small :
    ∃ u', Returns₂ (smallKernel.refresh 0x7000#64 (.cleared 0#64)) u' ∧ u'.v = 0x7000#64
      ∧ ∀ i, i < 1024 → Marked smallKernel u' i := by
  refine refresh_marked emptyTable_pageTree ?_
    ⟨1, by decide, by decide, by decide, by decide, by decide⟩ (Or.inr (by decide))
  intro pid h
  rw [smallKernel_separate h]
  exact smallTable_wellFormed

end MemRefresh
