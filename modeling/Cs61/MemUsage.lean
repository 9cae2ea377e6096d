import Cs61.PtVisit
import Cs61.VmRanges

/-! # `memusage` — who uses which physical page

    `memusage::refresh` marks physical pages with flags.  It walks the pages of
    the kernel page table with a `ptiter`, and for each process with a page
    table of its own the lower-half page-table pages with a bounded `ptiter`
    and the user mappings with a `vmiter`.

    The array `v_` lies in a page of its own, outside every page table, and is
    kept apart from the memory that the iterators read. -/

namespace MemUsage

open PageTable PostOrder VmIter WordMasks VmWalk VmQueries LoopRules Tilings VmRanges
open PtIter PtVisit
open Vmiter (lbitsMask doneLbits)

/-! ## The kernel state -/

/-- The state of a process, as far as `refresh` looks at it. -/
inductive ProcState where
  | free
  | runnable
  | blocked
  | faulted
deriving DecidableEq

/-- An entry of the process table: what `refresh` reads of it, and no registers. In this
    file a process may have a page table of its own; `PhysPages.Proc` is the entry under
    `kernel.cc`, and `ViewerRuns.viewed` is this view of it. -/
structure Proc where
  pagetable : Word
  state : ProcState

/-- `MAXNPROC`. -/
def maxNProc : Nat := 16
/-- `PROC_START_ADDR`. -/
def procStartAddr : Word := 0x100000#64
/-- `MEMSIZE_PHYSICAL`. -/
def memsizePhysical : Word := 0x200000#64

/-- What `refresh` reads of the kernel: memory, page tables, and which physical
    pages are used. -/
structure Kernel where
  mem : Mem
  kernelPagetable : Word
  ptable : Nat → Proc
  used : Nat → Bool

/-! ## The usage map -/

/-- `maxpa`: physical addresses are tracked below it. -/
def maxPa : Word := 0x400000#64

/-- `f_kernel`. -/
def fKernel : BitVec 32 := 1#32
/-- `f_user`. -/
def fUser : BitVec 32 := 2#32
/-- `f_nonidentity`. -/
def fNonidentity : BitVec 32 := 4#32

/-- `f_process(pid)`. -/
def fProcess (pid : Int) : BitVec 32 :=
  if 29 ≤ pid then 4#32 <<< 31
  else if 1 ≤ pid then 4#32 <<< pid.toNat
  else 0#32

/-- The pointer `v_`, the array behind it, and `separate_tables_`. -/
structure Usage where
  v : Word
  marks : Nat → BitVec 32
  separateTables : Bool

/-- After `memset(v_, 0, ...)`, with `separate_tables_` not yet set. -/
def Usage.cleared (v : Word) : Usage :=
  { v := v, marks := fun _ => 0#32, separateTables := false }

/-- `mark(pa, flags)`. -/
def Usage.mark (u : Usage) (pa : Word) (flags : BitVec 32) : Usage :=
  if pa < maxPa then
    { u with
      marks := Function.update u.marks (pa.toNat / 4096) (u.marks (pa.toNat / 4096) ||| flags) }
  else u

/-- `for (vmiter it(pt, 0); it.va() < VA_LOWEND; )`, where the body moves with
    `next` if it selects the iterator, and with `next_range` otherwise. -/
def scan (mem : Mem) (pt : Word) (selects : Vmiter → Bool) (fuel : Nat) : Option (List Vmiter) :=
  match Vmiter.new mem pt 0#64 with
  | .error _ => none
  | .ok it =>
      collect (fun it => decide (it.va < vaLowEnd))
        (fun it => (if selects it = true then it.next mem else it.nextRange mem).toOption) fuel it

/-- The body of the loop over the user mappings of a process. -/
def Usage.markUser (mem : Mem) (pidflag : BitVec 32) (u : Usage) (it : Vmiter) : Usage :=
  if it.user mem = true then
    if it.va = it.pa mem then u.mark (it.pa mem) (fUser ||| pidflag)
    else u.mark (it.pa mem) (fUser ||| fNonidentity ||| pidflag)
  else u

/-- `p->state != P_FREE && p->pagetable && p->pagetable != kernel_pagetable`. -/
def Kernel.separate (k : Kernel) (pid : Nat) : Bool :=
  (k.ptable pid).state != .free && (k.ptable pid).pagetable != 0#64
    && (k.ptable pid).pagetable != k.kernelPagetable

/-- Mark the page-table pages of process `pid` that a loop visited, and the root. -/
def Kernel.markProcTables (k : Kernel) (pid : Nat) (L : List Ptiter) (u : Usage) : Usage :=
  (L.foldl (fun (u : Usage) it => u.mark (it.pa k.mem) (fKernel ||| fProcess pid)) u).mark
    (k.ptable pid).pagetable (fKernel ||| fProcess pid)

/-- Mark the user mappings of process `pid`. -/
def Kernel.markProcUsers (k : Kernel) (outer pid : Nat) (u : Usage) : Option Usage :=
  (scan k.mem (k.ptable pid).pagetable (Vmiter.user k.mem) outer).map fun L =>
    L.foldl (Usage.markUser k.mem (fProcess pid)) u

/-- The loop body of `refresh` for one process. -/
def Kernel.refreshProc (k : Kernel) (inner outer pid : Nat) (u : Usage) : Option Usage :=
  if k.separate pid = true then
    (visit k.mem (fun it => decide (it.baseVa < vaLowEnd)) (k.ptable pid).pagetable
      inner outer).bind fun L =>
    k.markProcUsers outer pid (k.markProcTables pid L { u with separateTables := true })
  else some u

/-- `for (int pid = 1; pid < MAXNPROC; ++pid)`, over a list of process ids. -/
def Kernel.refreshProcs (k : Kernel) (inner outer : Nat) : List Nat → Usage → Option Usage
  | [], u => some u
  | pid :: pids, u => (k.refreshProc inner outer pid u).bind (k.refreshProcs inner outer pids)

/-- A used page that is user-accessible through the kernel page table. -/
def Kernel.owned (k : Kernel) (it : Vmiter) : Bool :=
  it.user k.mem && decide (it.pa k.mem < memsizePhysical) && k.used ((it.pa k.mem).toNat / 4096)

/-- The body of the loop that goes by physical address. -/
def Kernel.markOwned (k : Kernel) (u : Usage) (it : Vmiter) : Usage :=
  if k.owned it = true then
    let owner := ((it.pa k.mem - procStartAddr) / 0x40000#64).setWidth 32
    u.mark (it.pa k.mem) (fUser ||| fProcess (owner + 1#32).toInt)
  else u

/-- If no process has a page table of its own, mark by physical address instead. -/
def Kernel.refreshByOwner (k : Kernel) (outer : Nat) (u : Usage) : Option Usage :=
  if u.separateTables = true then some u
  else (scan k.mem k.kernelPagetable k.owned outer).map fun L => L.foldl k.markOwned u

/-- Mark the page-table pages of the kernel that a loop visited, the root, and `v_`. -/
def Kernel.markKernelTables (k : Kernel) (v : Word) (L : List Ptiter) (u : Usage) : Usage :=
  ((L.foldl (fun (u : Usage) it => u.mark (it.pa k.mem) fKernel) u).mark
    k.kernelPagetable fKernel).mark v fKernel

/-- `refresh()`; `page` is what `kalloc` returns if `v_` is not yet allocated. -/
def Kernel.refresh (k : Kernel) (page : Word) (u : Usage) (inner outer : Nat) : Option Usage :=
  let v := if u.v = 0#64 then page else u.v
  if v = 0#64 then none
  else
    (visit k.mem (fun it => !it.done) k.kernelPagetable inner outer).bind fun L =>
    (k.refreshProcs inner outer (List.range' 1 (maxNProc - 1))
      (k.markKernelTables v L (.cleared v))).bind (k.refreshByOwner outer)

/-! ## What the flags mean -/

/-- Process `pid` has a page table of its own. -/
def Separate (k : Kernel) (pid : Nat) : Prop :=
  1 ≤ pid ∧ pid < maxNProc ∧ (k.ptable pid).state ≠ .free
    ∧ (k.ptable pid).pagetable ≠ 0#64 ∧ (k.ptable pid).pagetable ≠ k.kernelPagetable

/-- Page table `pt` maps `va`, in the lower half, user-accessibly to physical page `i`. -/
def UserMaps (mem : Mem) (pt va pa : Word) (i : Nat) : Prop :=
  va.toNat < 2 ^ 47 ∧ ∃ w, Vmiter.new mem pt va = .ok w ∧ w.user mem = true ∧ w.pa mem = pa
    ∧ pa.toNat / 4096 = i

/-- Page `i` is the root or a lower-half page-table page of `pt`. -/
def LowTablePage (mem : Mem) (pt : Word) (i : Nat) : Prop :=
  pt.toNat / 4096 = i
    ∨ ∃ q j t, j < 256 ∧ IsPath 512 2 q ∧ table mem pt (q ++ [j]) = some t ∧ t.toNat / 4096 = i

/-- Page `i` is a page-table page of `pt`. -/
def TablePage (mem : Mem) (pt : Word) (i : Nat) : Prop :=
  ∃ p t, IsPath 512 3 p ∧ table mem pt p = some t ∧ t.toNat / 4096 = i

/-! ## Marks -/

/-- Bit `b` of the mark of page `i`. -/
def Flagged (u : Usage) (i b : Nat) : Prop := (u.marks i).getLsbD b = true

section Marks

variable {i b : Nat}

/-- A mark sets the flags of its page. -/
theorem flagged_mark (hi : i < 1024) (u : Usage) (pa : Word) (flags : BitVec 32) :
    Flagged (u.mark pa flags) i b ↔ Flagged u i b ∨ (pa.toNat / 4096 = i ∧ flags.getLsbD b = true) := by
  rw [Usage.mark]
  by_cases hlt : pa < maxPa
  · rw [if_pos hlt, Flagged, Flagged]
    dsimp only
    by_cases hpage : pa.toNat / 4096 = i
    · subst hpage
      rw [Function.update_self, BitVec.getLsbD_or, Bool.or_eq_true]
      exact ⟨fun h => h.imp_right (fun hf => ⟨rfl, hf⟩), fun h => h.imp_right (fun hf => hf.2)⟩
    · rw [Function.update_of_ne (fun heq => hpage heq.symm)]
      exact ⟨Or.inl, fun h => h.resolve_right (fun hf => hpage hf.1)⟩
  · -- addresses that are not tracked are in no tracked page
    rw [if_neg hlt]
    rw [BitVec.lt_def, show maxPa.toNat = 0x400000 from rfl] at hlt
    exact ⟨Or.inl, fun h => h.resolve_right (fun hf => by omega)⟩

/-- A loop whose body marks for each element. -/
theorem flagged_foldl {α : Type} {step : Usage → α → Usage} {P : α → Prop}
    (hstep : ∀ u x, Flagged (step u x) i b ↔ Flagged u i b ∨ P x) (L : List α) (u : Usage) :
    Flagged (L.foldl step u) i b ↔ Flagged u i b ∨ ∃ x ∈ L, P x := by
  induction L generalizing u with
  | nil =>
      refine ⟨Or.inl, ?_⟩
      rintro (h | ⟨x, hx, -⟩)
      · exact h
      · cases hx
  | cons x L ih =>
      rw [List.foldl_cons, ih, hstep]
      constructor
      · rintro ((h | hx) | ⟨y, hy, hP⟩)
        · exact Or.inl h
        · exact Or.inr ⟨x, List.mem_cons_self, hx⟩
        · exact Or.inr ⟨y, List.mem_cons_of_mem _ hy, hP⟩
      · rintro (h | ⟨y, hy, hP⟩)
        · exact Or.inl (Or.inl h)
        · rcases List.mem_cons.mp hy with rfl | hy
          · exact Or.inl (Or.inr hP)
          · exact Or.inr ⟨y, hy, hP⟩

/-- What the user loop marks for an iterator. -/
def userFlags (va pa : Word) (pidflag : BitVec 32) : BitVec 32 :=
  if va = pa then fUser ||| pidflag else fUser ||| fNonidentity ||| pidflag

/-- A page that user mode can reach is marked for it. -/
theorem flagged_markUser (hi : i < 1024) (mem : Mem) (pidflag : BitVec 32) (u : Usage)
    (it : Vmiter) :
    Flagged (u.markUser mem pidflag it) i b
      ↔ Flagged u i b ∨ (it.user mem = true ∧ (it.pa mem).toNat / 4096 = i
          ∧ (userFlags it.va (it.pa mem) pidflag).getLsbD b = true) := by
  rw [Usage.markUser, userFlags]
  by_cases hu : it.user mem = true
  · rw [if_pos hu]
    by_cases hva : it.va = it.pa mem
    · rw [if_pos hva, if_pos hva, flagged_mark hi]
      exact ⟨fun h => h.imp_right (fun hf => ⟨hu, hf⟩), fun h => h.imp_right (fun hf => hf.2)⟩
    · rw [if_neg hva, if_neg hva, flagged_mark hi]
      exact ⟨fun h => h.imp_right (fun hf => ⟨hu, hf⟩), fun h => h.imp_right (fun hf => hf.2)⟩
  · rw [if_neg hu]
    exact ⟨Or.inl, fun h => h.resolve_right (fun hf => hu hf.1)⟩

end Marks

/-! ## Fields that marking keeps -/

@[simp] theorem mark_v (u : Usage) (pa : Word) (f : BitVec 32) : (u.mark pa f).v = u.v := by
  rw [Usage.mark]
  split <;> rfl

@[simp] theorem mark_separateTables (u : Usage) (pa : Word) (f : BitVec 32) :
    (u.mark pa f).separateTables = u.separateTables := by
  rw [Usage.mark]
  split <;> rfl

@[simp] theorem markUser_v (mem : Mem) (f : BitVec 32) (u : Usage) (it : Vmiter) :
    (u.markUser mem f it).v = u.v := by
  rw [Usage.markUser]
  split
  · split <;> exact mark_v _ _ _
  · rfl

@[simp] theorem markUser_separateTables (mem : Mem) (f : BitVec 32) (u : Usage) (it : Vmiter) :
    (u.markUser mem f it).separateTables = u.separateTables := by
  rw [Usage.markUser]
  split
  · split <;> exact mark_separateTables _ _ _
  · rfl

/-- What no pass changes the loop does not change. -/
theorem foldl_keeps {α β : Type} {step : Usage → α → Usage} (f : Usage → β)
    (h : ∀ u x, f (step u x) = f u) (L : List α) (u : Usage) : f (L.foldl step u) = f u := by
  induction L generalizing u with
  | nil => rfl
  | cons x L ih => rw [List.foldl_cons, ih, h]

/-! ## The loop over the user mappings -/

section Scan

variable {mem : Mem} {pt : Word} {sel : Vmiter → Bool}

/-- Where the loop goes from an iterator: to the next page, or over the range. -/
def scanStop (sel : Vmiter → Bool) (it : Vmiter) : Nat :=
  if sel it = true then 4096 * (it.va.toNat / 4096 + 1) else rangeStop it

/-- The states of the loop: walked iterators at page-aligned addresses. -/
def Scanned (mem : Mem) (pt : Word) (it : Vmiter) : Prop :=
  Walked mem pt it ∧ PageAligned it.va

/-- The lower half of virtual memory. -/
theorem low_iff_lt (va : Word) : va < vaLowEnd ↔ va.toNat < 2 ^ 47 := by
  rw [BitVec.lt_def, vaLowEnd, BitVec.toNat_ofNat]
  omega

/-- A walked iterator at a low address is on a path. -/
theorem onPath_of_low {it : Vmiter} (hw : Walked mem pt it) (hlow : it.va.toNat < 2 ^ 47) :
    ∃ d, OnPath mem pt d it ∧ it.descends mem = false := by
  rcases hw with h | hoff
  · exact h
  · have hnc := hoff.noncanonical
    rw [Bool.eq_false_iff, Ne, vaIsCanonical_iff] at hnc
    exact absurd (Or.inl hlow) hnc

/-- A range of the lower half covers the page it starts in, and ends in the lower half. -/
theorem rangeStop_low {d : Nat} {it : Vmiter} (h : OnPath mem pt d it)
    (hlow : it.va.toNat < 2 ^ 47) :
    4096 * (it.va.toNat / 4096 + 1) ≤ rangeStop it ∧ rangeStop it ≤ 2 ^ 47
      ∧ rangeStop it % 4096 = 0 := by
  have hle := lbitsAt_le d
  obtain ⟨k, hk⟩ : ∃ k, lbitsAt d = 12 + k := ⟨(3 - d) * pageIndexBits, rfl⟩
  have hsplit : 2 ^ lbitsAt d = 4096 * 2 ^ k := by rw [hk, Nat.pow_add]
  have hdiv : it.va.toNat / 2 ^ lbitsAt d = it.va.toNat / 4096 / 2 ^ k := by
    rw [hsplit, Nat.div_div_eq_div_mul]
  rw [onPath_rangeStop h, hdiv, hsplit, Nat.mul_assoc]
  refine ⟨?_, ?_, Nat.mul_mod_right _ _⟩
  · refine Nat.mul_le_mul_left _ (Nat.succ_le_of_lt ?_)
    exact Nat.lt_mul_div_succ _ (Nat.two_pow_pos k)
  · have hpow : 2 ^ 47 = 4096 * (2 ^ k * 2 ^ (35 - k)) := by
      rw [← Nat.pow_add, Nat.add_sub_cancel' (by omega)]
      rfl
    rw [hpow]
    refine Nat.mul_le_mul_left _ (Nat.mul_le_mul_left _ (Nat.succ_le_of_lt ?_))
    refine Nat.div_lt_of_lt_mul (Nat.div_lt_of_lt_mul ?_)
    rw [← hpow]
    exact hlow

/-- `next` goes to the next page where permissions are not 0. -/
theorem next_page {it : Vmiter} (hroot : PageAligned pt) (hlow : PhysLow mem pt)
    (hw : Walked mem pt it) (hva : it.va.toNat < 2 ^ 47) (hperm : it.perms mem ≠ 0#64) :
    ∃ it', it.next mem = .ok it' ∧ Walked mem pt it'
      ∧ it'.va.toNat = 4096 * (it.va.toNat / 4096 + 1) := by
  have hnext : ((it.va ||| lbitsMask 12) + 1#64).toNat = 4096 * (it.va.toNat / 4096 + 1) := by
    rw [toNat_or_lbitsMask_succ it.va (by omega)]
    omega
  -- `next` steps over a whole entry only where there are no permissions
  have hlb : (if (decide (pageOffBits < it.lbits) && it.perms mem == 0#64) = true then it.lbits
      else pageOffBits) = 12 := by
    rw [beq_eq_false_iff_ne.mpr hperm, Bool.and_false, if_neg Bool.false_ne_true]
    rfl
  -- a low address does not wrap around
  have hne : (true && ((it.va ||| lbitsMask 12) + 1#64) == 0#64) = false := by
    rw [Bool.true_and, beq_eq_false_iff_ne]
    intro h0
    rw [h0, show (0#64).toNat = 0 from rfl] at hnext
    omega
  refine ⟨fresh mem pt ((it.va ||| lbitsMask 12) + 1#64), ?_, (fresh_walked hroot _).1, ?_⟩
  · rw [Vmiter.next]
    simp only [hlb]
    rw [findImpl_eq hroot (Or.inl hw) hne]
    exact new_ok hroot hlow _
  · rw [fresh_va hroot]
    exact hnext

/-- One pass of the loop. -/
theorem scan_step (hroot : PageAligned pt) (hphys : PhysLow mem pt)
    (hsel : ∀ it, sel it = true → it.perms mem ≠ 0#64) {it : Vmiter} (h : Scanned mem pt it)
    (hc : decide (it.va < vaLowEnd) = true) :
    rangeStart it < scanStop sel it ∧ scanStop sel it ≤ 2 ^ 47
      ∧ ∃ it', (if sel it = true then it.next mem else it.nextRange mem).toOption = some it'
        ∧ ((scanStop sel it = 2 ^ 47 ∧ decide (it'.va < vaLowEnd) = false)
          ∨ (scanStop sel it < 2 ^ 47 ∧ decide (it'.va < vaLowEnd) = true ∧ Scanned mem pt it'
              ∧ rangeStart it' = scanStop sel it)) := by
  obtain ⟨hw, hal⟩ := h
  rw [decide_eq_true_iff, low_iff_lt] at hc
  obtain ⟨d, hon, -⟩ := onPath_of_low hw hc
  obtain ⟨hpage, hend, hmul⟩ := rangeStop_low hon hc
  -- wherever the loop goes, it goes to a page-aligned address up to 2^47
  have hgo : ∀ it', Walked mem pt it' → it'.va.toNat = scanStop sel it →
      scanStop sel it % 4096 = 0 → scanStop sel it ≤ 2 ^ 47 →
      (scanStop sel it = 2 ^ 47 ∧ decide (it'.va < vaLowEnd) = false)
        ∨ (scanStop sel it < 2 ^ 47 ∧ decide (it'.va < vaLowEnd) = true ∧ Scanned mem pt it'
            ∧ rangeStart it' = scanStop sel it) := by
    intro it' hw' hva' hal' hle'
    rw [decide_eq_false_iff_not, decide_eq_true_iff, low_iff_lt, hva']
    rcases Nat.lt_or_eq_of_le hle' with hlt | heq
    · refine Or.inr ⟨hlt, hlt, ⟨hw', ?_⟩, hva'⟩
      rw [PageAligned, hva']
      exact hal'
    · exact Or.inl ⟨heq, by omega⟩
  rw [rangeStart]
  by_cases hs : sel it = true
  · -- `it.next()`
    have hstop : scanStop sel it = 4096 * (it.va.toNat / 4096 + 1) := if_pos hs
    obtain ⟨it', hnext, hw', hva'⟩ := next_page hroot hphys hw hc (hsel it hs)
    refine ⟨by omega, by omega, it', by rw [if_pos hs, hnext]; rfl, ?_⟩
    exact hgo it' hw' (by omega) (by omega) (by omega)
  · -- `it.next_range()`
    have hstop : scanStop sel it = rangeStop it := if_neg hs
    obtain ⟨it', hnext, hcase⟩ := Walked.nextRange hroot hphys hw
    refine ⟨by omega, by omega, it', by rw [if_neg hs, hnext]; rfl, ?_⟩
    rcases hcase with ⟨h64, -⟩ | ⟨-, hw', hva'⟩
    · omega
    · rw [rangeStart] at hva'
      exact hgo it' hw' (by omega) (by omega) (by omega)

/-- The loop ends, and its steps tile the lower half. -/
theorem scan_tiles (hwf : WellFormed mem pt)
    (hsel : ∀ it, sel it = true → it.perms mem ≠ 0#64) :
    ∃ L, Returns (scan mem pt sel) L ∧ Tiles rangeStart (scanStop sel) (2 ^ 47) 0 L
      ∧ ∀ it ∈ L, Scanned mem pt it := by
  obtain ⟨hw, hva⟩ : Walked mem pt (fresh mem pt 0#64) ∧ _ := fresh_walked hwf.aligned 0#64
  have hstart : Scanned mem pt (fresh mem pt 0#64) := by
    refine ⟨hw, ?_⟩
    rw [PageAligned, hva]
    rfl
  obtain ⟨L, hret, htiles, hall⟩ := collect_tiles (Scanned mem pt)
    (fun it h hc => scan_step hwf.aligned hwf.low hsel h hc) _ hstart (by rw [hva]; rfl)
  rw [rangeStart, hva] at htiles
  refine ⟨L, hret.congr ?_, htiles, hall⟩
  intro fuel
  rw [scan, new_ok hwf.aligned hwf.low]

/-! ## User mappings -/

/-- The test for user mode. -/
theorem user_iff (mem : Mem) (it : Vmiter) :
    it.user mem = true ↔ it.perms mem &&& (pteP ||| pteU) = pteP ||| pteU := by
  rw [Vmiter.user, Vmiter.hasPerm, beq_iff_eq]

/-- A page for user mode has permissions. -/
theorem perms_of_user {it : Vmiter} (h : it.user mem = true) : it.perms mem ≠ 0#64 := by
  intro h0
  rw [user_iff, h0] at h
  exact absurd h (by decide)

/-- It is present. -/
theorem present_of_user {it : Vmiter} (h : it.user mem = true) : it.present mem = true := by
  rw [user_iff] at h
  have hp : (pteP ||| pteU) &&& pteP = pteP := by decide
  rw [Vmiter.present, Vmiter.hasPerm, beq_iff_eq]
  calc it.perms mem &&& pteP
      = it.perms mem &&& ((pteP ||| pteU) &&& pteP) := by rw [hp]
    _ = it.perms mem &&& (pteP ||| pteU) &&& pteP := by rw [BitVec.and_assoc]
    _ = pteP := by rw [h, hp]

/-- At a page-aligned address the physical address is page-aligned. -/
theorem pageAligned_pa {d : Nat} {it : Vmiter} (h : OnPath mem pt d it) (hal : PageAligned it.va)
    (hp : it.present mem = true) : PageAligned (it.pa mem) := by
  have hle := lbitsAt_le d
  have hal' : it.va.toNat % 4096 = 0 := hal
  -- neither the frame nor the offset within the page has a bit below 12
  have hframe : (frame (it.pep.read mem) it.lbits).toNat % 4096 = 0 := by
    by_cases hl : pageOffBits < it.lbits
    · rw [frame_large _ hl]
      omega
    · rw [frame, if_neg hl, toNat_and_paMask]
      omega
  have hoff : it.va.toNat % 2 ^ lbitsAt d % 4096 = 0 := by
    rw [Nat.mod_mod_of_dvd _ ⟨2 ^ ((3 - d) * pageIndexBits), by rw [lbitsAt, Nat.pow_add]; rfl⟩]
    exact hal'
  rw [onPath_present_iff h] at hp
  rw [PageAligned, onPath_pa h, if_pos hp, BitVec.toNat_add, h.lbits,
    toNat_and_lbitsMask _ (by omega)]
  rw [h.lbits] at hframe
  omega

/-- An address of a page that the loop selected: the same physical page, and
    identity-mapped when the page is. -/
theorem user_page (hwf : WellFormed mem pt) {it : Vmiter} (h : Scanned mem pt it)
    (hlow : it.va.toNat < 2 ^ 47) (hu : it.user mem = true) {va : Word}
    (hstart : it.va.toNat ≤ va.toNat) (hstop : va.toNat < 4096 * (it.va.toNat / 4096 + 1)) :
    (fresh mem pt va).user mem = true
      ∧ ((fresh mem pt va).pa mem).toNat / 4096 = (it.pa mem).toNat / 4096
      ∧ (va = (fresh mem pt va).pa mem ↔ it.va = it.pa mem) := by
  obtain ⟨hw, hal⟩ := h
  obtain ⟨d, hon, -⟩ := onPath_of_low hw hlow
  have hpres := present_of_user hu
  have hpa : (it.pa mem).toNat % 4096 = 0 := pageAligned_pa hon hal hpres
  have hal' : it.va.toNat % 4096 = 0 := hal
  have hpage := (rangeStop_low hon hlow).1
  obtain ⟨hpa', hperms⟩ :=
    (Walked.uniform_fresh hwf.aligned hwf.low hw hstart (by omega)).1 hpres
  refine ⟨?_, ?_, ?_⟩
  · rw [user_iff, hperms, ← user_iff]
    exact hu
  · have hlt := (it.pa mem).isLt
    rw [hpa', BitVec.toNat_add, BitVec.toNat_sub]
    omega
  · rw [hpa']
    constructor
    · intro heq
      have hva : it.va + (va - it.va) = it.pa mem + (va - it.va) := by
        rw [BitVec.add_comm, BitVec.sub_add_cancel]
        exact heq
      exact (BitVec.add_left_inj _).mp hva
    · intro heq
      rw [← heq, BitVec.add_comm, BitVec.sub_add_cancel]

/-- **THE USER LOOP** marks what the lower half maps user-accessibly. -/
theorem scan_user (hwf : WellFormed mem pt) :
    ∃ L, Returns (scan mem pt (Vmiter.user mem)) L ∧ ∀ (i : Nat) (X : Prop → Prop),
      (∃ it ∈ L, it.user mem = true ∧ (it.pa mem).toNat / 4096 = i ∧ X (it.va = it.pa mem))
        ↔ ∃ va pa, UserMaps mem pt va pa i ∧ X (va = pa) := by
  obtain ⟨L, hret, htiles, hall⟩ := scan_tiles hwf (fun _ => perms_of_user)
  refine ⟨L, hret, ?_⟩
  intro i X
  constructor
  · -- what the loop marks is mapped
    rintro ⟨it, hit, hu, hpage, hX⟩
    have hrange := htiles.mem_range it hit
    have hfresh := (hall it hit).1.eq_fresh hwf.aligned
    refine ⟨it.va, it.pa mem, ⟨?_, it, ?_, hu, rfl, hpage⟩, hX⟩
    · rw [rangeStart] at hrange
      omega
    · rw [new_ok hwf.aligned hwf.low, ← hfresh]
  · -- what is mapped is in one of the ranges
    rintro ⟨va, pa, ⟨hva, w, hw, hu, rfl, hpage⟩, hX⟩
    obtain rfl := Except.ok.inj ((new_ok hwf.aligned hwf.low va).symm.trans hw)
    obtain ⟨it, hit, hstart, hstop⟩ := htiles.covers (Nat.zero_le va.toNat) hva
    have hscan := hall it hit
    rw [rangeStart] at hstart
    have hlow : it.va.toNat < 2 ^ 47 := by omega
    by_cases hs : it.user mem = true
    · rw [scanStop, if_pos hs] at hstop
      obtain ⟨-, hsame, hident⟩ := user_page hwf hscan hlow hs hstart hstop
      refine ⟨it, hit, hs, hsame.symm.trans hpage, ?_⟩
      rw [← propext hident]
      exact hX
    · -- a range that the loop skips has no user mapping
      rw [scanStop, if_neg hs] at hstop
      obtain ⟨hpres, habs⟩ := Walked.uniform_fresh hwf.aligned hwf.low hscan.1 hstart hstop
      cases hp : it.present mem with
      | true =>
          rw [user_iff, (hpres hp).2, ← user_iff] at hu
          exact absurd hu hs
      | false => exact absurd (habs hp) (perms_of_user hu)

end Scan

/-! ## The loops over page-table pages -/

section Tables

variable {mem : Mem} {pt : Word}

/-- The loop over all page-table pages, and the root. -/
theorem visit_all (htree : PageTree mem pt) :
    ∃ L, Returns₂ (visit mem (fun it => !it.done) pt) L ∧ ∀ i,
      ((∃ it ∈ L, (it.pa mem).toNat / 4096 = i) ∨ pt.toNat / 4096 = i) ↔ TablePage mem pt i := by
  obtain ⟨it, L, hL, hpages, hret⟩ := exists_visits mem htree.aligned
  have hall := hret (fun it => !it.done) (fun it hl _ => by rw [Ptiter.done, hl]; rfl)
  rw [hL.takeWhile_not_done] at hall
  refine ⟨L, hall, ?_⟩
  intro i
  constructor
  · rintro (⟨v, hv, hpage⟩ | hroot)
    · obtain ⟨-, e, hat, ht⟩ := hL.member v hv
      exact ⟨_, _, (isPath_vaPath _ _).mono (by have := hat.depth; omega), ht, hpage⟩
    · exact ⟨[], pt, IsPath.nil 3, rfl, hroot⟩
  · rintro ⟨p, t, hp, ht, hpage⟩
    by_cases hnil : p = []
    · subst hnil
      obtain rfl := Option.some.inj ht
      exact Or.inr hpage
    · have hmem : t ∈ pages mem L := by
        rw [hpages, mem_below]
        exact ⟨p, hnil, hp, ht⟩
      obtain ⟨v, hv, rfl⟩ := List.mem_map.mp hmem
      exact Or.inl ⟨v, hv, hpage⟩

/-- The loop ends at the upper half. -/
theorem baseVa_low_iff {d : Nat} {it : Ptiter} (h : At mem pt d it) :
    decide (it.baseVa < vaLowEnd) = true ↔ it.va.toNat < 2 ^ 47 := by
  have hle := lbitsAt_le d
  have hpow : 2 ^ 47 = 2 ^ lbitsAt d * 2 ^ (47 - lbitsAt d) := by
    rw [← Nat.pow_add, Nat.add_sub_cancel' (by omega)]
  rw [decide_eq_true_iff, low_iff_lt, Ptiter.baseVa, h.lbits, lbitsMask_eq (by omega),
    toNat_and_not_lowMask]
  constructor
  · intro hlt
    rw [hpow] at hlt ⊢
    have hq := Nat.lt_of_mul_lt_mul_left hlt
    rw [Nat.mul_comm]
    exact (Nat.div_lt_iff_lt_mul (Nat.two_pow_pos _)).mp hq
  · intro hlt
    exact Nat.lt_of_le_of_lt (Nat.mul_div_le _ _) hlt

/-- The loop over the lower half, and the root. -/
theorem visit_low (htree : PageTree mem pt) :
    ∃ L, Returns₂ (visit mem (fun it => decide (it.baseVa < vaLowEnd)) pt) L ∧ ∀ i,
      ((∃ it ∈ L, (it.pa mem).toNat / 4096 = i) ∨ pt.toNat / 4096 = i)
        ↔ LowTablePage mem pt i := by
  obtain ⟨it, L, hL, hpages, hret⟩ := exists_visits mem htree.aligned
  refine ⟨_, hret _ ?_, ?_⟩
  · -- a shift by 64 is a shift by 0, so `va()` of a finished iterator is `va_`
    intro it hl hhigh
    rw [decide_eq_false_iff_not, low_iff_lt, Ptiter.baseVa, hl,
      show ~~~lbitsMask doneLbits = BitVec.allOnes 64 by decide, BitVec.and_allOnes]
    omega
  · intro i
    have hlow : ∀ v ∈ L, decide (v.baseVa < vaLowEnd) = true ↔ v.va.toNat < 2 ^ 47 := by
      intro v hv
      obtain ⟨-, e, hat, -⟩ := hL.member v hv
      exact baseVa_low_iff hat
    have hmem := fun t : Word => hL.mem_low (t := t) htree hpages hlow
    constructor
    · rintro (⟨v, hv, hpage⟩ | hroot)
      · obtain ⟨q, j, hj, hq, ht⟩ := (hmem (v.pa mem)).mp (List.mem_map_of_mem hv)
        exact Or.inr ⟨q, j, _, hj, hq, ht, hpage⟩
      · exact Or.inl hroot
    · rintro (hroot | ⟨q, j, t, hj, hq, ht, hpage⟩)
      · exact Or.inr hroot
      · obtain ⟨v, hv, rfl⟩ := List.mem_map.mp ((hmem t).mpr ⟨q, j, hj, hq, ht⟩)
        exact Or.inl ⟨v, hv, hpage⟩

end Tables

/-! ## One process -/

/-- A flag is one bit. -/
theorem getLsbD_twoPow_iff {k b : Nat} (hk : k < 32) :
    (BitVec.twoPow 32 k).getLsbD b = true ↔ b = k := by
  rw [BitVec.getLsbD_twoPow, Bool.and_eq_true, decide_eq_true_iff, decide_eq_true_iff]
  omega

/-- The flag of a process. -/
theorem fProcess_eq {pid : Nat} (h1 : 1 ≤ pid) (h2 : pid < maxNProc) :
    fProcess pid = BitVec.twoPow 32 (pid + 2) := by
  have hlt : pid < 16 := h2
  rw [fProcess, if_neg (by omega), if_pos (by omega), Int.toNat_natCast]
  interval_cases pid <;> decide

section Flags

variable {pid b : Nat}

/-- The flags of a page table page. -/
theorem tableFlags_iff (h1 : 1 ≤ pid) (h2 : pid < maxNProc) :
    (fKernel ||| fProcess pid).getLsbD b = true ↔ b = 0 ∨ b = pid + 2 := by
  have hlt : pid < 16 := h2
  rw [fProcess_eq h1 h2, BitVec.getLsbD_or, Bool.or_eq_true, getLsbD_twoPow_iff (by omega),
    show fKernel = BitVec.twoPow 32 0 by decide, getLsbD_twoPow_iff (by omega)]

/-- The flags of a page for user mode. -/
theorem userFlags_iff {va pa : Word} (h1 : 1 ≤ pid) (h2 : pid < maxNProc) :
    (userFlags va pa (fProcess pid)).getLsbD b = true
      ↔ b = 1 ∨ b = pid + 2 ∨ (b = 2 ∧ ¬ va = pa) := by
  have hlt : pid < 16 := h2
  have huser : fUser = BitVec.twoPow 32 1 := by decide
  have hnon : fNonidentity = BitVec.twoPow 32 2 := by decide
  rw [userFlags, fProcess_eq h1 h2, huser, hnon]
  by_cases hva : va = pa
  · rw [if_pos hva, BitVec.getLsbD_or, Bool.or_eq_true, getLsbD_twoPow_iff (by omega),
      getLsbD_twoPow_iff (by omega)]
    tauto
  · rw [if_neg hva, BitVec.getLsbD_or, BitVec.getLsbD_or, Bool.or_eq_true, Bool.or_eq_true,
      getLsbD_twoPow_iff (by omega), getLsbD_twoPow_iff (by omega), getLsbD_twoPow_iff (by omega)]
    tauto

end Flags

end MemUsage
