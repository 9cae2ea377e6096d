import Cs61.CheckedLoops
import Cs61.HardwareWalk
import Cs61.MemUsage
import Cs61.VmFind

/-! # The kernel page table at boot

    `init_kernel_memory` fills the five pages of `kernel_pagetable`, and
    `kernel_start` maps all of physical memory a second time.  When both are
    done the processor finds the identity mapping, without the page at address
    0 (`bootTables_walk`). -/

namespace BootTables

open PageTable PostOrder VmIter VmWalk VmQueries LoopRules CheckedLoops HardwareWalk
open MemUsage (memsizePhysical)
open Vmiter (Kalloc Mapped)

/-! ## `init_kernel_memory` -/

/-- Where the linker puts `kernel_pagetable`. -/
structure Site where
  addr : Word
  aligned : PageAligned addr
  start : 0x40000 ≤ addr.toNat
  low : addr.toNat + 0x5000 ≤ 0x200000

/-- `&kernel_pagetable[i]`. -/
def Site.page (k : Site) (i : Nat) : Word := k.addr + BitVec.ofNat 64 (0x1000 * i)

/-- `&kernel_pagetable[i].entry[j]`. -/
def Site.entry (k : Site) (i j : Nat) : Word := entryPtr (k.page i) (BitVec.ofNat 64 j)

/-- `kernel_pagetable[i].entry[j] = v`. -/
def Site.set (k : Site) (i j : Nat) (v : Word) (mem : Mem) : Mem :=
  Function.update mem (k.entry i j) v

/-- `memset(kernel_pagetable, 0, sizeof(kernel_pagetable))`. -/
def Site.clear (k : Site) (mem : Mem) : Mem :=
  fun a => if k.addr.toNat ≤ a.toNat ∧ a.toNat < k.addr.toNat + 0x5000 then 0#64 else mem a

/-- The entries that are written one by one. -/
def Site.link (k : Site) (mem : Mem) : Mem :=
  let mem := k.clear mem
  let mem := k.set 0 0 (k.page 1 ||| pteP ||| pteW ||| pteU) mem
  let mem := k.set 1 0 (k.page 2 ||| pteP ||| pteW ||| pteU) mem
  let mem := k.set 2 0 (k.page 3 ||| pteP ||| pteW ||| pteU) mem
  let mem := k.set 2 1 (k.page 4 ||| pteP ||| pteW ||| pteU) mem
  -- memory-mapped devices
  let mem := k.set 1 1 (1#64 <<< 30 ||| pteP ||| pteW ||| ptePS) mem
  let mem := k.set 1 2 (2#64 <<< 30 ||| pteP ||| pteW ||| ptePS) mem
  k.set 1 3 (3#64 <<< 30 ||| pteP ||| pteW ||| ptePS) mem

/-- `PTE_P | PTE_W | PTE_U`. -/
def PWU : BitVec 32 := 0x7#32

/-- `map(pa, perm)`. -/
def map (kalloc : Kalloc) (mem : Mem) (it : Vmiter) (pa : Word) (perm : BitVec 32) :
    Except Fault Mapped :=
  (it.tryMap kalloc mem pa perm).bind fun r =>
  (check (r.ret == 0) "r == 0" (some "vmiter::map failed")).bind fun _ => .ok r

/-- A pass of a checked loop goes on with the value of `x`. -/
def passOn {α σ ρ : Type} (x : Except Fault α) (f : α → Turn σ (Except Fault ρ)) :
    Turn σ (Except Fault ρ) :=
  match x with
  | .error e => .leave (.error e)
  | .ok a => f a

/-- `for (; it.va() < MEMSIZE_PHYSICAL; it += PAGESIZE)`. -/
def initPass (kalloc : Kalloc) : Mem × Vmiter → Turn (Mem × Vmiter) (Except Fault Mem)
  | (mem, it) =>
      if it.va < memsizePhysical then
        passOn (if it.va ≠ 0#64 then map kalloc mem it it.va PWU
            else .ok { ret := 0, mem := mem, it := it }) fun r =>
        passOn (r.it.addAssign r.mem pageSize) fun it => .again (r.mem, it)
      else .leave (.ok mem)

/-- The part of `init_kernel_memory` that builds the page tables. -/
def initKernelMemory (kalloc : Kalloc) (k : Site) (mem : Mem) (fuel : Nat) :
    Option (Except Fault Mem) :=
  andThen (some (Vmiter.new (k.link mem) k.addr 0#64)) fun it =>
    run (initPass kalloc) fuel (k.link mem, it)

/-! ## The loop of `kernel_start` -/

/-- `for (uintptr_t addr = 0; addr < MEMSIZE_PHYSICAL; addr += PAGESIZE)`. -/
def startPass (kalloc : Kalloc) (k : Site) : Mem × Word → Turn (Mem × Word) (Except Fault Mem)
  | (mem, addr) =>
      if addr < memsizePhysical then
        let perm := if addr = 0#64 then 0#32 else PWU
        passOn (Vmiter.new mem k.addr addr) fun it =>
        passOn (it.tryMap kalloc mem addr perm) fun r =>
        passOn (check (r.ret == 0) "r == 0" none) fun _ => .again (r.mem, addr + pageSize)
      else .leave (.ok mem)

/-- The kernel page table when the first process is set up. -/
def bootTables (kalloc : Kalloc) (k : Site) (mem : Mem) (fuel : Nat) :
    Option (Except Fault Mem) :=
  andThen (initKernelMemory kalloc k mem fuel) fun mem =>
    run (startPass kalloc k) fuel (mem, 0#64)

/-! ## What the tables hold -/

/-- The entry of a large page of 1 GiB. -/
def large (j : Nat) : Word := BitVec.ofNat 64 (j * 2 ^ 30) ||| 0x83#64

/-- The entry of a page of memory. -/
def identity (j : Nat) : Word := BitVec.ofNat 64 (4096 * j) ||| ptePWU

/-- Entry `j` of page `i`, when the pages of physical memory below `n` are mapped. -/
def Site.holds (k : Site) (n : Nat) (i j : Nat) : Word :=
  match i with
  | 0 => if j = 0 then k.page 1 ||| ptePWU else 0#64
  | 1 =>
      if j = 0 then k.page 2 ||| ptePWU
      else if j < 4 then large j
      else 0#64
  | 2 => if j = 0 then k.page 3 ||| ptePWU else if j = 1 then k.page 4 ||| ptePWU else 0#64
  | 3 => if 0 < j ∧ j < n then identity j else 0#64
  | _ => 0#64

/-- Memory holds the five tables as they are when the first `n` pages are mapped. -/
def Maps (k : Site) (n : Nat) (mem : Mem) : Prop :=
  ∀ i < 5, ∀ j < 512, mem (k.entry i j) = k.holds n i j

variable {k : Site} {mem : Mem} {n i j : Nat} {va : Word} {kalloc : Kalloc}

/-- Where the tables are. -/
theorem toNat_page (hi : i ≤ 4) : (k.page i).toNat = k.addr.toNat + 0x1000 * i := by
  have hlow := k.low
  rw [Site.page, BitVec.toNat_add, BitVec.toNat_ofNat]
  omega

theorem page_aligned (hi : i ≤ 4) : PageAligned (k.page i) := by
  have h := k.aligned
  rw [PageAligned] at h ⊢
  rw [toNat_page hi]
  omega

theorem page_zero : k.page 0 = k.addr := BitVec.add_zero _

/-- The tables are at different addresses. -/
theorem page_inj {i' : Nat} (hi : i ≤ 4) (hi' : i' ≤ 4) (h : k.page i = k.page i') : i = i' := by
  have hnat := congrArg BitVec.toNat h
  rw [toNat_page hi, toNat_page hi'] at hnat
  omega

/-- So are their entries. -/
theorem entry_inj {i' j' : Nat} (hi : i ≤ 4) (hi' : i' ≤ 4) (hj : j < 512) (hj' : j' < 512)
    (h : k.entry i j = k.entry i' j') : i = i' ∧ j = j' := by
  obtain ⟨hpage, hidx⟩ := entryPtr_inj (page_aligned hi) (page_aligned hi') hj hj' h
  exact ⟨page_inj hi hi' hpage, hidx⟩

/-- An entry that is written, and the others. -/
theorem set_entry {i' j' : Nat} (v : Word) (hi : i ≤ 4) (hi' : i' ≤ 4) (hj : j < 512)
    (hj' : j' < 512) :
    k.set i j v mem (k.entry i' j') = if i' = i ∧ j' = j then v else mem (k.entry i' j') := by
  rw [Site.set]
  by_cases h : i' = i ∧ j' = j
  · rw [if_pos h, h.1, h.2, Function.update_self]
  · rw [if_neg h, Function.update_of_ne]
    exact fun heq => h (entry_inj hi' hi hj' hj heq)

/-- The entries start as zero. -/
theorem clear_entry (hi : i ≤ 4) (hj : j < 512) : k.clear mem (k.entry i j) = 0#64 := by
  have hptr := toNat_entryPtr (page_aligned (k := k) hi) hj
  rw [toNat_page hi] at hptr
  refine if_pos ⟨?_, ?_⟩
  · rw [Site.entry, hptr]
    omega
  · rw [Site.entry, hptr]
    omega

/-- Before the first page is mapped. -/
theorem maps_link (k : Site) (mem : Mem) : Maps k 0 (k.link mem) := by
  have hpwu : ∀ x : Word, x ||| pteP ||| pteW ||| pteU = x ||| ptePWU := by
    intro x
    rw [BitVec.or_assoc, BitVec.or_assoc, ptePWU, BitVec.or_assoc]
  intro i hi j hj
  simp only [Site.link, hpwu]
  rw [set_entry _ (by omega) (by omega) (by omega) hj, set_entry _ (by omega) (by omega) (by omega) hj,
    set_entry _ (by omega) (by omega) (by omega) hj, set_entry _ (by omega) (by omega) (by omega) hj,
    set_entry _ (by omega) (by omega) (by omega) hj, set_entry _ (by omega) (by omega) (by omega) hj,
    set_entry _ (by omega) (by omega) (by omega) hj, clear_entry (by omega) hj]
  obtain rfl | rfl | rfl | rfl | rfl : i = 0 ∨ i = 1 ∨ i = 2 ∨ i = 3 ∨ i = 4 := by omega
  · simp [Site.holds]
  · -- one entry that points to a page, and three large pages
    obtain rfl | rfl | rfl | rfl | hj4 : j = 0 ∨ j = 1 ∨ j = 2 ∨ j = 3 ∨ 4 ≤ j := by omega
    · simp [Site.holds]
    · simp [Site.holds, large, pteP, pteW, ptePS]
    · simp [Site.holds, large, pteP, pteW, ptePS]
    · simp [Site.holds, large, pteP, pteW, ptePS]
    · simp [Site.holds, show ¬ j = 0 by omega, show ¬ j = 1 by omega, show ¬ j = 2 by omega,
        show ¬ j = 3 by omega, show ¬ j < 4 by omega]
  · obtain rfl | rfl | hj2 : j = 0 ∨ j = 1 ∨ 2 ≤ j := by omega
    · simp [Site.holds]
    · simp [Site.holds]
    · simp [Site.holds, show ¬ j = 0 by omega, show ¬ j = 1 by omega]
  · simp [Site.holds]
  · simp [Site.holds]

/-- One more page is mapped. -/
theorem Maps.set (h : Maps k n mem) (hn : n < 512) (hpos : 0 < n) :
    Maps k (n + 1) (k.set 3 n (identity n) mem) := by
  intro i hi j hj
  rw [set_entry _ (by omega) (by omega) hn hj, h i hi j hj]
  by_cases hslot : i = 3 ∧ j = n
  · obtain ⟨rfl, rfl⟩ := hslot
    rw [if_pos ⟨rfl, rfl⟩]
    exact (if_pos ⟨hpos, Nat.lt_succ_self _⟩).symm
  · rw [if_neg hslot]
    obtain rfl | hne : i = 3 ∨ i ≠ 3 := by omega
    · have hjn : j ≠ n := fun hjn => hslot ⟨rfl, hjn⟩
      simp only [Site.holds, show j < n + 1 ↔ j < n by omega]
    · obtain rfl | rfl | rfl | rfl : i = 0 ∨ i = 1 ∨ i = 2 ∨ i = 4 := by omega
      · rfl
      · rfl
      · rfl
      · rfl

/-- Memory in which the first `n` pages are mapped, and nothing else is. -/
def Site.tables (k : Site) (n : Nat) : Mem := fun a =>
  if k.addr.toNat ≤ a.toNat ∧ a.toNat < k.addr.toNat + 0x5000 then
    k.holds n ((a.toNat - k.addr.toNat) / 0x1000) ((a.toNat - k.addr.toNat) % 0x1000 / 8)
  else 0#64

/-- Memory that holds just the tables. -/
theorem maps_tables (k : Site) (n : Nat) : Maps k n (k.tables n) := by
  intro i hi j hj
  have hptr := toNat_entryPtr (page_aligned (k := k) (i := i) (by omega)) hj
  rw [toNat_page (by omega)] at hptr
  have haddr : (k.entry i j).toNat - k.addr.toNat = 0x1000 * i + 8 * j := by
    rw [Site.entry, hptr]
    omega
  rw [Site.tables, if_pos ⟨by rw [Site.entry, hptr]; omega, by rw [Site.entry, hptr]; omega⟩, haddr,
    show (0x1000 * i + 8 * j) / 0x1000 = i by omega,
    show (0x1000 * i + 8 * j) % 0x1000 / 8 = j by omega]

/-- A page that is mapped already is mapped again. -/
theorem Maps.set_same (h : Maps k n mem) (hj : j < 512) :
    Maps k n (k.set 3 j (k.holds n 3 j) mem) := by
  intro i hi j' hj'
  rw [set_entry _ (by omega) (by omega) hj hj', h i hi j' hj']
  split
  · rename_i heq
    rw [heq.1, heq.2]
  · rfl

/-! ## The pages of the table -/

/-- A link leads to its table. -/
theorem pointee_page (hi : i ≤ 4) : pointee (k.page i ||| ptePWU) = some (k.page i) := by
  have hlow := k.low
  have hlt : (k.page i).toNat < 2 ^ 52 := by
    rw [toNat_page hi]
    omega
  have h := pointee_link (page_aligned (k := k) hi) hlt
  rwa [BitVec.or_assoc, BitVec.or_assoc, show pteP ||| (pteW ||| pteU) = ptePWU by decide] at h

/-- The entries that point to page-table pages. -/
def Links (k : Site) (i j : Nat) (c : Word) : Prop :=
  j = 0 ∧ c = k.page (i + 1) ∨ i = 2 ∧ j = 1 ∧ c = k.page 4

/-- The links are those of the kernel, and no others. -/
theorem Maps.child_iff (h : Maps k n mem) (hi : i ≤ 2) (hj : j < 512) {c : Word} :
    child mem (k.page i) j = some c ↔ Links k i j c := by
  have hzero : pointee 0#64 = none := by decide
  have hlarge : ∀ j < 4, j ≠ 0 → pointee (large j) = none := by decide
  rw [child, show mem (entryPtr (k.page i) (BitVec.ofNat 64 j)) = _ from h i (by omega) j hj, Links]
  obtain rfl | hj0 : j = 0 ∨ j ≠ 0 := by omega
  · -- the first entry of each of the three pages
    have hfirst : k.holds n i 0 = k.page (i + 1) ||| ptePWU := by
      obtain rfl | rfl | rfl : i = 0 ∨ i = 1 ∨ i = 2 := by omega
      · rfl
      · rfl
      · rfl
    rw [hfirst, pointee_page (by omega), Option.some_inj]
    simp [eq_comm]
  obtain rfl | rfl | rfl : i = 0 ∨ i = 1 ∨ i = 2 := by omega
  · simp [Site.holds, hj0, hzero]
  · by_cases hj4 : j < 4
    · simp [Site.holds, hj0, hj4, hlarge j hj4 hj0]
    · simp [Site.holds, hj0, hj4, hzero]
  · by_cases hj1 : j = 1
    · subst hj1
      simp [Site.holds, pointee_page, eq_comm]
    · simp [Site.holds, hj0, hj1, hzero]

/-- The page-table pages, by their paths. -/
inductive TableAt (k : Site) : List Nat → Nat → Prop
  | root : TableAt k [] 0
  | first : TableAt k [0] 1
  | second : TableAt k [0, 0] 2
  | low : TableAt k [0, 0, 0] 3
  | next : TableAt k [1, 0, 0] 4

theorem TableAt.le {p : List Nat} (h : TableAt k p i) : i ≤ 4 := by
  cases h <;> decide

/-- A table is reached on one path. -/
theorem TableAt.unique {p q : List Nat} (h : TableAt k p i) (h' : TableAt k q i) : p = q := by
  cases h <;> cases h' <;> rfl

/-- The tables are found on their paths. -/
theorem Maps.table_of (h : Maps k n mem) {p : List Nat} (hp : TableAt k p i) :
    table mem k.addr p = some (k.page i) := by
  have hzero : ∀ i ≤ 2, child mem (k.page i) 0 = some (k.page (i + 1)) := fun i hi =>
    (h.child_iff hi (by omega)).mpr (Or.inl ⟨rfl, rfl⟩)
  have hroot : table mem k.addr [] = some (k.page 0) := by
    rw [page_zero]
    rfl
  have h1 := (node_cons_of (child mem) hroot 0).trans (hzero 0 (by omega))
  have h2 := (node_cons_of (child mem) h1 0).trans (hzero 1 (by omega))
  cases hp with
  | root => exact hroot
  | first => exact h1
  | second => exact h2
  | low => exact (node_cons_of (child mem) h2 0).trans (hzero 2 (by omega))
  | next =>
      exact (node_cons_of (child mem) h2 1).trans
        ((h.child_iff (by omega) (by omega)).mpr (Or.inr ⟨rfl, rfl, rfl⟩))

/-- There are no other pages. -/
theorem Maps.table_inv (h : Maps k n mem) {p : List Nat} {t : Word} (hp : IsPath 512 3 p)
    (ht : table mem k.addr p = some t) : ∃ i, TableAt k p i ∧ t = k.page i := by
  induction p generalizing t with
  | nil => exact ⟨0, .root, by rw [page_zero]; exact (Option.some.inj ht).symm⟩
  | cons j p ih =>
      obtain ⟨s, hs, hc⟩ := node_tail (child mem) ht
      have hlen : p.length + 1 ≤ 3 := hp.1
      obtain ⟨i, hi, rfl⟩ := ih ⟨by omega, fun x hx => hp.2 x (List.mem_cons_of_mem _ hx)⟩ hs
      have hle : i ≤ 2 := by
        cases hi with
        | root => omega
        | first => omega
        | second => omega
        | low => exact absurd hlen (by decide)
        | next => exact absurd hlen (by decide)
      rcases (h.child_iff hle (hp.2 j List.mem_cons_self)).mp hc with ⟨rfl, rfl⟩ | ⟨rfl, rfl, rfl⟩
      · refine ⟨i + 1, ?_, rfl⟩
        cases hi with
        | root => exact .first
        | first => exact .second
        | second => exact .low
        | low => omega
        | next => omega
      · cases hi with
        | second => exact ⟨4, .next, rfl⟩

/-- The tables form a tree. -/
theorem Maps.tree (h : Maps k n mem) : PageTree mem k.addr := by
  refine ⟨k.aligned, ?_⟩
  intro p q t hp hq htp htq
  obtain ⟨i, hi, rfl⟩ := h.table_inv hp htp
  obtain ⟨i', hi', heq⟩ := h.table_inv hq htq
  obtain rfl := page_inj hi.le hi'.le heq
  exact hi.unique hi'

theorem toNat_identity_frame (hj : j < 512) : (BitVec.ofNat 64 (4096 * j)).toNat = 4096 * j := by
  rw [BitVec.toNat_ofNat]
  omega

/-- The frame of a page of memory is at its own address. -/
theorem identity_frame (hj : j < 512) : identity j &&& ptePAMask = BitVec.ofNat 64 (4096 * j) := by
  have hnat := toNat_identity_frame hj
  refine or_and_paMask ?_ ?_ (by decide)
  · rw [PageAligned, hnat, Nat.mul_mod_right]
  · rw [hnat]
    omega

/-- Entries hold low addresses. -/
theorem holds_low (hi : i ≤ 4) (hj : j < 512) :
    (k.holds n i j &&& ptePAMask).toNat < 2 ^ 32 := by
  have hpage : ∀ i ≤ 4, ((k.page i ||| ptePWU) &&& ptePAMask).toNat < 2 ^ 32 := by
    intro i hi
    rw [(pointee_eq_some.mp (pointee_page (k := k) hi)).2, toNat_page hi]
    have := k.low
    omega
  have hzero : (0#64 &&& ptePAMask).toNat < 2 ^ 32 := by decide
  have hlarge : ∀ j < 4, (large j &&& ptePAMask).toNat < 2 ^ 32 := by decide
  have hident : (identity j &&& ptePAMask).toNat < 2 ^ 32 := by
    rw [identity_frame hj, toNat_identity_frame hj]
    omega
  obtain rfl | rfl | rfl | rfl | rfl : i = 0 ∨ i = 1 ∨ i = 2 ∨ i = 3 ∨ i = 4 := by omega
  · rw [Site.holds]
    split
    · exact hpage 1 (by omega)
    · exact hzero
  · rw [Site.holds]
    split
    · exact hpage 2 (by omega)
    split
    · exact hlarge j ‹_›
    · exact hzero
  · rw [Site.holds]
    split
    · exact hpage 3 (by omega)
    split
    · exact hpage 4 (by omega)
    · exact hzero
  · rw [Site.holds]
    split
    · exact hident
    · exact hzero
  · exact hzero

/-- The tables are as an iterator needs them. -/
theorem Maps.wellFormed (h : Maps k n mem) : WellFormed mem k.addr := by
  refine { toPageTree := h.tree, low := ?_ }
  intro p t j hp _ ht hj
  obtain ⟨i, hi, rfl⟩ := h.table_inv hp ht
  rw [show mem (entryPtr (k.page i) (BitVec.ofNat 64 j)) = _ from h i (by have := hi.le; omega) j hj]
  exact holds_low hi.le hj

/-! ## Iterators below 2 MiB -/

theorem canonical_low (h : va.toNat < 0x200000) : vaIsCanonical va = true := by
  rw [vaIsCanonical_iff]
  omega

theorem idx_low (h : va.toNat < 0x200000) : idxAt va 12 = va.toNat / 4096 := by
  rw [idxAt]
  omega

/-- Low addresses are reached through the first entry at every level. -/
theorem path_low (h : va.toNat < 0x200000) : vaPath va 3 = [0, 0, 0] := by
  have h2 : idxAt va (lbitsAt 2) = 0 := by
    show va.toNat / 2 ^ 21 % 512 = 0
    omega
  have h1 : idxAt va (lbitsAt 1) = 0 := by
    show va.toNat / 2 ^ 30 % 512 = 0
    omega
  have h0 : idxAt va (lbitsAt 0) = 0 := by
    show va.toNat / 2 ^ 39 % 512 = 0
    omega
  rw [vaPath_succ, vaPath_succ, vaPath_succ, vaPath_zero, h2, h1, h0]

/-- All levels allow everything. -/
theorem Maps.permPath_low (h : Maps k n mem) : permPath mem k.addr [0, 0, 0] = Vmiter.initialPerm := by
  have hlevel : ∀ {p : List Nat} {i : Nat}, TableAt k p i → i ≤ 2 →
      entryAt mem k.addr p 0 ||| ~~~ptePWU = BitVec.allOnes 64 := by
    intro p i hp hi
    have hfirst : k.holds n i 0 = k.page (i + 1) ||| ptePWU := by
      obtain rfl | rfl | rfl : i = 0 ∨ i = 1 ∨ i = 2 := by omega
      · rfl
      · rfl
      · rfl
    have hread : mem (entryPtr (k.page i) (BitVec.ofNat 64 0)) = _ := h i (by omega) 0 (by omega)
    rw [entryAt_of (h.table_of hp), hread, hfirst, BitVec.or_assoc, BitVec.or_not_self,
      BitVec.or_allOnes]
  rw [permPath, permPath, permPath, permPath, hlevel .root (by omega), hlevel .first (by omega),
    hlevel .second (by omega), BitVec.and_allOnes, BitVec.and_allOnes, BitVec.and_allOnes]

/-- The iterator at an address of physical memory. -/
def leaf (k : Site) (va : Word) : Vmiter :=
  { pt := k.addr, pep := .slot (k.entry 3 (va.toNat / 4096)), lbits := pageOffBits,
    perm := Vmiter.initialPerm, va := va }

/-- The iterator at a low address is on its path. -/
theorem Maps.onPath_leaf (h : Maps k n mem) (hva : va.toNat < 0x200000) :
    OnPath mem k.addr 3 (leaf k va) := by
  refine ⟨rfl, Nat.le_refl 3, canonical_low hva, rfl, ⟨k.page 3, ?_, ?_⟩, ?_⟩
  · show table mem k.addr (vaPath va 3) = _
    rw [path_low hva]
    exact h.table_of .low
  · show Pep.slot (entryPtr (k.page 3) (BitVec.ofNat 64 (va.toNat / 4096)))
      = .slot (entryPtr (k.page 3) (BitVec.ofNat 64 (idxAt va 12)))
    rw [idx_low hva]
  · show Vmiter.initialPerm = permPath mem k.addr (vaPath va 3)
    rw [path_low hva, h.permPath_low]

/-- That is where a new iterator is. -/
theorem Maps.fresh_low (h : Maps k n mem) (hva : va.toNat < 0x200000) :
    fresh mem k.addr va = leaf k va :=
  ((h.onPath_leaf hva).eq_fresh k.aligned (by rfl)).symm

theorem Maps.new_low (h : Maps k n mem) (hva : va.toNat < 0x200000) :
    Vmiter.new mem k.addr va = .ok (leaf k va) := by
  rw [new_ok k.aligned h.wellFormed.low, h.fresh_low hva]

/-- `it += PAGESIZE`, or any other move. -/
theorem Maps.find_leaf (h : Maps k n mem) (hva : va.toNat < 0x200000) (va' : Word) :
    (leaf k va).find mem va' = .ok (fresh mem k.addr va') :=
  VmFind.Walked.find h.wellFormed (Or.inl ⟨3, h.onPath_leaf hva, by rfl⟩)

/-- The entry that `try_map` writes. -/
theorem tryMap_leaf {perm : BitVec 32} (hal : PageAligned va) (hva : va.toNat < 0x200000)
    (hperm : perm = PWU ∨ perm = 0#32 ∧ va = 0#64) :
    (leaf k va).tryMap kalloc mem va perm = .ok
      { ret := 0, mem := k.set 3 (va.toNat / 4096) (va ||| perm.signExtend 64) mem, it := leaf k va } := by
  have hne : va ≠ ~~~(0#64) := by
    rintro rfl
    exact absurd hva (by decide)
  have hpa : Vmiter.mapPa va (perm.signExtend 64) = va :=
    if_neg fun hc => hne (beq_iff_eq.mp (Bool.and_eq_true_iff.mp hc).1)
  -- the assertions of `try_map` hold
  have hcheck : (leaf k va).checkMap va (perm.signExtend 64) = .ok () := by
    have halign : ((leaf k va).va % pageSize == 0#64) = true := by
      rw [beq_iff_eq]
      refine BitVec.eq_of_toNat_eq ?_
      rw [BitVec.toNat_umod]
      exact hal
    have hmask : va &&& ptePAMask = va := by
      refine BitVec.eq_of_toNat_eq ?_
      rw [PageAligned] at hal
      rw [toNat_and_paMask]
      omega
    rw [Vmiter.checkMap, VmIter.check, if_pos halign]
    show ((Vmiter.checkPa va (perm.signExtend 64)).bind fun _ => _) = _
    rcases hperm with rfl | ⟨rfl, rfl⟩
    · have hpa : Vmiter.checkPa va (PWU.signExtend 64) = .ok () := by
        rw [Vmiter.checkPa, if_pos (by decide), VmIter.check, if_pos (bne_iff_ne.mpr hne)]
        exact if_pos (beq_iff_eq.mpr hmask)
      rw [hpa]
      exact if_pos (by decide : (PWU.signExtend 64 &&& ~~~Vmiter.initialPerm &&& ptePWU == 0#64) = true)
    · have hpa : Vmiter.checkPa 0#64 (BitVec.signExtend 64 0#32) = .ok () :=
        if_neg (by decide)
      rw [hpa]
      exact if_pos (by decide :
        (BitVec.signExtend 64 0#32 &&& ~~~Vmiter.initialPerm &&& ptePWU == 0#64) = true)
  -- no table is missing
  have hgrow : Vmiter.grow kalloc (perm.signExtend 64) (leaf k va).lbits 0 mem (leaf k va)
      = .ok { linked := true, mem := mem, it := leaf k va } := if_neg (by simp [leaf])
  rw [Vmiter.tryMap]
  simp only [hpa, hcheck, Except.bind]
  rw [hgrow]
  rfl

/-! ## The loops -/

/-- The address of page `n`. -/
def pageAddr (n : Nat) : Word := BitVec.ofNat 64 (4096 * n)

theorem toNat_pageAddr (hn : n ≤ 512) : (pageAddr n).toNat = 4096 * n := by
  rw [pageAddr, BitVec.toNat_ofNat]
  omega

theorem pageAddr_lt (hn : n ≤ 512) : pageAddr n < memsizePhysical ↔ n < 512 := by
  rw [BitVec.lt_def, toNat_pageAddr hn, show memsizePhysical.toNat = 4096 * 512 from rfl]
  omega

/-- The next page. -/
theorem pageAddr_succ : pageAddr n + pageSize = pageAddr (n + 1) := by
  rw [pageAddr, pageAddr, show pageSize = BitVec.ofNat 64 4096 by decide, ← BitVec.ofNat_add,
    Nat.mul_succ]

theorem pageAddr_eq_zero (hn : n ≤ 512) : pageAddr n = 0#64 ↔ n = 0 := by
  constructor
  · intro h
    have := congrArg BitVec.toNat h
    rw [toNat_pageAddr hn] at this
    simpa using this
  · rintro rfl
    rfl

theorem pageAddr_div (hn : n ≤ 512) : (pageAddr n).toNat / 4096 = n := by
  rw [toNat_pageAddr hn, Nat.mul_div_cancel_left _ (by omega)]

/-- What `try_map` does to a page of physical memory. -/
theorem tryMap_page {perm : BitVec 32} (hn : n < 512)
    (hperm : perm = PWU ∨ perm = 0#32 ∧ n = 0) :
    (leaf k (pageAddr n)).tryMap kalloc mem (pageAddr n) perm = .ok
      { ret := 0, mem := k.set 3 n (pageAddr n ||| perm.signExtend 64) mem
        it := leaf k (pageAddr n) } := by
  have hle : n ≤ 512 := by omega
  have hal : PageAligned (pageAddr n) := by
    rw [PageAligned, toNat_pageAddr hle, Nat.mul_mod_right]
  have hlow : (pageAddr n).toNat < 0x200000 := by
    rw [toNat_pageAddr hle]
    omega
  have hcases : perm = PWU ∨ perm = 0#32 ∧ pageAddr n = 0#64 := by
    rwa [pageAddr_eq_zero hle]
  rw [tryMap_leaf hal hlow hcases, pageAddr_div hle]

/-- The null page is mapped as absent. -/
theorem Maps.zero (h : Maps k 0 mem) : Maps k 1 mem := by
  intro i hi j hj
  rw [h i hi j hj]
  obtain rfl | rfl | rfl | rfl | rfl : i = 0 ∨ i = 1 ∨ i = 2 ∨ i = 3 ∨ i = 4 := by omega
  · rfl
  · rfl
  · rfl
  · rw [Site.holds, Site.holds, if_neg (by omega), if_neg (by omega)]
  · rfl

theorem leaf_va : (leaf k va).va = va := rfl

/-- A pass that is not stopped by a fault. -/
theorem passOn_ok {α σ ρ : Type} (a : α) (f : α → Turn σ (Except Fault ρ)) :
    passOn (.ok a) f = f a := rfl

/-- **ONE PASS** of the first loop maps one page. -/
theorem initPass_page (kalloc : Kalloc) (h : Maps k n mem) (hn : n < 512) :
    ∃ mem', Maps k (n + 1) mem'
      ∧ initPass kalloc (mem, fresh mem k.addr (pageAddr n))
        = .again (mem', fresh mem' k.addr (pageAddr (n + 1))) := by
  have hlow : (pageAddr n).toNat < 0x200000 := by
    rw [toNat_pageAddr (by omega)]
    omega
  have hmove : ∀ {mem' : Mem} {n' : Nat}, Maps k n' mem' →
      (leaf k (pageAddr n)).addAssign mem' pageSize = .ok (fresh mem' k.addr (pageAddr (n + 1))) := by
    intro mem' n' h'
    rw [Vmiter.addAssign, leaf_va, pageAddr_succ]
    exact h'.find_leaf hlow _
  rw [h.fresh_low hlow, initPass, leaf_va, if_pos ((pageAddr_lt (by omega)).mpr hn)]
  by_cases hzero : n = 0
  · -- the page at address 0 stays absent
    refine ⟨mem, ?_, ?_⟩
    · rw [hzero] at h ⊢
      exact h.zero
    · rw [if_neg (not_not.mpr ((pageAddr_eq_zero (by omega)).mpr hzero)), passOn_ok, hmove h, passOn_ok]
  · have h' := h.set hn (by omega)
    have hmap : map kalloc mem (leaf k (pageAddr n)) (pageAddr n) PWU = .ok
        { ret := 0, mem := k.set 3 n (identity n) mem, it := leaf k (pageAddr n) } := by
      rw [map, tryMap_page hn (Or.inl rfl)]
      rfl
    refine ⟨_, h', ?_⟩
    rw [if_pos (by rw [Ne, pageAddr_eq_zero (by omega)]; exact hzero), hmap, passOn_ok, hmove h',
      passOn_ok]

/-- The first loop maps all low pages. -/
theorem initPass_returns (kalloc : Kalloc) (h : Maps k n mem) (hn : n ≤ 512) :
    ∃ mem', Maps k 512 mem'
      ∧ Returns (fun fuel => run (initPass kalloc) fuel (mem, fresh mem k.addr (pageAddr n)))
        (.ok mem') := by
  induction hleft : 512 - n generalizing n mem with
  | zero =>
      obtain rfl : n = 512 := by omega
      have hstop : ¬ (fresh mem k.addr (pageAddr 512)).va < memsizePhysical := by
        rw [fresh_va k.aligned, pageAddr_lt (le_refl _)]
        exact lt_irrefl _
      refine ⟨mem, h, returns_leave ?_⟩
      rw [initPass, if_neg hstop]
  | succ m ih =>
      obtain ⟨mem', h', hpass⟩ := initPass_page kalloc h (show n < 512 by omega)
      obtain ⟨mem'', h'', hrun⟩ := ih h' (by omega) (by omega)
      exact ⟨mem'', h'', returns_again hpass hrun⟩

/-- **ONE PASS** of the second loop writes what is there already. -/
theorem startPass_page (kalloc : Kalloc) (h : Maps k 512 mem) (hn : n < 512) :
    ∃ mem', Maps k 512 mem'
      ∧ startPass kalloc k (mem, pageAddr n) = .again (mem', pageAddr (n + 1)) := by
  have hlow : (pageAddr n).toNat < 0x200000 := by
    rw [toNat_pageAddr (by omega)]
    omega
  refine ⟨_, h.set_same hn, ?_⟩
  rw [startPass, if_pos ((pageAddr_lt (by omega)).mpr hn), h.new_low hlow, passOn_ok]
  by_cases hzero : n = 0
  · have haddr : pageAddr n = 0#64 := (pageAddr_eq_zero (by omega)).mpr hzero
    have hpage : k.holds 512 3 n = pageAddr n ||| (0#32).signExtend 64 := by
      rw [haddr, Site.holds, if_neg (by omega)]
      rfl
    rw [if_pos haddr, tryMap_page hn (Or.inr ⟨rfl, hzero⟩), passOn_ok, hpage, ← pageAddr_succ]
    rfl
  · have hpage : k.holds 512 3 n = pageAddr n ||| PWU.signExtend 64 :=
      if_pos ⟨by omega, hn⟩
    rw [if_neg (by rw [pageAddr_eq_zero (by omega)]; exact hzero), tryMap_page hn (Or.inl rfl),
      passOn_ok, hpage, ← pageAddr_succ]
    rfl

/-- The second loop leaves them mapped. -/
theorem startPass_returns (kalloc : Kalloc) (h : Maps k 512 mem) (hn : n ≤ 512) :
    ∃ mem', Maps k 512 mem'
      ∧ Returns (fun fuel => run (startPass kalloc k) fuel (mem, pageAddr n)) (.ok mem') := by
  induction hleft : 512 - n generalizing n mem with
  | zero =>
      obtain rfl : n = 512 := by omega
      have hstop : ¬ pageAddr 512 < memsizePhysical := by
        rw [pageAddr_lt (le_refl _)]
        exact lt_irrefl _
      refine ⟨mem, h, returns_leave ?_⟩
      rw [startPass, if_neg hstop]
  | succ m ih =>
      have hlt : n < 512 := by omega
      obtain ⟨mem', h', hpass⟩ := startPass_page kalloc h hlt
      obtain ⟨mem'', h'', hrun⟩ := ih h' hlt (by omega)
      exact ⟨mem'', h'', returns_again hpass hrun⟩

/-- The whole ends with all pages mapped. -/
theorem bootTables_returns (kalloc : Kalloc) (k : Site) (mem : Mem) :
    ∃ mem', Maps k 512 mem' ∧ Returns (bootTables kalloc k mem) (.ok mem') := by
  obtain ⟨mem₁, h₁, hinit⟩ := initPass_returns kalloc (maps_link k mem) (Nat.zero_le 512)
  obtain ⟨mem₂, h₂, hstart⟩ := startPass_returns kalloc h₁ (Nat.zero_le 512)
  refine ⟨mem₂, h₂, ?_⟩
  obtain ⟨m₁, hinit⟩ := hinit
  obtain ⟨m₂, hstart⟩ := hstart
  refine ⟨m₁ + m₂, ?_⟩
  intro fuel hf
  have hnew : Vmiter.new (k.link mem) k.addr 0#64
      = .ok (fresh (k.link mem) k.addr (pageAddr 0)) :=
    new_ok k.aligned (maps_link k mem).wellFormed.low _
  rw [bootTables, initKernelMemory, hnew, andThen_ok rfl, andThen_ok (hinit fuel (by omega))]
  exact hstart fuel (by omega)

/-! ## What the processor finds -/

/-- What the kernel page table is for: low memory is mapped to itself for the
    kernel and for processes, and memory-mapped devices for the kernel. -/
def bootMap (va : Word) : Option Translation :=
  if va.toNat < 0x1000 then none
  else if va.toNat < 0x200000 then some { pa := va, flags := pteP ||| pteW ||| pteU }
  else if 2 ^ 30 ≤ va.toNat ∧ va.toNat < 2 ^ 32 then some { pa := va, flags := pteP ||| pteW }
  else none

/-- No entry of the root is taken for a large page. -/
theorem Maps.noRootPS (h : Maps k n mem) : NoRootPS mem k.addr := by
  intro j hj
  have hread : mem (entryPtr k.addr (BitVec.ofNat 64 j)) = k.holds n 0 j := by
    rw [← page_zero]
    exact h 0 (by omega) j hj
  rw [hread, Site.holds]
  split
  · exact ((isTable_iff _).mp (pointee_eq_some.mp (pointee_page (k := k) (by omega : 1 ≤ 4))).1).2
  · rfl

theorem and_or_absorb (x y : Word) : x &&& (y ||| x) = x := by
  refine BitVec.eq_of_getLsbD_eq ?_
  intro i _
  rw [BitVec.getLsbD_and, BitVec.getLsbD_or]
  cases x.getLsbD i <;> cases y.getLsbD i <;> rfl

/-- No level on the way takes a permission away. -/
theorem Maps.flags (h : Maps k n mem) {p : List Nat} (hp : TableAt k p i) :
    ptePWU &&& flagsPath mem k.addr p = ptePWU := by
  have hstep : ∀ {p : List Nat} {i j : Nat}, TableAt k p i → j < 512 →
      (∃ c, k.holds n i j = k.page c ||| ptePWU) →
      ptePWU &&& flagsPath mem k.addr p = ptePWU →
      ptePWU &&& flagsPath mem k.addr (j :: p) = ptePWU := by
    intro p i j hp hj ⟨c, hholds⟩ ih
    have hread : mem (entryPtr (k.page i) (BitVec.ofNat 64 j)) = _ :=
      h i (by have := hp.le; omega) j hj
    rw [flagsPath, ← BitVec.and_assoc, ih, entryAt_of (h.table_of hp), hread, hholds, and_or_absorb]
  have h0 : ptePWU &&& flagsPath mem k.addr [] = ptePWU := BitVec.and_allOnes
  have h1 := hstep (j := 0) .root (by omega) ⟨1, rfl⟩ h0
  have h2 := hstep (j := 0) .first (by omega) ⟨2, rfl⟩ h1
  cases hp with
  | root => exact h0
  | first => exact h1
  | second => exact h2
  | low => exact hstep .second (by omega) ⟨3, rfl⟩ h2
  | next => exact hstep .second (by omega) ⟨4, rfl⟩ h2

/-- The walk ends at an entry of one of the five pages. -/
theorem Maps.walk (h : Maps k n mem) (hc : vaIsCanonical va = true) {d : Nat} (hd : d ≤ 3)
    (hp : TableAt k (vaPath va d) i) (hj : idxAt va (lbitsAt d) = j)
    (hstop : d < 3 → isTable (k.holds n i j) = false) :
    hwWalk mem k.addr va = if hwPresent (k.holds n i j) = true then
      some { pa := hwAddr (k.holds n i j) va (lbitsAt d), flags := ptePWU &&& k.holds n i j }
      else none := by
  have hread : mem (entryPtr (k.page i) (BitVec.ofNat 64 j)) = _ :=
    h i (by have := hp.le; omega) j (hj ▸ idxAt_lt _ _)
  have hlevel : levelEntry mem k.addr va d = k.holds n i j := by
    rw [levelEntry, entryAt_of (h.table_of hp), hj, hread]
  rw [hwWalk_stopped hc hd (h.table_of hp) (by rw [hlevel]; exact hstop) h.noRootPS, stopped,
    hlevel, h.flags hp]

/-- An absent entry ends the walk. -/
theorem Maps.walk_absent (h : Maps k n mem) (hc : vaIsCanonical va = true) {d : Nat} (hd : d ≤ 3)
    (hp : TableAt k (vaPath va d) i) (hj : idxAt va (lbitsAt d) = j)
    (habsent : k.holds n i j = 0#64) : hwWalk mem k.addr va = none := by
  rw [h.walk hc hd hp hj (by rw [habsent]; intro _; decide), habsent]
  rfl

/-- A small page of the identity map is at its own address. -/
theorem hwAddr_identity (hva : va.toNat < 0x200000) :
    hwAddr (identity (va.toNat / 4096)) va 12 = va := by
  have hnat : (identity (va.toNat / 4096)).toNat = 4096 * (va.toNat / 4096) + 7 := by
    have hal : PageAligned (BitVec.ofNat 64 (4096 * (va.toNat / 4096))) := by
      rw [PageAligned, toNat_identity_frame (by omega), Nat.mul_mod_right]
    rw [identity, toNat_or_of_aligned hal (by decide), toNat_identity_frame (by omega)]
    rfl
  refine BitVec.eq_of_toNat_eq ?_
  rw [hwAddr, BitVec.toNat_ofNat, hnat]
  omega

/-- So is a large one. -/
theorem hwAddr_large_page (h1 : 2 ^ 30 ≤ va.toNat) (h4 : va.toNat < 2 ^ 32) :
    hwAddr (large (va.toNat / 2 ^ 30)) va 30 = va := by
  have hnat : ∀ j < 4, (large j).toNat = j * 2 ^ 30 + 0x83 := by decide
  refine BitVec.eq_of_toNat_eq ?_
  rw [hwAddr, BitVec.toNat_ofNat, hnat _ (by omega)]
  omega

/-- **THE PROCESSOR FINDS** what the table is for, whatever the address. -/
theorem Maps.hwWalk_eq (h : Maps k 512 mem) (va : Word) : hwWalk mem k.addr va = bootMap va := by
  have hidx : ∀ d, idxAt va (lbitsAt d) = va.toNat / 2 ^ lbitsAt d % 512 := fun _ => rfl
  have hroot : TableAt k (vaPath va 0) 0 := .root
  have hlt := va.isLt
  by_cases hc : vaIsCanonical va = true
  swap
  · -- not canonical, and so above everything that is mapped
    have hnc := hc
    rw [vaIsCanonical_iff] at hnc
    rw [hwWalk, if_neg (by rw [hwCanonical_eq]; exact hc), bootMap, if_neg (by omega),
      if_neg (by omega), if_neg (by omega)]
  have hcanon := (vaIsCanonical_iff va).mp hc
  -- the root has one table, at its first entry
  by_cases hfar : 2 ^ 39 ≤ va.toNat
  · have h0 : idxAt va (lbitsAt 0) ≠ 0 := by
      show va.toNat / 2 ^ 39 % 512 ≠ 0
      omega
    rw [h.walk_absent hc (by omega) hroot rfl (if_neg h0), bootMap, if_neg (by omega),
      if_neg (by omega), if_neg (by omega)]
  have h0 : idxAt va (lbitsAt 0) = 0 := by
    show va.toNat / 2 ^ 39 % 512 = 0
    omega
  have hfirst : TableAt k (vaPath va 1) 1 := by
    rw [vaPath_succ, h0]
    exact .first
  have h1 : idxAt va (lbitsAt 1) = va.toNat / 2 ^ 30 := by
    show va.toNat / 2 ^ 30 % 512 = _
    omega
  by_cases hdev : 2 ^ 30 ≤ va.toNat
  · by_cases hend : va.toNat < 2 ^ 32
    · -- a large page
      have hentry : k.holds 512 1 (va.toNat / 2 ^ 30) = large (va.toNat / 2 ^ 30) := by
        rw [Site.holds, if_neg (by omega), if_pos (by omega)]
      have hbits : ∀ j < 4, j ≠ 0 → isTable (large j) = false ∧ hwPresent (large j) = true
          ∧ ptePWU &&& large j = pteP ||| pteW := by decide
      obtain ⟨hstop, hpres, hflags⟩ := hbits (va.toNat / 2 ^ 30) (by omega) (by omega)
      rw [h.walk hc (by omega) hfirst h1 (by rw [hentry]; exact fun _ => hstop), hentry,
        if_pos hpres, hflags, bootMap, if_neg (by omega), if_neg (by omega),
        if_pos ⟨hdev, hend⟩, show lbitsAt 1 = 30 from rfl, hwAddr_large_page hdev hend]
    · have hentry : k.holds 512 1 (va.toNat / 2 ^ 30) = 0#64 := by
        rw [Site.holds, if_neg (by omega), if_neg (by omega)]
      rw [h.walk_absent hc (by omega) hfirst h1 hentry, bootMap, if_neg (by omega),
        if_neg (by omega), if_neg (by omega)]
  have h1z : idxAt va (lbitsAt 1) = 0 := by omega
  have hsecond : TableAt k (vaPath va 2) 2 := by
    rw [vaPath_succ, vaPath_succ, h1z, h0]
    exact .second
  have h2 : idxAt va (lbitsAt 2) = va.toNat / 2 ^ 21 := by
    show va.toNat / 2 ^ 21 % 512 = _
    omega
  -- below 2 MiB there are pages of 4 KiB
  by_cases hlow : va.toNat < 0x200000
  · have hthird : TableAt k (vaPath va 3) 3 := by
      rw [path_low hlow]
      exact .low
    have h3 : idxAt va (lbitsAt 3) = va.toNat / 4096 := idx_low hlow
    -- the first page is left out
    by_cases hnull : va.toNat < 0x1000
    · have hentry : k.holds 512 3 (va.toNat / 4096) = 0#64 := if_neg (by omega)
      rw [h.walk_absent hc (by omega) hthird h3 hentry, bootMap, if_pos hnull]
    · have hentry : k.holds 512 3 (va.toNat / 4096) = identity (va.toNat / 4096) :=
        if_pos ⟨by omega, by omega⟩
      have hbits : hwPresent (identity (va.toNat / 4096)) = true
          ∧ ptePWU &&& identity (va.toNat / 4096) = ptePWU := by
        refine ⟨?_, ?_⟩
        · rw [hwPresent, identity, BitVec.getLsbD_or, show ptePWU.getLsbD 0 = true by decide,
            Bool.or_true]
        · rw [identity, and_or_absorb]
      rw [h.walk hc (by omega) hthird h3 (fun hd => absurd hd (by omega)), hentry, if_pos hbits.1,
        hbits.2, show lbitsAt 3 = 12 from rfl, hwAddr_identity hlow, bootMap, if_neg hnull,
        if_pos hlow]
      rfl
  · have hnone : bootMap va = none := by
      rw [bootMap, if_neg (by omega), if_neg hlow, if_neg (by omega)]
    rw [hnone]
    by_cases hnext : va.toNat < 0x400000
    · -- the page for the next 2 MiB is there, and empty
      have h2o : idxAt va (lbitsAt 2) = 1 := by omega
      have hthird : TableAt k (vaPath va 3) 4 := by
        rw [vaPath_succ, vaPath_succ, vaPath_succ, h2o, h1z, h0]
        exact .next
      exact h.walk_absent hc (by omega) hthird rfl rfl
    · refine h.walk_absent hc (by omega) hsecond h2 ?_
      rw [Site.holds, if_neg (by omega), if_neg (by omega)]

/-! ## `check_pagetable` -/

/-- `vmiter(pagetable, va).pa() == pa`, as an assertion. -/
def checkPa (mem : Mem) (pagetable va pa : Word) (expr : String) : Except Fault Unit :=
  (Vmiter.new mem pagetable va).bind fun it => check (it.pa mem == pa) expr none

/-- `check_pagetable(pagetable)`; `exceptionEntry` is where the linker puts
    `exception_entry`. -/
def checkPagetable (mem : Mem) (k : Site) (exceptionEntry pagetable : Word) : Except Fault Unit :=
  (check (pagetable % pageSize == 0#64)
    "(reinterpret_cast<uintptr_t>(pagetable) % PAGESIZE) == 0" none).bind fun _ =>
  (checkPa mem pagetable exceptionEntry exceptionEntry
    "vmiter(pagetable, reinterpret_cast<uintptr_t>(exception_entry)).pa() == kptr2pa(exception_entry)").bind
      fun _ =>
  (checkPa mem k.addr pagetable pagetable
    "vmiter(kernel_pagetable, reinterpret_cast<uintptr_t>(pagetable)).pa() == kptr2pa(pagetable)").bind
      fun _ =>
  checkPa mem pagetable k.addr k.addr
    "vmiter(pagetable, reinterpret_cast<uintptr_t>(kernel_pagetable)).pa() == kptr2pa(kernel_pagetable)"

/-- A low address is mapped to itself. -/
theorem Maps.pa_low (h : Maps k 512 mem) (hpos : 0x1000 ≤ va.toNat) (hva : va.toNat < 0x200000) :
    (leaf k va).pa mem = va := by
  have hread : (leaf k va).pep.read mem = identity (va.toNat / 4096) :=
    (h 3 (by omega) _ (by omega)).trans (if_pos ⟨by omega, by omega⟩)
  have hpres : (identity (va.toNat / 4096)).getLsbD 0 = true := by
    rw [identity, BitVec.getLsbD_or, show ptePWU.getLsbD 0 = true by decide, Bool.or_true]
  rw [onPath_pa (h.onPath_leaf hva), hread, if_pos hpres]
  exact (hwAddr_small _ _).trans (hwAddr_identity hva)

/-- The check of such an address passes. -/
theorem Maps.checkPa_low (h : Maps k 512 mem) (hpos : 0x1000 ≤ va.toNat) (hva : va.toNat < 0x200000)
    (expr : String) : checkPa mem k.addr va va expr = .ok () := by
  rw [checkPa, h.new_low hva]
  show check ((leaf k va).pa mem == va) expr none = .ok ()
  rw [check, h.pa_low hpos hva, if_pos (beq_self_eq_true va)]

/-- `check_pagetable` passes. -/
theorem Maps.check_kernel (h : Maps k 512 mem) {e : Word} (hpos : 0x1000 ≤ e.toNat)
    (he : e.toNat < 0x200000) : checkPagetable mem k e k.addr = .ok () := by
  have hstart := k.start
  have hlow := k.low
  have hal : (k.addr % pageSize == 0#64) = true := by
    rw [beq_iff_eq]
    refine BitVec.eq_of_toNat_eq ?_
    rw [BitVec.toNat_umod]
    exact k.aligned
  have hself : ∀ expr, checkPa mem k.addr k.addr k.addr expr = .ok () :=
    h.checkPa_low (by omega) (by omega)
  rw [checkPagetable, check, if_pos hal, h.checkPa_low hpos he, hself, hself]
  rfl

/-- **THE KERNEL BOOTS INTO THE IDENTITY MAPPING**: the tables are built
    without a failed assertion or an allocation, whatever is in memory before,
    they pass `check_pagetable`, and at every address the processor finds what
    `bootMap` says. -/
theorem bootTables_walk (kalloc : Kalloc) (k : Site) (mem : Mem) :
    ∃ mem', Returns (bootTables kalloc k mem) (.ok mem')
      ∧ (∀ va, hwWalk mem' k.addr va = bootMap va)
      ∧ ∀ e : Word, 0x1000 ≤ e.toNat → e.toNat < 0x200000 →
          checkPagetable mem' k e k.addr = .ok () := by
  obtain ⟨mem', h, hrun⟩ := bootTables_returns kalloc k mem
  exact ⟨mem', hrun, h.hwWalk_eq, fun _ => h.check_kernel⟩

end BootTables
