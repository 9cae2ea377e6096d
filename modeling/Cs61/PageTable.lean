import Cs61.PostOrder
import Cs61.WordMasks
import Mathlib.Tactic.IntervalCases

/-! # x86-64 page tables in memory

    The kernel sees physical memory through an identity mapping, so a pointer
    is a physical address.  A page-table page is 512 entries of eight bytes; an
    entry with `PTE_P` and without `PTE_PS` points to a page one level down.

    This file fixes the constants, the reading of entries, and the page-table
    pages as a tree: `child mem t i` is the page that entry `i` of `t` points
    to, and `table mem root p` the page at path `p`.  The path of an address
    through the tree is `vaPath va d`, its first `d` indices. -/

namespace PageTable

open WordMasks PostOrder

/-! ## Constants -/

/-- Addresses and entries have 64 bits. -/
abbrev Word := BitVec 64

/-- Physical memory, by the address of each aligned 64-bit word. -/
abbrev Mem := Word → Word

/-- `PAGEOFFBITS`. -/
def pageOffBits : Nat := 12
/-- `PAGEINDEXBITS`. -/
def pageIndexBits : Nat := 9
/-- `PAGESIZE`. -/
def pageSize : Word := 1#64 <<< pageOffBits

/-- `PTE_P`: present. -/
def pteP : Word := 0x1#64
/-- `PTE_W`: can be written. -/
def pteW : Word := 0x2#64
/-- `PTE_U`: for user mode. -/
def pteU : Word := 0x4#64
/-- `PTE_PS`: a large page. -/
def ptePS : Word := 0x80#64
/-- `PTE_PWU`. -/
def ptePWU : Word := pteP ||| pteW ||| pteU
/-- `PTE_PAMASK`: the physical address in an entry. -/
def ptePAMask : Word := 0x000FFFFFFFFFF000#64

/-- `VA_LOWMAX`. -/
def vaLowMax : Word := 0x00007FFFFFFFFFFF#64
/-- `VA_LOWEND`. -/
def vaLowEnd : Word := 0x0000800000000000#64
/-- `VA_HIGHMIN`. -/
def vaHighMin : Word := 0xFFFF800000000000#64

/-- `va_is_canonical(va)`. -/
def vaIsCanonical (va : Word) : Bool :=
  decide (va ≤ vaLowMax) || decide (vaHighMin ≤ va)

/-! ## Entries -/

/-- `&pt->entry[idx]`. -/
def entryPtr (pt idx : Word) : Word := pt + 8#64 * idx

/-- `(pe & (PTE_P | PTE_PS)) == PTE_P`. -/
def isTable (pe : Word) : Bool := pe &&& (pteP ||| ptePS) == pteP

/-- The page-table page an entry points to, if it points to one. -/
def pointee (pe : Word) : Option Word :=
  if isTable pe = true then some (pe &&& ptePAMask) else none

/-- The page-table page that entry `i` of page `t` points to. -/
def child (mem : Mem) (t : Word) (i : Nat) : Option Word :=
  pointee (mem (entryPtr t (BitVec.ofNat 64 i)))

/-- The page-table page at a path, innermost index first. -/
abbrev table (mem : Mem) (root : Word) (p : List Nat) : Option Word :=
  node (child mem) root p

/-- Page-aligned addresses. -/
def PageAligned (a : Word) : Prop := a.toNat % 4096 = 0

/-- The page-table pages under `root` form a tree. -/
structure PageTree (mem : Mem) (root : Word) : Prop where
  aligned : PageAligned root
  tree : IsTree (child mem) 512 3 root

/-- Physical addresses below 4 GiB, in the entries that `vmiter::down` checks:
    those of the two lower levels. -/
def PhysLow (mem : Mem) (root : Word) : Prop :=
  ∀ p t i, IsPath 512 3 p → 2 ≤ p.length → table mem root p = some t → i < 512 →
    (mem (entryPtr t (BitVec.ofNat 64 i)) &&& ptePAMask).toNat < 2 ^ 32

/-- A page table the iterators may walk. -/
structure WellFormed (mem : Mem) (root : Word) : Prop extends PageTree mem root where
  low : PhysLow mem root

/-! ## Reading entries -/

theorem ptePAMask_eq : ptePAMask = lowMask 64 52 &&& ~~~(lowMask 64 12) := by decide

theorem toNat_and_paMask (pe : Word) :
    (pe &&& ptePAMask).toNat = 4096 * (pe.toNat % 2 ^ 52 / 4096) := by
  rw [ptePAMask_eq, toNat_and_field pe (by omega)]
  rfl

theorem pageAligned_and_paMask (pe : Word) : PageAligned (pe &&& ptePAMask) := by
  rw [PageAligned, toNat_and_paMask, Nat.mul_mod_right]

/-- An entry points to a page-table page when bit 0 is set and bit 7 is not. -/
theorem isTable_iff (pe : Word) :
    isTable pe = true ↔ pe.getLsbD 0 = true ∧ pe.getLsbD 7 = false := by
  have hsplit : pteP ||| ptePS = BitVec.twoPow 64 0 ||| BitVec.twoPow 64 7 := by decide
  rw [isTable, beq_iff_eq, hsplit, BitVec.and_or_distrib_left, BitVec.and_twoPow,
    BitVec.and_twoPow]
  cases pe.getLsbD 0 <;> cases pe.getLsbD 7 <;> decide

/-- An empty entry points to no page table. -/
theorem isTable_zero : isTable 0#64 = false := by decide

/-- `*pep & PTE_P`, as a test. -/
theorem and_pteP_ne_zero_iff (pe : Word) : pe &&& pteP ≠ 0#64 ↔ pe.getLsbD 0 = true := by
  have hp : pteP = BitVec.twoPow 64 0 := by decide
  rw [hp, Ne, and_twoPow_eq_zero_iff pe (by omega), Bool.not_eq_false]

/-- The entries that point to a page table, and to which. -/
theorem pointee_eq_some {pe c : Word} :
    pointee pe = some c ↔ isTable pe = true ∧ pe &&& ptePAMask = c := by
  rw [pointee]
  by_cases h : isTable pe = true
  · rw [if_pos h]
    exact ⟨fun hc => ⟨h, Option.some.inj hc⟩, fun hc => congrArg some hc.2⟩
  · rw [if_neg h]
    exact ⟨fun hc => (nomatch hc), fun hc => absurd hc.1 h⟩

theorem pointee_eq_none {pe : Word} : pointee pe = none ↔ isTable pe = false := by
  rw [pointee]
  by_cases h : isTable pe = true
  · rw [if_pos h, h]
    exact ⟨fun hc => (nomatch hc), fun hc => (nomatch hc)⟩
  · rw [if_neg h]
    exact ⟨fun _ => Bool.eq_false_iff.mpr h, fun _ => rfl⟩

/-- Every page-table page is page-aligned. -/
theorem table_aligned {mem : Mem} {root t : Word} {p : List Nat}
    (hroot : PageAligned root) (h : table mem root p = some t) : PageAligned t := by
  cases p with
  | nil => rw [← Option.some.inj h]; exact hroot
  | cons i p =>
      obtain ⟨s, -, hs⟩ := node_tail (child mem) h
      rw [← (pointee_eq_some.mp hs).2]
      exact pageAligned_and_paMask _

/-- The address of an entry. -/
theorem toNat_entryPtr {t : Word} {i : Nat} (ht : PageAligned t) (hi : i < 512) :
    (entryPtr t (BitVec.ofNat 64 i)).toNat = t.toNat + 8 * i := by
  have ht' : t.toNat % 4096 = 0 := ht
  have hlt := t.isLt
  rw [entryPtr, BitVec.toNat_add, BitVec.toNat_mul, BitVec.toNat_ofNat, BitVec.toNat_ofNat]
  omega

/-- Different entries have different addresses. -/
theorem entryPtr_inj {t t' : Word} {i i' : Nat} (ht : PageAligned t) (ht' : PageAligned t')
    (hi : i < 512) (hi' : i' < 512)
    (h : entryPtr t (BitVec.ofNat 64 i) = entryPtr t' (BitVec.ofNat 64 i')) :
    t = t' ∧ i = i' := by
  have h1 := toNat_entryPtr ht hi
  have h2 := toNat_entryPtr ht' hi'
  rw [h, h2] at h1
  have hm : t.toNat % 4096 = 0 := ht
  have hm' : t'.toNat % 4096 = 0 := ht'
  exact ⟨BitVec.eq_of_toNat_eq (by omega), by omega⟩

/-- Flags added to a page-aligned address leave it readable. -/
theorem toNat_or_of_aligned {pa x : Word} (hpa : PageAligned pa) (hx : x.toNat < 4096) :
    (pa ||| x).toNat = pa.toNat + x.toNat := by
  have hpa' : pa.toNat % 4096 = 0 := hpa
  have hquot : pa.toNat = 2 ^ 12 * (pa.toNat / 4096) := by omega
  rw [BitVec.toNat_or, hquot, ← Nat.two_pow_add_eq_or_of_lt (by omega)]

/-- The address comes back out of an entry that it was written into. -/
theorem or_and_paMask {pa x : Word} (hpa : PageAligned pa) (hlow : pa.toNat < 2 ^ 52)
    (hx : x.toNat < 4096) : (pa ||| x) &&& ptePAMask = pa := by
  have hpa' : pa.toNat % 4096 = 0 := hpa
  refine BitVec.eq_of_toNat_eq ?_
  rw [toNat_and_paMask, toNat_or_of_aligned hpa hx]
  omega

theorem getLsbD_of_aligned {pa : Word} (hpa : PageAligned pa) {k : Nat} (hk : k < 12) :
    pa.getLsbD k = false := by
  have hpa' : pa.toNat % 4096 = 0 := hpa
  have hquot : pa.toNat = 2 ^ 12 * (pa.toNat / 4096) := by omega
  rw [← BitVec.testBit_toNat, hquot, Nat.testBit_two_pow_mul, decide_eq_false (by omega),
    Bool.false_and]

/-- The entry `try_map` links a page with. -/
theorem pointee_link {pg : Word} (hpg : PageAligned pg) (hlow : pg.toNat < 2 ^ 52) :
    pointee (pg ||| pteP ||| pteW ||| pteU) = some pg := by
  have hassoc : pg ||| pteP ||| pteW ||| pteU = pg ||| ptePWU := by
    rw [BitVec.or_assoc, BitVec.or_assoc, ptePWU, BitVec.or_assoc]
  refine pointee_eq_some.mpr ⟨(isTable_iff _).mpr ?_, ?_⟩
  · rw [hassoc, BitVec.getLsbD_or, BitVec.getLsbD_or, getLsbD_of_aligned hpg (by omega),
      getLsbD_of_aligned hpg (by omega)]
    decide
  · rw [hassoc, or_and_paMask hpg hlow (by decide)]

/-! ## The path of an address -/

/-- The number of address bits below the index of depth `d`: 39, 30, 21, 12. -/
def lbitsAt (d : Nat) : Nat := pageOffBits + (3 - d) * pageIndexBits

/-- The index of an address in a table whose entries map `2 ^ lbits` bytes. -/
def idxAt (va : Word) (lbits : Nat) : Nat := va.toNat / 2 ^ lbits % 512

/-- The first `d` indices of an address, innermost first. -/
def vaPath (va : Word) : Nat → List Nat
  | 0 => []
  | d + 1 => idxAt va (lbitsAt d) :: vaPath va d

@[simp] theorem vaPath_zero (va : Word) : vaPath va 0 = [] := rfl

theorem vaPath_succ (va : Word) (d : Nat) :
    vaPath va (d + 1) = idxAt va (lbitsAt d) :: vaPath va d := rfl

theorem idxAt_lt (va : Word) (lbits : Nat) : idxAt va lbits < 512 :=
  Nat.mod_lt _ (by omega)

@[simp] theorem length_vaPath (va : Word) (d : Nat) : (vaPath va d).length = d := by
  induction d with
  | zero => rfl
  | succ d ih => rw [vaPath_succ, List.length_cons, ih]

/-- The indices of an address are a path down the table. -/
theorem isPath_vaPath (va : Word) (d : Nat) : IsPath 512 d (vaPath va d) := by
  induction d with
  | zero => exact IsPath.nil 0
  | succ d ih => exact ih.cons (idxAt_lt va _)

/-- A shorter path of an address is a suffix of a longer one. -/
theorem vaPath_suffix (va : Word) {d e : Nat} (h : d ≤ e) : vaPath va d <:+ vaPath va e := by
  induction h with
  | refl => exact List.suffix_refl _
  | step _ ih => exact ih.trans (List.suffix_cons _ _)

/-- The last component of a path is the root index. -/
theorem vaPath_root (va : Word) (d : Nat) :
    ∃ q, IsPath 512 d q ∧ vaPath va (d + 1) = q ++ [idxAt va (lbitsAt 0)] := by
  induction d with
  | zero => exact ⟨[], IsPath.nil 0, rfl⟩
  | succ d ih =>
      obtain ⟨q, hq, heq⟩ := ih
      refine ⟨idxAt va (lbitsAt (d + 1)) :: q, hq.cons (idxAt_lt va _), ?_⟩
      rw [vaPath_succ, heq]
      rfl

theorem lbitsAt_succ {d : Nat} (h : d < 3) : lbitsAt (d + 1) + 9 = lbitsAt d := by
  simp only [lbitsAt, pageOffBits, pageIndexBits]
  omega

/-- Addresses that agree above a level have the same path down to it. -/
theorem vaPath_congr {va va' : Word} {d : Nat} (hd : d ≤ 3)
    (h : va.toNat / 2 ^ (lbitsAt d + 9) = va'.toNat / 2 ^ (lbitsAt d + 9)) :
    vaPath va d = vaPath va' d := by
  induction d with
  | zero => rfl
  | succ d ih =>
      rw [lbitsAt_succ (by omega)] at h
      have hup : va.toNat / 2 ^ (lbitsAt d + 9) = va'.toNat / 2 ^ (lbitsAt d + 9) := by
        rw [Nat.pow_add, ← Nat.div_div_eq_div_mul, ← Nat.div_div_eq_div_mul, h]
      rw [vaPath_succ, vaPath_succ, ih (by omega) hup, idxAt, idxAt, h]

/-- Addresses of one range of depth `d` go through the same entry. -/
theorem vaPath_range {va va' : Word} {d : Nat} (hd : d ≤ 3)
    (h : va.toNat / 2 ^ lbitsAt d = va'.toNat / 2 ^ lbitsAt d) :
    vaPath va (d + 1) = vaPath va' (d + 1) := by
  have hup : va.toNat / 2 ^ (lbitsAt d + 9) = va'.toNat / 2 ^ (lbitsAt d + 9) := by
    rw [Nat.pow_add, ← Nat.div_div_eq_div_mul, ← Nat.div_div_eq_div_mul, h]
  rw [vaPath_succ, vaPath_succ, vaPath_congr hd hup, idxAt, idxAt, h]

/-- Addresses in the same page have the same path. -/
theorem vaPath_page {va va' : Word} (h : va.toNat / 4096 = va'.toNat / 4096) (d : Nat) :
    vaPath va d = vaPath va' d := by
  induction d with
  | zero => rfl
  | succ d ih =>
      have hidx : idxAt va (lbitsAt d) = idxAt va' (lbitsAt d) := by
        rw [idxAt, idxAt, lbitsAt, pageOffBits, Nat.pow_add, ← Nat.div_div_eq_div_mul,
          ← Nat.div_div_eq_div_mul, show 2 ^ 12 = 4096 from rfl, h]
      rw [vaPath_succ, vaPath_succ, ih, hidx]

theorem and_0x1FF (va : Word) (lbits : Nat) :
    (va >>> lbits) &&& 0x1FF#64 = BitVec.ofNat 64 (idxAt va lbits) := by
  have hmask : 0x1FF#64 = lowMask 64 9 := by decide
  refine BitVec.eq_of_toNat_eq ?_
  rw [hmask, toNat_shiftRight_and_lowMask va (by omega), BitVec.toNat_ofNat, idxAt]
  have := Nat.mod_lt (va.toNat / 2 ^ lbits) (show 0 < 512 by omega)
  omega

/-! ## Canonical addresses -/

/-- The canonical addresses are the two halves of 2 ^ 47 bytes. -/
theorem vaIsCanonical_iff (va : Word) :
    vaIsCanonical va = true ↔ va.toNat < 2 ^ 47 ∨ 2 ^ 64 - 2 ^ 47 ≤ va.toNat := by
  rw [vaIsCanonical, Bool.or_eq_true, decide_eq_true_iff, decide_eq_true_iff,
    BitVec.le_def, BitVec.le_def, vaLowMax, vaHighMin, BitVec.toNat_ofNat, BitVec.toNat_ofNat]
  omega

/-- Canonicity depends on the root index alone. -/
theorem vaIsCanonical_congr {va va' : Word}
    (h : va.toNat / 2 ^ 39 = va'.toNat / 2 ^ 39) : vaIsCanonical va = vaIsCanonical va' := by
  refine Bool.eq_iff_iff.mpr ?_
  rw [vaIsCanonical_iff, vaIsCanonical_iff]
  omega

/-- The addresses of one page are canonical together. -/
theorem vaIsCanonical_page {va va' : Word} (h : va.toNat / 4096 = va'.toNat / 4096) :
    vaIsCanonical va = vaIsCanonical va' :=
  vaIsCanonical_congr (by omega)

/-- Canonical addresses with the same four indices share their page. -/
theorem page_eq_of_vaPath {va va' : Word} (hc : vaIsCanonical va = true)
    (hc' : vaIsCanonical va' = true) (h : vaPath va 4 = vaPath va' 4) :
    va.toNat / 4096 = va'.toNat / 4096 := by
  rw [vaIsCanonical_iff] at hc hc'
  simp only [vaPath, idxAt, lbitsAt, pageOffBits, pageIndexBits, List.cons.injEq] at h
  obtain ⟨h3, h2, h1, h0, -⟩ := h
  norm_num at h0 h1 h2 h3
  have hlt := va.isLt
  have hlt' := va'.isLt
  omega

/-! ## A small page table

    Root page 0x1000, one page of each lower level, a 4 KiB page at 0x1000, a
    2 MiB page at 0x200000 and a 1 GiB page at 0x40000000. -/

/-- A table with one entry, that leads to another table. -/
def smallTable : Mem := fun a =>
  if a = 0x1000#64 then 0x2007#64
  else if a = 0x2000#64 then 0x3007#64
  else if a = 0x2008#64 then 0x40000083#64
  else if a = 0x3000#64 then 0x4007#64
  else if a = 0x3008#64 then 0x200087#64
  else if a = 0x4008#64 then 0x5007#64
  else 0#64

/-- The entries that are not zero: four that point to a page, and two large pages. -/
theorem smallTable_cases (a : Word) :
    (a = 0x1000#64 ∧ smallTable a = 0x2007#64) ∨ (a = 0x2000#64 ∧ smallTable a = 0x3007#64)
      ∨ (a = 0x3000#64 ∧ smallTable a = 0x4007#64) ∨ (a = 0x4008#64 ∧ smallTable a = 0x5007#64)
      ∨ (a = 0x2008#64 ∧ smallTable a = 0x40000083#64)
      ∨ (a = 0x3008#64 ∧ smallTable a = 0x200087#64) ∨ smallTable a = 0#64 := by
  unfold smallTable
  split_ifs <;> simp_all

/-- All the tables below the example's. -/
theorem smallTable_child {t c : Word} {i : Nat} (ht : PageAligned t) (hi : i < 512)
    (h : child smallTable t i = some c) :
    (t = 0x1000#64 ∧ i = 0 ∧ c = 0x2000#64) ∨ (t = 0x2000#64 ∧ i = 0 ∧ c = 0x3000#64)
      ∨ (t = 0x3000#64 ∧ i = 0 ∧ c = 0x4000#64) ∨ (t = 0x4000#64 ∧ i = 1 ∧ c = 0x5000#64) := by
  have hslot : ∀ (b : Word) (j : Nat), j < 512 → b.toNat % 4096 = 0 →
      entryPtr t (BitVec.ofNat 64 i) = entryPtr b (BitVec.ofNat 64 j) → t = b ∧ i = j := by
    intro b j hj hb hab
    exact entryPtr_inj ht hb hi hj hab
  obtain ⟨htable, hc⟩ := pointee_eq_some.mp h
  rcases smallTable_cases (entryPtr t (BitVec.ofNat 64 i)) with
    ⟨ha, hm⟩ | ⟨ha, hm⟩ | ⟨ha, hm⟩ | ⟨ha, hm⟩ | ⟨-, hm⟩ | ⟨-, hm⟩ | hm <;>
    rw [hm] at htable hc
  · obtain ⟨rfl, rfl⟩ := hslot 0x1000#64 0 (by omega) (by decide) ha
    exact Or.inl ⟨rfl, rfl, hc.symm⟩
  · obtain ⟨rfl, rfl⟩ := hslot 0x2000#64 0 (by omega) (by decide) ha
    exact Or.inr (Or.inl ⟨rfl, rfl, hc.symm⟩)
  · obtain ⟨rfl, rfl⟩ := hslot 0x3000#64 0 (by omega) (by decide) ha
    exact Or.inr (Or.inr (Or.inl ⟨rfl, rfl, hc.symm⟩))
  · obtain ⟨rfl, rfl⟩ := hslot 0x4000#64 1 (by omega) (by decide) ha
    exact Or.inr (Or.inr (Or.inr ⟨rfl, rfl, hc.symm⟩))
  all_goals exact absurd htable (by decide)

/-- The pages of the table, and the frame at 0x5000. -/
theorem smallTable_page {p : List Nat} {t : Word} (hp : ∀ i ∈ p, i < 512)
    (h : table smallTable 0x1000#64 p = some t) : t.toNat ≤ 0x5000 := by
  cases p with
  | nil =>
      rw [← Option.some.inj h]
      exact (show (0x1000#64).toNat ≤ 0x5000 by decide)
  | cons i p =>
      obtain ⟨s, hs, hc⟩ := node_tail (child smallTable) h
      have hal : PageAligned s := table_aligned (show PageAligned 0x1000#64 from rfl) hs
      rcases smallTable_child hal (hp i List.mem_cons_self) hc with
        ⟨-, -, rfl⟩ | ⟨-, -, rfl⟩ | ⟨-, -, rfl⟩ | ⟨-, -, rfl⟩ <;> decide

/-- The example is a well-formed page table. -/
theorem smallTable_wellFormed : WellFormed smallTable 0x1000#64 := by
  refine { aligned := rfl, tree := ?_, low := ?_ }
  · refine isTree_of_unique_parent (child smallTable) PageAligned rfl ?_ ?_
    · intro t i c ht hi hc
      refine ⟨(pointee_eq_some.mp hc).2 ▸ pageAligned_and_paMask _, ?_⟩
      rcases smallTable_child ht hi hc with
        ⟨-, -, rfl⟩ | ⟨-, -, rfl⟩ | ⟨-, -, rfl⟩ | ⟨-, -, rfl⟩ <;> decide
    · intro t t' i i' c ht ht' hi hi' hc hc'
      rcases smallTable_child ht hi hc with
        ⟨rfl, rfl, rfl⟩ | ⟨rfl, rfl, rfl⟩ | ⟨rfl, rfl, rfl⟩ | ⟨rfl, rfl, rfl⟩ <;>
        rcases smallTable_child ht' hi' hc' with
          ⟨rfl, rfl, h⟩ | ⟨rfl, rfl, h⟩ | ⟨rfl, rfl, h⟩ | ⟨rfl, rfl, h⟩ <;>
        first | exact ⟨rfl, rfl⟩ | exact absurd h (by decide)
  · intro p t i _ _ _ _
    rcases smallTable_cases (entryPtr t (BitVec.ofNat 64 i)) with
      ⟨-, h⟩ | ⟨-, h⟩ | ⟨-, h⟩ | ⟨-, h⟩ | ⟨-, h⟩ | ⟨-, h⟩ | h <;> rw [h] <;> decide

end PageTable
