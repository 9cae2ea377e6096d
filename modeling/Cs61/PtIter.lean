import Cs61.VmQueries
import Cs61.LoopRules

/-! # `ptiter` — the iterator over page-table pages

    `ptiter::down` is one loop that descends to the next page-table page, steps
    to the next entry, or goes up one level by restarting from the root with a
    stop level.  The loop carries the list of the page-table pages it has read,
    which the code does not have.

    `Rest` says what a loop state still has to yield.  Every pass keeps it
    (`Rest.step`), so that a call of `down` yields the first page of the rest
    (`down_spec`). -/

namespace PtIter

open PageTable PostOrder VmIter WordMasks VmWalk VmQueries LoopRules
open Vmiter (lbitsMask initialLbits doneLbits)

/-! ## The iterator -/

/-- `ptiter`: the root, the entry it is at, and the address and level of that entry. -/
structure Ptiter where
  pt : Word
  pep : Word
  lbits : Nat
  va : Word
deriving DecidableEq

/-- The page-table page that holds the entry at `p`. -/
def pageOf (p : Word) : Word := p &&& ~~~(0xFFF#64)

/-- A pass of the loop of `down`: its variables, and the pages read so far. -/
structure Walk where
  it : Ptiter
  skip : Bool
  stopLbits : Nat
  reads : List Word

/-- The pass reads `*pep_`. -/
def Walk.log (w : Walk) : Walk := { w with reads := pageOf w.it.pep :: w.reads }

/-- What a call of `down` leaves: the iterator, and the pages the call read. -/
structure Moved where
  it : Ptiter
  reads : List Word

namespace Ptiter

/-- `done()`. -/
def done (it : Ptiter) : Bool := it.lbits == doneLbits
/-- `pa()`. -/
def pa (mem : Mem) (it : Ptiter) : Word := mem it.pep &&& ptePAMask
/-- `low()`. -/
def low (it : Ptiter) : Bool := decide (it.va ≤ vaLowMax)

/-- `va()`: the start of the range of the page. -/
def baseVa (it : Ptiter) : Word := it.va &&& ~~~lbitsMask it.lbits

/-- Follow `*pep_` one level down. -/
def descend (mem : Mem) (it : Ptiter) : Ptiter :=
  let lbits := it.lbits - pageIndexBits
  { it with
    lbits := lbits
    pep := entryPtr (mem it.pep &&& ptePAMask) ((it.va >>> lbits) &&& 0x1FF#64) }

/-- Back to the root entry for `va_`. -/
def restart (it : Ptiter) : Ptiter :=
  { it with
    lbits := initialLbits
    pep := entryPtr it.pt ((it.va >>> initialLbits) &&& 0x1FF#64) }

end Ptiter

/-- The second half of the loop body of `down`: past the current entry. -/
def pass (w : Walk) : Turn Walk Moved :=
  let va := (w.it.va ||| lbitsMask w.it.lbits) + 1#64
  if (va ^^^ w.it.va) &&& ~~~lbitsMask (w.it.lbits + pageIndexBits) != 0#64 then
    -- up one level
    if va == 0#64 && w.it.lbits == initialLbits then
      .leave { it := { w.it with lbits := doneLbits }, reads := w.reads }
    else
      .again { w with
        it := w.it.restart, skip := false, stopLbits := w.it.lbits + pageIndexBits }
  else
    .again { w with
      it := { w.it with
        pep := w.it.pep + 8#64
        va := if vaIsCanonical va = true then va else vaHighMin }
      skip := false }

/-- The loop body of `down`. -/
def downBody (mem : Mem) (w : Walk) : Turn Walk Moved :=
  if w.it.lbits < doneLbits then
    if w.skip = true then pass w
    else
      if isTable (mem w.it.pep) = true then
        if w.it.lbits = w.stopLbits then .leave { it := w.it, reads := w.log.reads }
        else .again { w.log with it := w.it.descend mem }
      else pass w.log
  else .leave { it := w.it, reads := w.reads }

namespace Ptiter

/-- `down(skip)`. -/
def down (mem : Mem) (skip : Bool) (fuel : Nat) (it : Ptiter) : Option Moved :=
  run (downBody mem) fuel
    { it := it, skip := skip, stopLbits := pageOffBits + pageIndexBits, reads := [] }

/-- `ptiter(pt)`. -/
def new (mem : Mem) (pt : Word) (fuel : Nat) : Option Moved :=
  down mem false fuel { pt := pt, pep := entryPtr pt 0#64, lbits := initialLbits, va := 0#64 }

/-- `next()`. -/
def next (mem : Mem) (fuel : Nat) (it : Ptiter) : Option Moved := it.down mem true fuel

end Ptiter

variable {mem : Mem} {root : Word}

/-! ## Positions -/

/-- The iterator stands at depth `d` of the path of its address. -/
structure At (mem : Mem) (root : Word) (d : Nat) (it : Ptiter) : Prop where
  pt : it.pt = root
  depth : d ≤ 2
  canonical : vaIsCanonical it.va = true
  lbits : it.lbits = lbitsAt d
  slot : ∃ t, table mem root (vaPath it.va d) = some t
    ∧ it.pep = entryPtr t (BitVec.ofNat 64 (idxAt it.va (lbitsAt d)))

/-- An entry is in the page of its table. -/
theorem pageOf_entryPtr {t : Word} {i : Nat} (ht : PageAligned t) (hi : i < 512) :
    pageOf (entryPtr t (BitVec.ofNat 64 i)) = t := by
  have ht' : t.toNat % 4096 = 0 := ht
  have hmask : 0xFFF#64 = lowMask 64 12 := by decide
  refine BitVec.eq_of_toNat_eq ?_
  rw [pageOf, hmask, toNat_and_not_lowMask, toNat_entryPtr ht hi]
  omega

/-- The entry under the iterator, as a child of the page table. -/
theorem At.entry {d : Nat} {it : Ptiter} (h : At mem root d it) :
    table mem root (vaPath it.va (d + 1)) = pointee (mem it.pep) := by
  obtain ⟨t, ht, hpep⟩ := h.slot
  rw [vaPath_succ, table, node_cons_of (child mem) ht, hpep]
  rfl

/-- The page of the entry is the table on the path of the address. -/
theorem At.page {d : Nat} {it : Ptiter} (hroot : PageAligned root) (h : At mem root d it) :
    table mem root (vaPath it.va d) = some (pageOf it.pep) := by
  obtain ⟨t, ht, hpep⟩ := h.slot
  rw [hpep, pageOf_entryPtr (table_aligned hroot ht) (idxAt_lt _ _)]
  exact ht

/-- `pa()` is the page the entry points to. -/
theorem At.pa_eq {d : Nat} {it : Ptiter} {c : Word} (h : At mem root d it)
    (hc : table mem root (vaPath it.va (d + 1)) = some c) : it.pa mem = c := by
  rw [h.entry] at hc
  exact (pointee_eq_some.mp hc).2

/-- An iterator at an entry is not done. -/
theorem At.not_done {d : Nat} {it : Ptiter} (h : At mem root d it) : it.lbits < doneLbits := by
  have := lbitsAt_le d
  rw [h.lbits, doneLbits]
  omega

/-- Following a page-table entry. -/
theorem At.descend {d : Nat} {it : Ptiter} {c : Word} (h : At mem root d it) (hd : d < 2)
    (hc : table mem root (vaPath it.va (d + 1)) = some c) :
    At mem root (d + 1) (it.descend mem) := by
  have hlb : it.lbits - pageIndexBits = lbitsAt (d + 1) := by
    have := lbitsAt_succ (show d < 3 by omega)
    rw [h.lbits, pageIndexBits]
    omega
  refine ⟨h.pt, hd, h.canonical, hlb, c, hc, ?_⟩
  show entryPtr (it.pa mem) ((it.va >>> (it.lbits - pageIndexBits)) &&& 0x1FF#64) = _
  rw [h.pa_eq hc, hlb, and_0x1FF]
  rfl

/-- Restarting from the root. -/
theorem At.restart {d : Nat} {it : Ptiter} (h : At mem root d it) :
    At mem root 0 it.restart := by
  refine ⟨h.pt, Nat.zero_le 2, h.canonical, rfl, root, rfl, ?_⟩
  show entryPtr it.pt ((it.va >>> initialLbits) &&& 0x1FF#64) = _
  rw [h.pt, and_0x1FF]
  rfl

/-! ## The address arithmetic of `pass` -/

theorem not_lbitsMask {l : Nat} (h : l < 64) : ~~~lbitsMask l = ~~~(0#64) <<< l := by
  rw [lbitsMask_eq h, not_lowMask]

/-- The address after the range of an entry. -/
def nextVa (va : Word) (lbits : Nat) : Word := (va ||| lbitsMask lbits) + 1#64

/-- The test for going up: the next entry is in another page-table page. -/
theorem leavesPage_iff {va : Word} {d : Nat} :
    ((nextVa va (lbitsAt d) ^^^ va) &&& ~~~lbitsMask (lbitsAt d + pageIndexBits) != 0#64) = true
      ↔ (nextVa va (lbitsAt d)).toNat / 2 ^ (lbitsAt d + 9) ≠ va.toNat / 2 ^ (lbitsAt d + 9) := by
  have hle := lbitsAt_le d
  rw [bne_iff_ne, Ne, not_lbitsMask (by rw [pageIndexBits]; omega), xor_and_high_eq_zero]
  rfl

/-- The address behind the range of an entry. -/
theorem toNat_nextVa (va : Word) (d : Nat) :
    (nextVa va (lbitsAt d)).toNat = 2 ^ lbitsAt d * (va.toNat / 2 ^ lbitsAt d + 1) % 2 ^ 64 := by
  have hle := lbitsAt_le d
  rw [nextVa, toNat_or_lbitsMask_succ va (by omega)]

/-- At the last entry of a page the test says up, and at the end of the root
    page the address has wrapped around. -/
theorem nextVa_last {va : Word} {d : Nat} (hd : d ≤ 2) (hc : vaIsCanonical va = true)
    (hi : idxAt va (lbitsAt d) = 511) :
    (nextVa va (lbitsAt d)).toNat / 2 ^ (lbitsAt d + 9) ≠ va.toNat / 2 ^ (lbitsAt d + 9)
      ∧ (d = 0 → nextVa va (lbitsAt d) = 0#64 ∧ 2 ^ 47 ≤ va.toNat) := by
  have hnat := toNat_nextVa va d
  have hva := va.isLt
  rw [vaIsCanonical_iff] at hc
  rw [idxAt] at hi
  obtain rfl | rfl | rfl : d = 0 ∨ d = 1 ∨ d = 2 := by omega
  · rw [show lbitsAt 0 = 39 from rfl] at *
    refine ⟨by omega, fun _ => ⟨BitVec.eq_of_toNat_eq ?_, by omega⟩⟩
    rw [hnat, show (0#64).toNat = 0 from rfl]
    omega
  · rw [show lbitsAt 1 = 30 from rfl] at *
    exact ⟨by omega, fun h => absurd h (by omega)⟩
  · rw [show lbitsAt 2 = 21 from rfl] at *
    exact ⟨by omega, fun h => absurd h (by omega)⟩

/-- Where the iterator goes within a page: past the hole, if need be. -/
def siblingVa (va : Word) (lbits : Nat) : Word :=
  if vaIsCanonical (nextVa va lbits) = true then nextVa va lbits else vaHighMin

/-- Before the last entry the test says stay, and the next entry follows. -/
theorem nextVa_sibling {va : Word} {d : Nat} (hd : d ≤ 2) (hc : vaIsCanonical va = true)
    (hi : idxAt va (lbitsAt d) < 511) :
    (nextVa va (lbitsAt d)).toNat / 2 ^ (lbitsAt d + 9) = va.toNat / 2 ^ (lbitsAt d + 9)
      ∧ vaIsCanonical (siblingVa va (lbitsAt d)) = true
      ∧ va.toNat < (siblingVa va (lbitsAt d)).toNat
      ∧ (siblingVa va (lbitsAt d)).toNat % 2 ^ lbitsAt d = 0
      ∧ vaPath (siblingVa va (lbitsAt d)) d = vaPath va d
      ∧ idxAt (siblingVa va (lbitsAt d)) (lbitsAt d) = idxAt va (lbitsAt d) + 1 := by
  have hnat := toNat_nextVa va d
  have hva := va.isLt
  have hhigh : vaHighMin.toNat = 2 ^ 64 - 2 ^ 47 := rfl
  have hsib : (siblingVa va (lbitsAt d)).toNat
      = if vaIsCanonical (nextVa va (lbitsAt d)) = true then (nextVa va (lbitsAt d)).toNat
        else 2 ^ 64 - 2 ^ 47 := by
    rw [siblingVa, apply_ite BitVec.toNat, hhigh]
  have hpath : (siblingVa va (lbitsAt d)).toNat / 2 ^ (lbitsAt d + 9)
      = va.toNat / 2 ^ (lbitsAt d + 9) ∨ d = 0 →
      vaPath (siblingVa va (lbitsAt d)) d = vaPath va d := by
    rintro (h | rfl)
    · exact vaPath_congr (by omega) h
    · rfl
  rw [vaIsCanonical_iff] at hc
  rw [idxAt] at hi
  simp only [vaIsCanonical_iff, idxAt, hsib] at *
  obtain rfl | rfl | rfl : d = 0 ∨ d = 1 ∨ d = 2 := by omega
  · rw [show lbitsAt 0 = 39 from rfl] at *
    split <;> refine ⟨by omega, by omega, by omega, by omega, hpath (Or.inr rfl), by omega⟩
  · rw [show lbitsAt 1 = 30 from rfl] at *
    have hcn : (nextVa va 30).toNat < 2 ^ 47 ∨ 2 ^ 64 - 2 ^ 47 ≤ (nextVa va 30).toNat := by omega
    rw [if_pos hcn] at *
    exact ⟨by omega, by omega, by omega, by omega, hpath (Or.inl (by omega)), by omega⟩
  · rw [show lbitsAt 2 = 21 from rfl] at *
    have hcn : (nextVa va 21).toNat < 2 ^ 47 ∨ 2 ^ 64 - 2 ^ 47 ≤ (nextVa va 21).toNat := by omega
    rw [if_pos hcn] at *
    exact ⟨by omega, by omega, by omega, by omega, hpath (Or.inl (by omega)), by omega⟩

/-! ## What is left to yield -/

/-- The pages after the subtree under the entry of depth `d` for `va`. -/
abbrev afterPath (mem : Mem) (root va : Word) (d : Nat) : List Word :=
  after (child mem) 512 3 root (vaPath va (d + 1))

/-- The pages that a state of the loop still has to yield. -/
inductive Rest (mem : Mem) (root : Word) (w : Walk) : List Word → Prop where
  /-- The subtree under the current entry is done, its page included. -/
  | skipping {d : Nat} (pos : At mem root d w.it) (skip : w.skip = true)
      (stop : w.stopLbits = lbitsAt 2) : Rest mem root w (afterPath mem root w.it.va d)
  /-- Nothing under the current entry is done. -/
  | fresh {d : Nat} (pos : At mem root d w.it) (skip : w.skip = false)
      (stop : w.stopLbits = lbitsAt 2) (aligned : w.it.va.toNat % 2 ^ lbitsAt d = 0) :
      Rest mem root w (listed (child mem) 512 (2 - d) (table mem root (vaPath w.it.va (d + 1)))
        ++ afterPath mem root w.it.va d)
  /-- On the way down again to page `c`, under which everything is done. -/
  | climbing {k e : Nat} {c : Word} (pos : At mem root k w.it) (skip : w.skip = false)
      (stop : w.stopLbits = lbitsAt e) (hk : k ≤ e) (he : e ≤ 1)
      (page : table mem root (vaPath w.it.va (e + 1)) = some c) :
      Rest mem root w (c :: afterPath mem root w.it.va e)

/-- The iterator is done, or stands at the first page of the rest. -/
inductive Yields (mem : Mem) (root : Word) (it : Ptiter) : List Word → Prop where
  | done (lbits : it.lbits = doneLbits) (high : 2 ^ 47 ≤ it.va.toNat) : Yields mem root it []
  | page {e : Nat} {c : Word} (pos : At mem root e it)
      (page : table mem root (vaPath it.va (e + 1)) = some c) :
      Yields mem root it (c :: afterPath mem root it.va e)

/-- What a loop state promises of the call it belongs to. -/
structure Promise (mem : Mem) (root : Word) (rest : List Word) (w : Walk) (r : Moved) : Prop where
  yields : Yields mem root r.it rest
  va : w.it.va.toNat ≤ r.it.va.toNat
  reads : ∀ pg ∈ r.reads, pg ∈ w.reads ∨ pg = root ∨ pg ∈ rest

/-- Every pass moves the address up, or comes closer to a page at the same address. -/
def budget (w : Walk) : Nat :=
  (2 ^ 64 - w.it.va.toNat) * 16
    + if w.skip = true then 8
      else (if w.stopLbits = lbitsAt 2 then 4 else 0) + (w.it.lbits - 12) / 9

/-- Levels with the same shift are the same. -/
theorem lbitsAt_inj {d e : Nat} (hd : d ≤ 2) (he : e ≤ 2) : lbitsAt d = lbitsAt e ↔ d = e := by
  simp only [lbitsAt, pageOffBits, pageIndexBits]
  omega

theorem Rest.lbits_le {w : Walk} {rest : List Word} (h : Rest mem root w rest) :
    w.it.lbits ≤ 39 := by
  cases h with
  | skipping pos _ _ => rw [pos.lbits]; exact lbitsAt_le _
  | fresh pos _ _ _ => rw [pos.lbits]; exact lbitsAt_le _
  | climbing pos _ _ _ _ _ => rw [pos.lbits]; exact lbitsAt_le _

theorem levels_lbitsAt {d : Nat} (hd : d ≤ 2) : (lbitsAt d - 12) / 9 = 3 - d := by
  simp only [lbitsAt, pageOffBits, pageIndexBits]
  omega

theorem depth_eq (va : Word) (d : Nat) : 3 - (vaPath va d).length - 1 = 2 - d := by
  rw [length_vaPath]
  omega

/-! ## Passing an entry -/

/-- The next entry of the same page. -/
theorem At.sibling {d : Nat} {it : Ptiter} (h : At mem root d it)
    (hi : idxAt it.va (lbitsAt d) < 511) :
    At mem root d { it with pep := it.pep + 8#64, va := siblingVa it.va (lbitsAt d) } := by
  obtain ⟨-, hcanon, -, -, hpath, hidx⟩ := nextVa_sibling h.depth h.canonical hi
  obtain ⟨t, ht, hpep⟩ := h.slot
  refine ⟨h.pt, h.depth, hcanon, h.lbits, t, ?_, ?_⟩
  · show table mem root (vaPath (siblingVa it.va (lbitsAt d)) d) = some t
    rw [hpath]
    exact ht
  · show it.pep + 8#64 = entryPtr t (BitVec.ofNat 64 (idxAt (siblingVa it.va (lbitsAt d)) _))
    rw [hidx, hpep, entryPtr, entryPtr, BitVec.ofNat_add, BitVec.mul_add, ← BitVec.add_assoc]
    rfl

/-- `pass`, without the shifts. -/
theorem pass_eq (w : Walk) :
    pass w
      = if (nextVa w.it.va w.it.lbits ^^^ w.it.va)
            &&& ~~~lbitsMask (w.it.lbits + pageIndexBits) != 0#64 then
          if nextVa w.it.va w.it.lbits == 0#64 && w.it.lbits == initialLbits then
            .leave { it := { w.it with lbits := doneLbits }, reads := w.reads }
          else
            .again { w with
              it := w.it.restart, skip := false, stopLbits := w.it.lbits + pageIndexBits }
        else
          .again { w with
            it := { w.it with pep := w.it.pep + 8#64, va := siblingVa w.it.va w.it.lbits }
            skip := false } := rfl

/-- Passing an entry whose subtree is done: the rest is what follows it. -/
theorem pass_rest {d : Nat} {w : Walk} (h : At mem root d w.it) (hstop : w.stopLbits = lbitsAt 2) :
    (∃ r, pass w = .leave r ∧ Promise mem root (afterPath mem root w.it.va d) w r)
      ∨ ∃ w', pass w = .again w' ∧ Rest mem root w' (afterPath mem root w.it.va d)
          ∧ w'.reads = w.reads ∧ w'.skip = false ∧ w.it.va.toNat ≤ w'.it.va.toNat
          ∧ (w'.it.va.toNat = w.it.va.toNat → w'.stopLbits ≠ lbitsAt 2 ∧ w'.it.lbits ≤ 39) := by
  obtain ⟨t, ht, -⟩ := h.slot
  have hidx := idxAt_lt w.it.va (lbitsAt d)
  have hle := h.depth
  rw [pass_eq, h.lbits]
  by_cases hlast : idxAt w.it.va (lbitsAt d) = 511
  · obtain ⟨hleaves, hroot0⟩ := nextVa_last h.depth h.canonical hlast
    rw [if_pos (leavesPage_iff.mpr hleaves)]
    by_cases hd : d = 0
    · -- past the last entry of the root page
      subst hd
      obtain ⟨hzero, hhigh⟩ := hroot0 rfl
      have hnil : afterPath mem root w.it.va 0 = [] := by
        rw [afterPath, vaPath_succ, hlast]
        exact after_root (child mem) 512 (by omega)
      refine Or.inl ⟨_, if_pos ?_, ?_⟩
      · rw [Bool.and_eq_true, beq_iff_eq, beq_iff_eq]
        exact ⟨hzero, rfl⟩
      · rw [hnil]
        exact ⟨.done rfl hhigh, Nat.le_refl _, fun pg hpg => Or.inl hpg⟩
    · -- up to the page that has just been finished
      obtain ⟨e, rfl⟩ : ∃ e, d = e + 1 := ⟨d - 1, by omega⟩
      have hup : afterPath mem root w.it.va (e + 1) = t :: afterPath mem root w.it.va e := by
        rw [afterPath, vaPath_succ, hlast]
        refine after_up (child mem) 512 ht (by omega) ?_
        rw [vaPath_succ]
        exact List.cons_ne_nil _ _
      have hlb : lbitsAt (e + 1) + pageIndexBits = lbitsAt e := lbitsAt_succ (by omega)
      have hne : lbitsAt e ≠ lbitsAt 2 := by
        rw [Ne, lbitsAt_inj (by omega) (by omega)]
        omega
      refine Or.inr ⟨_, if_neg ?_, ?_, rfl, rfl, Nat.le_refl _, fun _ => ⟨?_, Nat.le_refl 39⟩⟩
      · rw [Bool.and_eq_true, beq_iff_eq, beq_iff_eq]
        rintro ⟨-, hl⟩
        have := (lbitsAt_inj h.depth (show 0 ≤ 2 by omega)).mp hl
        omega
      · rw [hup]
        exact .climbing h.restart rfl hlb (Nat.zero_le e) (by omega) ht
      · rw [hlb]
        exact hne
  · -- on to the next entry of the page
    obtain ⟨hstay, -, hlt, haligned, hpath, hnext⟩ :=
      nextVa_sibling h.depth h.canonical (show idxAt w.it.va (lbitsAt d) < 511 by omega)
    -- the rest of this page follows, and then what follows the page
    have hsib := h.sibling (show idxAt w.it.va (lbitsAt d) < 511 by omega)
    have hrest : afterPath mem root w.it.va d
        = listed (child mem) 512 (2 - d)
            (table mem root (vaPath (siblingVa w.it.va (lbitsAt d)) (d + 1)))
          ++ afterPath mem root (siblingVa w.it.va (lbitsAt d)) d := by
      rw [afterPath, afterPath, vaPath_succ, vaPath_succ, hpath, hnext, ← depth_eq w.it.va d,
        table, node_cons_of (child mem) ht]
      exact after_next (child mem) 512 ht (by omega)
    rw [if_neg (by rw [leavesPage_iff, not_not]; exact hstay)]
    refine Or.inr ⟨_, rfl, ?_, rfl, rfl, Nat.le_of_lt hlt, fun heq => absurd heq (Nat.ne_of_gt hlt)⟩
    rw [hrest]
    exact .fresh hsib rfl hstop haligned

/-! ## One pass of the loop -/

/-- A page that a loop state reads is the root, or is still to be yielded. -/
theorem At.page_mem {d e : Nat} {it : Ptiter} (hroot : PageAligned root)
    (h : At mem root d it) (hde : d ≤ e) :
    pageOf it.pep = root ∨ pageOf it.pep ∈ afterPath mem root it.va e := by
  have hpage := h.page hroot
  cases d with
  | zero => exact Or.inl (Option.some.inj hpage).symm
  | succ d =>
      refine Or.inr (mem_after (child mem) 512 ?_ (vaPath_suffix it.va (by omega)) ?_ hpage)
      · rw [vaPath_succ]
        exact List.cons_ne_nil _ _
      · rw [length_vaPath, length_vaPath]
        omega

/-- A promise for the next pass is one for this pass. -/
theorem Promise.of_step {rest : List Word} {w w' : Walk} {r : Moved}
    (hva : w.it.va.toNat ≤ w'.it.va.toNat)
    (hreads : ∀ pg ∈ w'.reads, pg ∈ w.reads ∨ pg = root ∨ pg ∈ rest)
    (h : Promise mem root rest w' r) : Promise mem root rest w r := by
  refine ⟨h.yields, Nat.le_trans hva h.va, ?_⟩
  intro pg hpg
  rcases h.reads pg hpg with hold | hnew
  · exact hreads pg hold
  · exact Or.inr hnew

/-- What a pass of the loop may do in a state that has `rest` left. -/
def Steps (mem : Mem) (root : Word) (rest : List Word) (w : Walk) (t : Turn Walk Moved) : Prop :=
  (∃ r, t = .leave r ∧ Promise mem root rest w r)
    ∨ ∃ w', t = .again w' ∧ Rest mem root w' rest ∧ budget w' < budget w
        ∧ ∀ r, Promise mem root rest w' r → Promise mem root rest w r

/-- A pass that passes the entry, in terms of `budget`. -/
theorem steps_pass {d : Nat} {w v : Walk} (h : At mem root d w.it)
    (hstop : w.stopLbits = lbitsAt 2) (hit : v.it = w.it) (hskip : v.stopLbits = lbitsAt 2)
    (hreads : ∀ pg ∈ w.reads, pg ∈ v.reads ∨ pg = root ∨ pg ∈ afterPath mem root w.it.va d) :
    Steps mem root (afterPath mem root w.it.va d) v (pass w) := by
  have hbv : (2 ^ 64 - w.it.va.toNat) * 16 + 4 ≤ budget v := by
    rw [budget, hit, if_pos hskip]
    split <;> omega
  rcases pass_rest h hstop with ⟨r, hpass, hr⟩ | ⟨w', hpass, hrest, hread', hsk, hva, hsame⟩
  · refine Or.inl ⟨r, hpass, hr.yields, ?_, ?_⟩
    · rw [hit]
      exact hr.va
    · intro pg hpg
      rcases hr.reads pg hpg with hold | hnew
      · exact hreads pg hold
      · exact Or.inr hnew
  · refine Or.inr ⟨w', hpass, hrest, ?_, ?_⟩
    · refine Nat.lt_of_lt_of_le ?_ hbv
      have hlt := w'.it.va.isLt
      rw [budget, hsk, if_neg Bool.false_ne_true]
      by_cases heq : w'.it.va.toNat = w.it.va.toNat
      · obtain ⟨hne, hlb⟩ := hsame heq
        rw [if_neg hne, heq]
        omega
      · have hlb : w'.it.lbits ≤ 39 := hrest.lbits_le
        have hfour : (if w'.stopLbits = lbitsAt 2 then 4 else 0) ≤ 4 := by
          split <;> omega
        omega
    · intro r hr
      refine hr.of_step (by rw [hit]; exact hva) ?_
      rw [hread']
      exact hreads

section Body

variable {w : Walk} {d : Nat}

/-- The first pass of `next` leaves the entry. -/
theorem downBody_skip (h : w.it.lbits < doneLbits) (hs : w.skip = true) :
    downBody mem w = pass w := by
  rw [downBody, if_pos h, if_pos hs]

/-- An entry without a table is left. -/
theorem downBody_pass (h : w.it.lbits < doneLbits) (hs : w.skip = false)
    (ht : isTable (mem w.it.pep) = false) : downBody mem w = pass w.log := by
  rw [downBody, if_pos h, hs, if_neg Bool.false_ne_true, ht, if_neg Bool.false_ne_true]

/-- A table at the level to stop at is reported. -/
theorem downBody_stop (h : w.it.lbits < doneLbits) (hs : w.skip = false)
    (ht : isTable (mem w.it.pep) = true) (hl : w.it.lbits = w.stopLbits) :
    downBody mem w = .leave { it := w.it, reads := w.log.reads } := by
  rw [downBody, if_pos h, hs, if_neg Bool.false_ne_true, if_pos ht, if_pos hl]

/-- Above the level to stop at, `down` goes into the table. -/
theorem downBody_descend (h : w.it.lbits < doneLbits) (hs : w.skip = false)
    (ht : isTable (mem w.it.pep) = true) (hl : w.it.lbits ≠ w.stopLbits) :
    downBody mem w = .again { w.log with it := w.it.descend mem } := by
  rw [downBody, if_pos h, hs, if_neg Bool.false_ne_true, if_pos ht, if_neg hl]

/-- Descending comes closer to the page. -/
theorem budget_descend (h : At mem root d w.it) (hd : d < 2) (hs : w.skip = false) :
    budget { w.log with it := w.it.descend mem } < budget w := by
  have hdown : (lbitsAt d - pageIndexBits - 12) / 9 = 3 - (d + 1) := by
    rw [← levels_lbitsAt (show d + 1 ≤ 2 by omega), ← lbitsAt_succ (show d < 3 by omega),
      pageIndexBits, Nat.add_sub_cancel]
  rw [budget, budget]
  show (2 ^ 64 - w.it.va.toNat) * 16 + (if w.skip = true then 8 else
    (if w.stopLbits = lbitsAt 2 then 4 else 0) + (w.it.lbits - pageIndexBits - 12) / 9) < _
  rw [hs, if_neg Bool.false_ne_true, h.lbits, levels_lbitsAt h.depth, hdown, if_neg Bool.false_ne_true]
  omega

/-- The page a pass reads is the root, or is still to be yielded. -/
theorem log_reads {e : Nat} (hroot : PageAligned root) (h : At mem root d w.it) (hde : d ≤ e)
    {rest : List Word} (hsub : ∀ pg ∈ afterPath mem root w.it.va e, pg ∈ rest) :
    ∀ pg ∈ w.log.reads, pg ∈ w.reads ∨ pg = root ∨ pg ∈ rest := by
  intro pg hpg
  rcases List.mem_cons.mp hpg with rfl | hold
  · rcases h.page_mem hroot hde with heq | hmem
    · exact Or.inr (Or.inl heq)
    · exact Or.inr (Or.inr (hsub _ hmem))
  · exact Or.inl hold

/-- A promise below a table is one for the way into it. -/
theorem Promise.of_descend {rest : List Word} {r : Moved}
    (hreads : ∀ pg ∈ w.log.reads, pg ∈ w.reads ∨ pg = root ∨ pg ∈ rest)
    (h : Promise mem root rest { w.log with it := w.it.descend mem } r) :
    Promise mem root rest w r :=
  @Promise.of_step mem root rest w { w.log with it := w.it.descend mem } r (Nat.le_refl _) hreads h

/-- A page-table entry whose subtree is untouched: go below it. -/
theorem step_below {c : Word} (hroot : PageAligned root) (h : At mem root d w.it)
    (hs : w.skip = false) (hstop : w.stopLbits = lbitsAt 2)
    (haligned : w.it.va.toNat % 2 ^ lbitsAt d = 0)
    (hc : table mem root (vaPath w.it.va (d + 1)) = some c) :
    Steps mem root (listed (child mem) 512 (2 - d) (some c) ++ afterPath mem root w.it.va d) w
      (downBody mem w) := by
  have hpt := h.entry
  rw [hc] at hpt
  have htab := (pointee_eq_some.mp hpt.symm).1
  have hreads := log_reads hroot h (Nat.le_refl d)
    (fun pg hpg => List.mem_append_right (listed (child mem) 512 (2 - d) (some c)) hpg)
  by_cases hd : d = 2
  · -- the lowest level: nothing lies below
    subst hd
    rw [downBody_stop h.not_done hs htab (h.lbits.trans hstop.symm)]
    exact Or.inl ⟨_, rfl, .page h hc, Nat.le_refl _, hreads⟩
  · have hlt : d < 2 := by have := h.depth; omega
    have hne : w.it.lbits ≠ w.stopLbits := by
      rw [h.lbits, hstop, Ne, lbitsAt_inj h.depth (Nat.le_refl 2)]
      exact hd
    rw [← lbitsAt_succ (show d < 3 by omega), Nat.pow_add] at haligned
    -- the first entry of the page below
    have hidx : idxAt w.it.va (lbitsAt (d + 1)) = 0 := by
      rw [idxAt, show (512 : Nat) = 2 ^ 9 from rfl, ← Nat.mod_mul_right_div_self, haligned,
        Nat.zero_div]
    have hchild : table mem root (vaPath w.it.va (d + 2)) = child mem c 0 := by
      rw [vaPath_succ, hidx, table, node_cons_of (child mem) hc]
    have heq : listed (child mem) 512 (2 - d) (some c) ++ afterPath mem root w.it.va d
        = listed (child mem) 512 (2 - (d + 1)) (table mem root (vaPath w.it.va (d + 2)))
          ++ afterPath mem root w.it.va (d + 1) := by
      rw [hchild, ← depth_eq w.it.va d, ← depth_eq w.it.va (d + 1), afterPath, afterPath,
        vaPath_succ w.it.va (d + 1), hidx]
      exact listed_descend (child mem) 512 hc (by omega) (by rw [length_vaPath]; omega)
    rw [downBody_descend h.not_done hs htab hne]
    refine Or.inr ⟨_, rfl, ?_, budget_descend h hlt hs, fun r => Promise.of_descend hreads⟩
    rw [heq]
    refine .fresh (h.descend hlt hc) hs hstop ?_
    exact Nat.mod_eq_zero_of_dvd (Nat.dvd_trans (Nat.dvd_mul_right _ _)
      (Nat.dvd_of_mod_eq_zero haligned))

/-- On the way down again every entry is a page-table entry. -/
theorem step_climbing {e : Nat} {c : Word} (hroot : PageAligned root) (h : At mem root d w.it)
    (hs : w.skip = false) (hstop : w.stopLbits = lbitsAt e) (hde : d ≤ e) (he : e ≤ 1)
    (hc : table mem root (vaPath w.it.va (e + 1)) = some c) :
    Steps mem root (c :: afterPath mem root w.it.va e) w (downBody mem w) := by
  obtain ⟨b, hb⟩ := table_of_deeper (show d + 1 ≤ e + 1 by omega) hc
  have hpt := h.entry
  rw [hb] at hpt
  have htab := (pointee_eq_some.mp hpt.symm).1
  have hreads := log_reads hroot h hde
    (fun pg hpg => List.mem_cons_of_mem c hpg)
  by_cases heq : d = e
  · subst heq
    rw [downBody_stop h.not_done hs htab (h.lbits.trans hstop.symm)]
    exact Or.inl ⟨_, rfl, .page h hc, Nat.le_refl _, hreads⟩
  · -- not yet at the level to stop at
    have hne : w.it.lbits ≠ w.stopLbits := by
      rw [h.lbits, hstop, Ne, lbitsAt_inj h.depth (by omega)]
      exact heq
    rw [downBody_descend h.not_done hs htab hne]
    exact Or.inr ⟨_, rfl, .climbing (h.descend (by omega) hb) hs hstop (by omega) he hc,
      budget_descend h (by omega) hs, fun r => Promise.of_descend hreads⟩

end Body

/-- **ONE PASS** yields the first page of the rest, or keeps the rest. -/
theorem Rest.step (hroot : PageAligned root) {w : Walk} {rest : List Word}
    (h : Rest mem root w rest) : Steps mem root rest w (downBody mem w) := by
  cases h with
  | skipping pos skip stop =>
      rw [downBody_skip pos.not_done skip]
      exact steps_pass pos stop rfl stop (fun pg hpg => Or.inl hpg)
  | @fresh d pos skip stop aligned =>
      cases hc : table mem root (vaPath w.it.va (d + 1)) with
      | some c => exact step_below hroot pos skip stop aligned hc
      | none =>
          have htab : isTable (mem w.it.pep) = false := by
            rw [pos.entry] at hc
            exact pointee_eq_none.mp hc
          rw [downBody_pass pos.not_done skip htab]
          exact steps_pass pos stop rfl stop
            (log_reads hroot pos (Nat.le_refl d) (fun pg hpg => hpg))
  | climbing pos skip stop hk he page => exact step_climbing hroot pos skip stop hk he page

/-! ## Calls -/

/-- **A CALL OF `down`** ends, and yields the first page of the rest. -/
theorem down_spec (hroot : PageAligned root) {it : Ptiter} {skip : Bool} {rest : List Word}
    (h : Rest mem root
      { it := it, skip := skip, stopLbits := pageOffBits + pageIndexBits, reads := [] } rest) :
    ∃ r, Returns (fun fuel => it.down mem skip fuel) r ∧ Yields mem root r.it rest
      ∧ it.va.toNat ≤ r.it.va.toNat ∧ ∀ pg ∈ r.reads, pg = root ∨ pg ∈ rest := by
  obtain ⟨r, hr, hrun⟩ := @run_measure _ _ (downBody mem) (fun w => Rest mem root w rest) budget
    (Promise mem root rest) (fun w hw => hw.step hroot) _ h
  refine ⟨r, ⟨_, fun fuel hf => hrun fuel hf⟩, hr.yields, hr.va, ?_⟩
  intro pg hpg
  rcases hr.reads pg hpg with hnil | hrest
  · cases hnil
  · exact hrest

/-- The constructor yields the first page of the whole listing. -/
theorem new_spec (mem : Mem) (hroot : PageAligned root) :
    ∃ r, Returns (Ptiter.new mem root) r
      ∧ Yields mem root r.it (below (child mem) 512 3 root) := by
  have hpos : At mem root 0
      { pt := root, pep := entryPtr root 0#64, lbits := initialLbits, va := 0#64 } :=
    ⟨rfl, Nat.zero_le 2, rfl, rfl, root, rfl, by rw [show idxAt 0#64 (lbitsAt 0) = 0 by decide]⟩
  have hpath : vaPath 0#64 (0 + 1) = [0] := by
    rw [vaPath_succ, show idxAt 0#64 (lbitsAt 0) = 0 by decide, vaPath_zero]
  have hrest : Rest mem root
      { it := { pt := root, pep := entryPtr root 0#64, lbits := initialLbits, va := 0#64 }
        skip := false
        stopLbits := pageOffBits + pageIndexBits
        reads := [] } (below (child mem) 512 3 root) := by
    have h := Rest.fresh (w := { it := _, skip := false, stopLbits := lbitsAt 2, reads := [] })
      hpos rfl rfl (Nat.zero_mod _)
    dsimp only [afterPath] at h
    rw [hpath] at h
    rw [below_eq_after (child mem) 512 root (by omega)]
    exact h
  obtain ⟨r, hret, hy, -⟩ := down_spec hroot hrest
  exact ⟨r, hret, hy⟩

/-- `next` yields the rest after the page the iterator stands at. -/
theorem next_spec (hroot : PageAligned root) {it : Ptiter} {e : Nat} (h : At mem root e it) :
    ∃ r, Returns (fun fuel => it.next mem fuel) r ∧ Yields mem root r.it (afterPath mem root it.va e)
      ∧ it.va.toNat ≤ r.it.va.toNat
      ∧ ∀ pg ∈ r.reads, pg = root ∨ pg ∈ afterPath mem root it.va e :=
  down_spec hroot (.skipping h rfl rfl)

end PtIter
