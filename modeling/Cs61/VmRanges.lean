import Cs61.VmQueries
import Cs61.Tilings

/-! # The ranges of a page table — iterating with `next_range`

    An iterator stands for the range from its address to `last_va()`.  Within a
    range the mapping is uniform, because every address of it goes through the
    same entry.  The ranges that `next_range` visits tile the address space
    from the start address on; `last_va()` is 0 for the range that ends it. -/

namespace VmRanges

open PageTable PostOrder VmIter WordMasks VmWalk VmQueries LoopRules Tilings
open Vmiter (lbitsMask)

variable {mem : Mem} {root : Word}

/-- `for (vmiter it(pt, va); !it.done(); it.next_range())`: the iterators the
    body sees. -/
def ranges (mem : Mem) (pt va : Word) (fuel : Nat) : Option (List Vmiter) :=
  match Vmiter.new mem pt va with
  | .error _ => none
  | .ok it => collect (fun it => !it.done) (fun it => (it.nextRange mem).toOption) fuel it

/-- Where the iterator is. -/
def rangeStart (it : Vmiter) : Nat := it.va.toNat

/-- `last_va()` as a number, where 0 stands for 2^64. -/
def rangeStop (it : Vmiter) : Nat := if it.lastVa = 0#64 then 2 ^ 64 else it.lastVa.toNat

/-- The mapping at `it` extends over its range. -/
def Uniform (mem : Mem) (it : Vmiter) : Prop :=
  ∀ N : Word, N < it.rangeSize → ∃ w, it.addAssign mem N = .ok w
    ∧ (it.present mem = true → w.pa mem = it.pa mem + N ∧ w.perms mem = it.perms mem)
    ∧ (it.present mem = false → w.present mem = false ∧ w.pa mem = ~~~(0#64) ∧ w.perms mem = 0#64)

/-! ## Moving within a range -/

/-- Every address of the range has the same walk. -/
theorem OnPath.shift {d : Nat} {it : Vmiter} {va : Word} (h : OnPath mem root d it)
    (hva : va.toNat / 2 ^ lbitsAt d = it.va.toNat / 2 ^ lbitsAt d) :
    OnPath mem root d { it with va := va } := by
  have hpath := vaPath_range h.depth hva
  rw [vaPath_succ, vaPath_succ] at hpath
  obtain ⟨hi, hp⟩ := List.cons.inj hpath
  obtain ⟨t, ht, hpep⟩ := h.slot
  refine ⟨h.pt, h.depth, ?_, h.lbits, ⟨t, ?_, ?_⟩, ?_⟩
  · have hcanon : vaIsCanonical va = vaIsCanonical it.va := by
      refine vaIsCanonical_congr ?_
      obtain ⟨k, hk⟩ : ∃ k, lbitsAt d + k = 39 := ⟨39 - lbitsAt d, by have := lbitsAt_le d; omega⟩
      rw [← hk, Nat.pow_add, ← Nat.div_div_eq_div_mul, ← Nat.div_div_eq_div_mul, hva]
    show vaIsCanonical va = true
    rw [hcanon]
    exact h.canonical
  · show table mem root (vaPath va d) = some t
    rw [hp]
    exact ht
  · show it.pep = .slot (entryPtr t (BitVec.ofNat 64 (idxAt va (lbitsAt d))))
    rw [hi]
    exact hpep
  · show it.perm = permPath mem root (vaPath va d)
    rw [hp]
    exact h.perm

theorem OffPath.shift {it : Vmiter} {va : Word} (h : OffPath root it)
    (hva : vaIsCanonical va = false) : OffPath root { it with va := va } :=
  ⟨h.pt, hva, h.lbits, h.pep, h.perm⟩

/-! ## Where a range ends -/

/-- The end of the range of an entry. -/
theorem onPath_rangeStop {d : Nat} {it : Vmiter} (h : OnPath mem root d it) :
    rangeStop it = 2 ^ lbitsAt d * (it.va.toNat / 2 ^ lbitsAt d + 1) := by
  have hle := lbitsAt_le d
  have hne : (it.lbits == Vmiter.noncanonicalLbits) = false := by
    rw [h.lbits, beq_eq_false_iff_ne, Vmiter.noncanonicalLbits]
    omega
  have hlast : it.lastVa.toNat = 2 ^ lbitsAt d * (it.va.toNat / 2 ^ lbitsAt d + 1) % 2 ^ 64 := by
    rw [Vmiter.lastVa, hne, if_neg Bool.false_ne_true, h.lbits,
      toNat_or_lbitsMask_succ it.va (by omega)]
  -- the range ends at 2^64 at the latest
  have hbound : 2 ^ lbitsAt d * (it.va.toNat / 2 ^ lbitsAt d + 1) ≤ 2 ^ 64 := by
    have hpow : 2 ^ 64 = 2 ^ lbitsAt d * 2 ^ (64 - lbitsAt d) := by
      rw [← Nat.pow_add, Nat.add_sub_cancel' (by omega)]
    rw [hpow]
    refine Nat.mul_le_mul_left _ (Nat.succ_le_of_lt (Nat.div_lt_of_lt_mul ?_))
    rw [← hpow]
    exact it.va.isLt
  rw [rangeStop]
  by_cases h0 : it.lastVa = 0#64
  · rw [if_pos h0]
    rw [h0, show (0#64).toNat = 0 from rfl] at hlast
    have hpos : 0 < 2 ^ lbitsAt d * (it.va.toNat / 2 ^ lbitsAt d + 1) :=
      Nat.mul_pos (Nat.two_pow_pos _) (Nat.succ_pos _)
    omega
  · rw [if_neg h0, hlast]
    refine Nat.mod_eq_of_lt (Nat.lt_of_le_of_ne hbound ?_)
    intro heq
    rw [heq, Nat.mod_self] at hlast
    exact h0 (BitVec.eq_of_toNat_eq hlast)

/-- The end of the range off the path. -/
theorem offPath_rangeStop {it : Vmiter} (h : OffPath root it) : rangeStop it = 2 ^ 64 - 2 ^ 47 := by
  have hlast : it.lastVa = vaHighMin := by
    rw [Vmiter.lastVa, h.lbits]
    rfl
  rw [rangeStop, hlast]
  decide

/-- A range is not empty, and ends within the address space. -/
theorem Walked.rangeStop {it : Vmiter} (h : Walked mem root it) :
    rangeStart it < rangeStop it ∧ rangeStop it ≤ 2 ^ 64 := by
  refine ⟨?_, ?_⟩
  · rcases h with ⟨d, hon, -⟩ | hoff
    · rw [onPath_rangeStop hon, rangeStart]
      exact Nat.lt_mul_div_succ _ (Nat.two_pow_pos _)
    · have hnc := hoff.noncanonical
      rw [Bool.eq_false_iff, Ne, vaIsCanonical_iff] at hnc
      rw [offPath_rangeStop hoff, rangeStart]
      omega
  · rw [VmRanges.rangeStop]
    split
    · exact Nat.le_refl _
    · exact Nat.le_of_lt it.lastVa.isLt

/-- No range is the whole address space. -/
theorem Walked.rangeStop_lt {it : Vmiter} (h : Walked mem root it) :
    VmRanges.rangeStop it < rangeStart it + 2 ^ 64 := by
  -- the longest are those of root entries, and the non-canonical one
  rcases h with ⟨d, hon, -⟩ | hoff
  · have hpow : 2 ^ lbitsAt d ≤ 2 ^ 39 := Nat.pow_le_pow_right (by omega) (lbitsAt_le d)
    have hdiv := Nat.mul_div_le it.va.toNat (2 ^ lbitsAt d)
    rw [onPath_rangeStop hon, rangeStart, Nat.mul_succ]
    omega
  · rw [offPath_rangeStop hoff]
    omega

/-- `range_size()` is the length of the range. -/
theorem Walked.toNat_rangeSize {it : Vmiter} (h : Walked mem root it) :
    it.rangeSize.toNat = VmRanges.rangeStop it - rangeStart it := by
  have hlt := (Walked.rangeStop h).1
  have hsize := Walked.rangeStop_lt h
  have hva := it.va.isLt
  have hlast := it.lastVa.isLt
  rw [Vmiter.rangeSize, BitVec.toNat_sub]
  rw [VmRanges.rangeStop, rangeStart] at *
  by_cases h0 : it.lastVa = 0#64
  · rw [if_pos h0] at *
    rw [h0, show (0#64).toNat = 0 from rfl]
    omega
  · rw [if_neg h0] at *
    omega

/-! ## One range -/

/-- An address of the range, as an offset from its start. -/
theorem toNat_add_of_lt {it : Vmiter} {N : Word} (h : Walked mem root it)
    (hN : N < it.rangeSize) : (it.va + N).toNat = it.va.toNat + N.toNat
      ∧ it.va.toNat + N.toNat < VmRanges.rangeStop it := by
  rw [BitVec.lt_def, Walked.toNat_rangeSize h] at hN
  obtain ⟨hlt, hle⟩ := Walked.rangeStop h
  rw [rangeStart] at hN hlt
  rw [BitVec.toNat_add]
  omega

/-- `+=` from a walked iterator gives the walk to the new address. -/
theorem Walked.addAssign {it : Vmiter} {N : Word} (hroot : PageAligned root)
    (hlow : PhysLow mem root) (h : Walked mem root it) :
    it.addAssign mem N = .ok (fresh mem root (it.va + N)) := by
  rw [Vmiter.addAssign, Vmiter.find]
  by_cases hva : it.va + N = it.va
  · rw [if_neg (by rw [bne_iff_ne, not_not]; exact hva), hva, ← h.eq_fresh hroot]
  · rw [if_pos (by rw [bne_iff_ne]; exact hva), findImpl_eq hroot (Or.inl h) rfl]
    exact new_ok hroot hlow _

/-- The offset within a range moves by `N`. -/
theorem and_lbitsMask_add {va N : Word} {d : Nat} (hadd : (va + N).toNat = va.toNat + N.toNat)
    (hquot : (va + N).toNat / 2 ^ lbitsAt d = va.toNat / 2 ^ lbitsAt d) :
    (va + N) &&& lbitsMask (lbitsAt d) = (va &&& lbitsMask (lbitsAt d)) + N := by
  have hle := lbitsAt_le d
  have hdm := Nat.div_add_mod va.toNat (2 ^ lbitsAt d)
  have hmod := Nat.div_add_mod (va + N).toNat (2 ^ lbitsAt d)
  have hlt := (va + N).isLt
  rw [hquot] at hmod
  refine BitVec.eq_of_toNat_eq ?_
  rw [toNat_and_lbitsMask (va + N) (by omega), BitVec.toNat_add (va &&& lbitsMask (lbitsAt d)) N,
    toNat_and_lbitsMask va (by omega)]
  omega

/-- The range of an entry maps its offsets, or nothing. -/
theorem OnPath.uniform {d : Nat} {it : Vmiter} {N : Word} (hroot : PageAligned root)
    (hon : OnPath mem root d it) (hs : it.descends mem = false)
    (hadd : (it.va + N).toNat = it.va.toNat + N.toNat)
    (hstop : it.va.toNat + N.toNat < VmRanges.rangeStop it) :
    (it.present mem = true → (fresh mem root (it.va + N)).pa mem = it.pa mem + N
        ∧ (fresh mem root (it.va + N)).perms mem = it.perms mem)
      ∧ (it.present mem = false → (fresh mem root (it.va + N)).present mem = false
        ∧ (fresh mem root (it.va + N)).pa mem = ~~~(0#64)
        ∧ (fresh mem root (it.va + N)).perms mem = 0#64) := by
  have hdm := Nat.div_add_mod it.va.toNat (2 ^ lbitsAt d)
  rw [onPath_rangeStop hon, Nat.mul_succ] at hstop
  have hquot : (it.va + N).toNat / 2 ^ lbitsAt d = it.va.toNat / 2 ^ lbitsAt d := by
    rw [hadd]
    refine Nat.div_eq_of_lt_le ?_ ?_
    · rw [Nat.mul_comm]
      omega
    · rw [Nat.mul_comm, Nat.mul_succ]
      exact hstop
  -- the walk to `va + N` stops at the entry of `it`
  have hon' := OnPath.shift hon hquot
  have heq : { it with va := it.va + N } = fresh mem root (it.va + N) := hon'.eq_fresh hroot hs
  have hread : Pep.read mem ({ it with va := it.va + N } : Vmiter).pep = it.pep.read mem := rfl
  have hpres : ({ it with va := it.va + N } : Vmiter).present mem = it.present mem := rfl
  rw [← heq]
  refine ⟨fun hp => ⟨?_, rfl⟩, ?_⟩
  · rw [onPath_present_iff hon] at hp
    rw [onPath_pa hon', onPath_pa hon, hread, if_pos hp, if_pos hp, BitVec.add_assoc]
    dsimp only
    rw [hon.lbits, and_lbitsMask_add hadd hquot]
  · intro hp
    have hbit : ¬ (it.pep.read mem).getLsbD 0 = true := by
      rw [← onPath_present_iff hon, hp]
      exact Bool.false_ne_true
    rw [hpres, onPath_pa hon', onPath_perms hon', hread, if_neg hbit, if_neg hbit]
    exact ⟨hp, rfl, rfl⟩

/-- Nothing is present off the path. -/
theorem offPath_present {it : Vmiter} (h : OffPath root it) : it.present mem = false := by
  rw [Vmiter.present, Vmiter.hasPerm, offPath_perms h]
  rfl

/-- The non-canonical range is absent as a whole. -/
theorem OffPath.uniform {it : Vmiter} {N : Word} (hroot : PageAligned root) (hoff : OffPath root it)
    (hadd : (it.va + N).toNat = it.va.toNat + N.toNat)
    (hstop : it.va.toNat + N.toNat < VmRanges.rangeStop it) :
    (fresh mem root (it.va + N)).present mem = false
      ∧ (fresh mem root (it.va + N)).pa mem = ~~~(0#64)
      ∧ (fresh mem root (it.va + N)).perms mem = 0#64 := by
  have hnc := hoff.noncanonical
  rw [Bool.eq_false_iff, Ne, vaIsCanonical_iff] at hnc
  rw [offPath_rangeStop hoff] at hstop
  have hnc' : vaIsCanonical (it.va + N) = false := by
    rw [Bool.eq_false_iff, Ne, vaIsCanonical_iff]
    omega
  have hoff' := OffPath.shift hoff hnc'
  have heq : { it with va := it.va + N } = fresh mem root (it.va + N) :=
    Walked.eq_fresh hroot (Or.inr hoff')
  rw [← heq]
  exact ⟨offPath_present hoff', offPath_pa hoff', offPath_perms hoff'⟩

/-- **UNIFORM**: the mapping at the start of a range extends over the range. -/
theorem Walked.uniform {it : Vmiter} (hroot : PageAligned root) (hlow : PhysLow mem root)
    (h : Walked mem root it) : Uniform mem it := by
  intro N hN
  obtain ⟨hadd, hstop⟩ := toNat_add_of_lt h hN
  refine ⟨_, Walked.addAssign hroot hlow h, ?_⟩
  rcases h with ⟨d, hon, hs⟩ | hoff
  · exact OnPath.uniform hroot hon hs hadd hstop
  · refine ⟨?_, fun _ => OffPath.uniform hroot hoff hadd hstop⟩
    intro hp
    rw [offPath_present hoff] at hp
    cases hp

/-- The same, at an address of the range. -/
theorem Walked.uniform_fresh {it : Vmiter} {va : Word} (hroot : PageAligned root)
    (hlow : PhysLow mem root) (h : Walked mem root it) (hstart : it.va.toNat ≤ va.toNat)
    (hstop : va.toNat < VmRanges.rangeStop it) :
    (it.present mem = true → (fresh mem root va).pa mem = it.pa mem + (va - it.va)
        ∧ (fresh mem root va).perms mem = it.perms mem)
      ∧ (it.present mem = false → (fresh mem root va).perms mem = 0#64) := by
  have hN : va - it.va < it.rangeSize := by
    rw [BitVec.lt_def, Walked.toNat_rangeSize h, BitVec.toNat_sub, rangeStart]
    omega
  have hva : it.va + (va - it.va) = va := by
    rw [BitVec.add_comm, BitVec.sub_add_cancel]
  obtain ⟨w, hw, hpresent, habsent⟩ := Walked.uniform hroot hlow h (va - it.va) hN
  rw [Walked.addAssign hroot hlow h, hva] at hw
  rw [Except.ok.inj hw]
  exact ⟨hpresent, fun hp => (habsent hp).2.2⟩

/-! ## All ranges -/

/-- An iterator that has walked is not done. -/
theorem Walked.not_done {it : Vmiter} (h : Walked mem root it) : it.done = false := by
  rw [Vmiter.done, beq_eq_false_iff_ne]
  rcases h with ⟨d, hon, -⟩ | hoff
  · rw [hon.lbits, Vmiter.doneLbits]
    have := lbitsAt_le d
    omega
  · rw [hoff.lbits]
    decide

/-- One step of the iteration: the next range starts where this one ends. -/
theorem Walked.nextRange {it : Vmiter} (hroot : PageAligned root) (hlow : PhysLow mem root)
    (h : Walked mem root it) : ∃ it', it.nextRange mem = .ok it'
      ∧ ((VmRanges.rangeStop it = 2 ^ 64 ∧ it' = ended root) ∨
         (VmRanges.rangeStop it < 2 ^ 64 ∧ Walked mem root it'
            ∧ rangeStart it' = VmRanges.rangeStop it)) := by
  rw [Vmiter.nextRange, VmRanges.rangeStop]
  by_cases h0 : it.lastVa = 0#64
  · rw [h0, findImpl_ended (Coherent.pt_eq (Or.inl (Or.inl h))), if_pos rfl]
    exact ⟨_, rfl, Or.inl ⟨rfl, rfl⟩⟩
  · rw [findImpl_eq hroot (Or.inl h) (by rw [Bool.true_and, beq_eq_false_iff_ne]; exact h0),
      new_ok hroot hlow, if_neg h0]
    refine ⟨_, rfl, Or.inr ⟨it.lastVa.isLt, (fresh_walked hroot _).1, ?_⟩⟩
    rw [rangeStart, fresh_va hroot]

/-- **THE RANGES TILE THE ADDRESS SPACE** from the start address on, and the
    mapping is uniform in each of them. -/
theorem ranges_tile (hwf : WellFormed mem root) (va : Word) :
    ∃ L, Returns (ranges mem root va) L ∧ Tiles rangeStart rangeStop (2 ^ 64) va.toNat L
      ∧ (∀ x, va.toNat ≤ x → x < 2 ^ 64 → ∃ it ∈ L, rangeStart it ≤ x ∧ x < rangeStop it)
      ∧ ∀ it ∈ L, Uniform mem it := by
  have hroot := hwf.aligned
  have hlow := hwf.low
  obtain ⟨hw, hva⟩ : Walked mem root (fresh mem root va) ∧ _ := fresh_walked hroot va
  have hstep : ∀ it, Walked mem root it → (!it.done) = true →
      rangeStart it < rangeStop it ∧ rangeStop it ≤ 2 ^ 64 ∧
      ∃ it', (it.nextRange mem).toOption = some it' ∧
        ((rangeStop it = 2 ^ 64 ∧ (!it'.done) = false) ∨
         (rangeStop it < 2 ^ 64 ∧ (!it'.done) = true ∧ Walked mem root it'
            ∧ rangeStart it' = rangeStop it)) := by
    intro it h _
    obtain ⟨hlt, hle⟩ := Walked.rangeStop h
    obtain ⟨it', hnext, hcase⟩ := Walked.nextRange hroot hlow h
    refine ⟨hlt, hle, it', by rw [hnext]; rfl, ?_⟩
    rcases hcase with ⟨hlast, rfl⟩ | ⟨hmore, hw', hstart⟩
    · exact Or.inl ⟨hlast, rfl⟩
    · exact Or.inr ⟨hmore, by rw [Walked.not_done hw']; rfl, hw', hstart⟩
  obtain ⟨L, hret, htiles, hall⟩ := collect_tiles (Walked mem root) hstep (fresh mem root va) hw
    (by rw [Walked.not_done hw]; rfl)
  rw [rangeStart, hva] at htiles
  refine ⟨L, hret.congr ?_, htiles, fun x => htiles.covers, ?_⟩
  · intro fuel
    rw [ranges, new_ok hroot hlow]
  · exact fun it hit => Walked.uniform hroot hlow (hall it hit)

/-- The theorem's conditions can be met. -/
theorem ranges_tile_small :
    ∃ L, Returns (ranges smallTable 0x1000#64 0x1234#64) L
      ∧ Tiles rangeStart rangeStop (2 ^ 64) (0x1234#64).toNat L
      ∧ (∀ x, (0x1234#64).toNat ≤ x → x < 2 ^ 64 →
          ∃ it ∈ L, rangeStart it ≤ x ∧ x < rangeStop it)
      ∧ ∀ it ∈ L, Uniform smallTable it :=
  ranges_tile smallTable_wellFormed 0x1234#64

end VmRanges
