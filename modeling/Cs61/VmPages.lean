import Cs61.VmLeaf

/-! # The pages of a page table — iterating with `next`

    `next` goes to the next page, or over the range of an entry that maps
    nothing.  The steps tile the address space (`visits_tile`); a step that is
    longer than a page goes over addresses that are not mapped, so that the
    loop visits every page that is (`visits_present`). -/

namespace VmPages

open PageTable PostOrder VmIter WordMasks VmWalk VmQueries LoopRules Tilings VmRanges VmLeaf
open Vmiter (lbitsMask)

variable {mem : Mem} {root : Word}

/-- `for (vmiter it(pt, 0); !it.done(); it.next())`: the iterators the body sees. -/
def visits (mem : Mem) (pt : Word) (fuel : Nat) : Option (List Vmiter) :=
  match Vmiter.new mem pt 0#64 with
  | .error _ => none
  | .ok it => collect (fun it => !it.done) (fun it => (it.next mem).toOption) fuel it

/-- The level at which `next` steps. -/
def stepLbits (mem : Mem) (it : Vmiter) : Nat :=
  if decide (pageOffBits < it.lbits) && it.perms mem == 0#64 then it.lbits else pageOffBits

/-- Where `next` goes, as a number. -/
def stepStop (mem : Mem) (it : Vmiter) : Nat :=
  2 ^ stepLbits mem it * (it.va.toNat / 2 ^ stepLbits mem it + 1)

/-- The states of the loop. -/
def Visited (mem : Mem) (root : Word) (it : Vmiter) : Prop :=
  Walked mem root it ∧ PageAligned it.va

/-! ## One step -/

/-- The shift of an iterator is that of a level. -/
theorem Walked.lbits_bounds {it : Vmiter} (h : Walked mem root it) : 12 ≤ it.lbits ∧ it.lbits ≤ 47 := by
  rcases h with ⟨d, hon, -⟩ | hoff
  · have := lbitsAt_le d
    rw [hon.lbits]
    exact ⟨Nat.le_add_right 12 _, by omega⟩
  · rw [hoff.lbits]
    exact ⟨by decide, by decide⟩

/-- So is the shift of a step. -/
theorem Walked.stepLbits_bounds {it : Vmiter} (h : Walked mem root it) :
    12 ≤ stepLbits mem it ∧ stepLbits mem it ≤ 47 := by
  rw [stepLbits]
  split
  · exact Walked.lbits_bounds h
  · exact ⟨by decide, by decide⟩

/-- A step ends at a page-aligned address, at 2^64 at the latest. -/
theorem Walked.stepStop {it : Vmiter} (h : Walked mem root it) :
    it.va.toNat < stepStop mem it ∧ VmPages.stepStop mem it ≤ 2 ^ 64
      ∧ VmPages.stepStop mem it % 4096 = 0 := by
  obtain ⟨hlo, hhi⟩ := Walked.stepLbits_bounds h
  rw [VmPages.stepStop]
  generalize stepLbits mem it = l at *
  refine ⟨Nat.lt_mul_div_succ _ (Nat.two_pow_pos l), ?_, ?_⟩
  · have hpow : 2 ^ 64 = 2 ^ l * 2 ^ (64 - l) := by
      rw [← Nat.pow_add, Nat.add_sub_cancel' (by omega)]
    rw [hpow]
    refine Nat.mul_le_mul_left _ (Nat.succ_le_of_lt (Nat.div_lt_of_lt_mul ?_))
    rw [← hpow]
    exact it.va.isLt
  · obtain ⟨k, rfl⟩ : ∃ k, l = 12 + k := ⟨l - 12, by omega⟩
    rw [Nat.pow_add, Nat.mul_assoc]
    exact Nat.mul_mod_right _ _

/-- **ONE STEP** goes to the next address of the tiling, or ends the iteration. -/
theorem Walked.next {it : Vmiter} (hwf : WellFormed mem root) (h : Walked mem root it) :
    ∃ it', it.next mem = .ok it'
      ∧ ((VmPages.stepStop mem it = 2 ^ 64 ∧ it' = ended root)
        ∨ (VmPages.stepStop mem it < 2 ^ 64 ∧ Visited mem root it'
            ∧ rangeStart it' = VmPages.stepStop mem it)) := by
  obtain ⟨-, hle, hmul⟩ := Walked.stepStop h
  have hto : ((it.va ||| lbitsMask (stepLbits mem it)) + 1#64).toNat
      = VmPages.stepStop mem it % 2 ^ 64 :=
    toNat_or_lbitsMask_succ it.va (Nat.lt_of_le_of_lt (Walked.stepLbits_bounds h).2 (by omega))
  have hnext : it.next mem
      = it.findImpl mem ((it.va ||| lbitsMask (stepLbits mem it)) + 1#64) true := rfl
  rw [hnext]
  generalize (it.va ||| lbitsMask (stepLbits mem it)) + 1#64 = va at hto
  by_cases h0 : va = 0#64
  · rw [h0, findImpl_ended (Coherent.pt_eq (Or.inl (Or.inl h)))]
    refine ⟨_, rfl, Or.inl ⟨?_, rfl⟩⟩
    rw [h0, show (0#64).toNat = 0 from rfl] at hto
    have hpos : 0 < VmPages.stepStop mem it := Nat.mul_pos (Nat.two_pow_pos _) (Nat.succ_pos _)
    omega
  · rw [findImpl_eq hwf.aligned (Or.inl h)
      (by rw [Bool.true_and, beq_eq_false_iff_ne]; exact h0), new_ok hwf.aligned hwf.low]
    have hva := @fresh_va mem root hwf.aligned va
    have hne : va.toNat ≠ 0 := fun hz => h0 (BitVec.eq_of_toNat_eq hz)
    have hlt : VmPages.stepStop mem it < 2 ^ 64 := by
      refine Nat.lt_of_le_of_ne hle ?_
      intro heq
      rw [heq, Nat.mod_self] at hto
      exact hne hto
    rw [Nat.mod_eq_of_lt hlt] at hto
    refine ⟨_, rfl, Or.inr ⟨hlt, ⟨(fresh_walked hwf.aligned va).1, ?_⟩, ?_⟩⟩
    · rw [hva, PageAligned, hto]
      exact hmul
    · rw [rangeStart, hva]
      exact hto

/-! ## What a step goes over -/

/-- A step that is longer than a page is over one entry, or one part of the
    non-canonical addresses, and nothing there is mapped. -/
theorem absent_of_long {it : Vmiter} {x : Word} (hwf : WellFormed mem root)
    (h : Walked mem root it) (hlong : stepLbits mem it ≠ 12) (hlo : it.va.toNat ≤ x.toNat)
    (hhi : x.toNat < VmPages.stepStop mem it) : (fresh mem root x).present mem = false := by
  obtain ⟨hlb, hperms⟩ : stepLbits mem it = it.lbits ∧ it.perms mem = 0#64 := by
    rw [stepLbits] at hlong ⊢
    split at hlong
    · rename_i hc
      rw [Bool.and_eq_true, beq_iff_eq] at hc
      rw [if_pos (by rw [Bool.and_eq_true, beq_iff_eq]; exact hc)]
      exact ⟨rfl, hc.2⟩
    · exact absurd rfl hlong
  rw [VmPages.stepStop, hlb] at hhi
  have habsent := (perms_eq_zero_iff h).mp hperms
  have hx := (@fresh_walked mem root hwf.aligned x).1
  rw [← perms_eq_zero_iff hx]
  rcases h with ⟨d, hon, hs⟩ | hoff
  · refine (Walked.uniform_fresh hwf.aligned hwf.low (Or.inl ⟨d, hon, hs⟩) hlo ?_).2 habsent
    rw [onPath_rangeStop hon, ← hon.lbits]
    exact hhi
  · refine (Walked.uniform_fresh hwf.aligned hwf.low (Or.inr hoff) hlo ?_).2 habsent
    have hnc := hoff.noncanonical
    rw [Bool.eq_false_iff, Ne, vaIsCanonical_iff] at hnc
    rw [hoff.lbits, Vmiter.noncanonicalLbits] at hhi
    rw [offPath_rangeStop hoff]
    omega

/-- The loop ends, and its steps tile the address space. -/
theorem visits_tile (hwf : WellFormed mem root) :
    ∃ L, Returns (visits mem root) L ∧ Tiles rangeStart (VmPages.stepStop mem) (2 ^ 64) 0 L
      ∧ ∀ it ∈ L, Visited mem root it := by
  obtain ⟨hw, hva⟩ : Walked mem root (fresh mem root 0#64) ∧ _ := fresh_walked hwf.aligned 0#64
  have hstart : Visited mem root (fresh mem root 0#64) := by
    refine ⟨hw, ?_⟩
    rw [PageAligned, hva]
    rfl
  have hstep : ∀ it, Visited mem root it → (!it.done) = true →
      rangeStart it < VmPages.stepStop mem it ∧ VmPages.stepStop mem it ≤ 2 ^ 64 ∧
      ∃ it', (it.next mem).toOption = some it' ∧
        ((VmPages.stepStop mem it = 2 ^ 64 ∧ (!it'.done) = false) ∨
         (VmPages.stepStop mem it < 2 ^ 64 ∧ (!it'.done) = true ∧ Visited mem root it'
            ∧ rangeStart it' = VmPages.stepStop mem it)) := by
    intro it h _
    obtain ⟨hlt, hle, -⟩ := Walked.stepStop h.1
    obtain ⟨it', hnext, hcase⟩ := Walked.next hwf h.1
    refine ⟨hlt, hle, it', by rw [hnext]; rfl, ?_⟩
    rcases hcase with ⟨hlast, rfl⟩ | ⟨hmore, hv, hat⟩
    · exact Or.inl ⟨hlast, rfl⟩
    · exact Or.inr ⟨hmore, by rw [Walked.not_done hv.1]; rfl, hv, hat⟩
  obtain ⟨L, hret, htiles, hall⟩ := collect_tiles (Visited mem root) hstep _ hstart
    (by rw [Walked.not_done hw]; rfl)
  rw [rangeStart, hva] at htiles
  refine ⟨L, hret.congr ?_, htiles, hall⟩
  intro fuel
  rw [visits, new_ok hwf.aligned hwf.low]

/-- **EVERY MAPPED PAGE** is visited: the loop ends, its addresses are
    page-aligned and increase, and every page-aligned address that is mapped is
    among them. -/
theorem visits_present (hwf : WellFormed mem root) :
    ∃ L, Returns (visits mem root) L
      ∧ (∀ it ∈ L, PageAligned it.va)
      ∧ L.Pairwise (fun it it' => it.va.toNat < it'.va.toNat)
      ∧ ∀ x, PageAligned x → Present mem root x → ∃ it ∈ L, it.va = x := by
  obtain ⟨L, hret, htiles, hall⟩ := visits_tile hwf
  refine ⟨L, hret, fun it hit => (hall it hit).2, ?_, ?_⟩
  · have hlt := htiles.mem_range
    refine htiles.pairwise.imp_of_mem ?_
    intro it it' hit _ hle
    exact Nat.lt_of_lt_of_le (hlt it hit).2.1 hle
  · intro x hal hp
    obtain ⟨it, hit, hlo, hhi⟩ := htiles.covers (Nat.zero_le _) x.isLt
    refine ⟨it, hit, ?_⟩
    obtain ⟨hw, hal'⟩ := hall it hit
    by_cases hlong : stepLbits mem it = 12
    · -- both addresses are the start of the same page
      have h1 : it.va.toNat % 4096 = 0 := hal'
      have h2 : x.toNat % 4096 = 0 := hal
      rw [rangeStart] at hlo
      rw [VmPages.stepStop, hlong] at hhi
      exact BitVec.eq_of_toNat_eq (by omega)
    · rw [← present_fresh_iff hwf.aligned, absent_of_long hwf hw hlong hlo hhi] at hp
      cases hp

/-- All pages of a small page table. -/
theorem visits_present_small :
    ∃ L, Returns (visits smallTable 0x1000#64) L
      ∧ (∀ it ∈ L, PageAligned it.va)
      ∧ L.Pairwise (fun it it' => it.va.toNat < it'.va.toNat)
      ∧ ∀ x, PageAligned x → Present smallTable 0x1000#64 x → ∃ it ∈ L, it.va = x :=
  visits_present smallTable_wellFormed

end VmPages
