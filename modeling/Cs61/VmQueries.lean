import Cs61.VmWalk

/-! # What a walked `vmiter` answers — `pa`, `perm`, `present`, `last_va`

    The queries read `*pep_` and the accumulated permissions.  Here they are
    put in closed form for an iterator on a path: the permissions are the
    entry masked by what every entry above it allows, and the physical address
    is the frame plus the offset within the range. -/

namespace VmQueries

open PageTable PostOrder VmIter WordMasks VmWalk
open Vmiter (lbitsMask)

variable {mem : Mem} {root : Word}

/-! ## Accumulated permissions -/

/-- The intersection of the entries along a path. -/
def flagsPath (mem : Mem) (root : Word) : List Nat → Word
  | [] => ~~~(0#64)
  | i :: p => flagsPath mem root p &&& entryAt mem root p i

/-- The permissions of a path are the common ones of its entries. -/
theorem permPath_eq (p : List Nat) :
    permPath mem root p = Vmiter.initialPerm &&& (flagsPath mem root p ||| ~~~ptePWU) := by
  induction p with
  | nil =>
      rw [permPath, flagsPath]
      decide
  | cons i p ih =>
      rw [permPath, flagsPath, ih, BitVec.and_assoc, or_not_and_or_not]

/-- Inside `PTE_P | PTE_W | PTE_U` nothing but the entries counts. -/
theorem and_permPath_and (e : Word) (p : List Nat) :
    (e &&& permPath mem root p) &&& ptePWU = (flagsPath mem root p &&& e) &&& ptePWU := by
  have hsub : Vmiter.initialPerm &&& ptePWU = ptePWU := by decide
  rw [permPath_eq, ← BitVec.and_assoc, and_or_not_and, BitVec.and_assoc (e &&& _),
    BitVec.and_comm (flagsPath mem root p), BitVec.and_assoc e, ← BitVec.and_assoc e,
    BitVec.and_assoc e, ← BitVec.and_assoc Vmiter.initialPerm, hsub,
    BitVec.and_comm ptePWU, ← BitVec.and_assoc, BitVec.and_comm e]

/-- Every entry on the way to a page-table page is present. -/
theorem flagsPath_present {p : List Nat} {t : Word} (h : table mem root p = some t) :
    (flagsPath mem root p).getLsbD 0 = true := by
  induction p generalizing t with
  | nil => exact (show (~~~(0#64)).getLsbD 0 = true by decide)
  | cons i p ih =>
      obtain ⟨s, hs, hc⟩ := node_tail (child mem) h
      have hp : (entryAt mem root p i).getLsbD 0 = true := by
        rw [entryAt_of hs]
        exact ((isTable_iff _).mp (pointee_eq_some.mp hc).1).1
      rw [flagsPath, BitVec.getLsbD_and, ih hs, hp]
      rfl

/-- The tables on a path are present. -/
theorem permPath_present {p : List Nat} {t : Word} (h : table mem root p = some t) :
    (permPath mem root p).getLsbD 0 = true := by
  rw [permPath_eq, BitVec.getLsbD_and, BitVec.getLsbD_or, flagsPath_present h]
  decide

/-! ## Masks of the iterator -/

/-- The code's mask is the low bits. -/
theorem lbitsMask_eq {l : Nat} (h : l < 64) : lbitsMask l = lowMask 64 l := by
  rw [lbitsMask, Nat.mod_eq_of_lt h, lowMask]

theorem toNat_and_lbitsMask {l : Nat} (va : Word) (h : l < 64) :
    (va &&& lbitsMask l).toNat = va.toNat % 2 ^ l := by
  rw [lbitsMask_eq h, toNat_and_lowMask va (by omega)]

theorem toNat_or_lbitsMask_succ {l : Nat} (va : Word) (h : l < 64) :
    ((va ||| lbitsMask l) + 1#64).toNat = 2 ^ l * (va.toNat / 2 ^ l + 1) % 2 ^ 64 := by
  rw [lbitsMask_eq h, toNat_or_lowMask_succ va (by omega)]

/-! ## Closed forms -/

/-- The frame `pa()` reads from an entry whose range has `2 ^ lbits` bytes. -/
def frame (e : Word) (lbits : Nat) : Word :=
  if pageOffBits < lbits then (e &&& ptePAMask) &&& ~~~(0x1000#64) else e &&& ptePAMask

/-- `perm()` is the entry masked by the path, or 0 when it is not present. -/
theorem onPath_perms {d : Nat} {it : Vmiter} (h : OnPath mem root d it) :
    it.perms mem
      = if (it.pep.read mem).getLsbD 0 = true then it.pep.read mem &&& it.perm else 0#64 := by
  obtain ⟨t, ht, -⟩ := h.slot
  have hbit : (it.pep.read mem &&& it.perm).getLsbD 0 = (it.pep.read mem).getLsbD 0 := by
    rw [BitVec.getLsbD_and, h.perm, permPath_present ht, Bool.and_true]
  have hp : pteP = BitVec.twoPow 64 0 := by decide
  rw [Vmiter.perms, hp, BitVec.and_twoPow, hbit]
  by_cases hb : (it.pep.read mem).getLsbD 0 = true
  · rw [if_pos hb, if_pos hb, show -(BitVec.twoPow 64 0) = BitVec.allOnes 64 by decide,
      BitVec.and_allOnes]
  · rw [if_neg hb, if_neg hb]
    exact BitVec.and_zero

/-- The physical address of an iterator. -/
theorem onPath_pa {d : Nat} {it : Vmiter} (_h : OnPath mem root d it) :
    it.pa mem
      = if (it.pep.read mem).getLsbD 0 = true
          then frame (it.pep.read mem) it.lbits + (it.va &&& lbitsMask it.lbits)
          else ~~~(0#64) := by
  rw [Vmiter.pa]
  by_cases hb : (it.pep.read mem).getLsbD 0 = true
  · rw [if_pos hb, if_pos (by rw [bne_iff_ne]; exact (and_pteP_ne_zero_iff _).mpr hb)]
    rfl
  · rw [if_neg hb, if_neg (by rw [bne_iff_ne]; exact fun hn => hb ((and_pteP_ne_zero_iff _).mp hn))]

/-- The presence of its page. -/
theorem onPath_present_iff {d : Nat} {it : Vmiter} (h : OnPath mem root d it) :
    it.present mem = true ↔ (it.pep.read mem).getLsbD 0 = true := by
  obtain ⟨t, ht, -⟩ := h.slot
  rw [Vmiter.present, Vmiter.hasPerm, beq_iff_eq, show pteP = BitVec.twoPow 64 0 by decide,
    and_twoPow_eq_self_iff _ (by omega), onPath_perms h]
  by_cases hb : (it.pep.read mem).getLsbD 0 = true
  · rw [if_pos hb, BitVec.getLsbD_and, hb, h.perm, permPath_present ht]
    decide
  · rw [if_neg hb]
    exact ⟨fun hc => absurd hc (by decide), fun hc => absurd hc hb⟩

/-- Off the path there is no physical address. -/
theorem offPath_pa {it : Vmiter} (h : OffPath root it) : it.pa mem = ~~~(0#64) := by
  rw [Vmiter.pa, h.pep]
  exact if_neg (show ¬ (0#64 &&& pteP != 0#64) = true by decide)

/-- Nor are there permissions. -/
theorem offPath_perms {it : Vmiter} (h : OffPath root it) : it.perms mem = 0#64 := by
  rw [Vmiter.perms, h.pep, show Pep.zeroPe.read mem = 0#64 from rfl, BitVec.zero_and]
  exact BitVec.zero_and

/-- The frame of a large page. -/
theorem frame_large (e : Word) {l : Nat} (h : pageOffBits < l) :
    (frame e l).toNat = 2 ^ 13 * (e.toNat % 2 ^ 52 / 2 ^ 13) := by
  have hmask : ptePAMask &&& ~~~(0x1000#64) = lowMask 64 52 &&& ~~~(lowMask 64 13) := by decide
  rw [frame, if_pos h, BitVec.and_assoc, hmask, toNat_and_field e (by omega)]

/-- The frame of a page. -/
theorem frame_small (e : Word) : (frame e 12).toNat = 4096 * (e.toNat % 2 ^ 52 / 4096) := by
  rw [frame, if_neg (by decide), toNat_and_paMask]

theorem frame_lt (e : Word) (l : Nat) : (frame e l).toNat < 2 ^ 52 := by
  have hmod : e.toNat % 2 ^ 52 < 2 ^ 52 := Nat.mod_lt _ (Nat.two_pow_pos 52)
  by_cases h : pageOffBits < l
  · rw [frame_large e h]
    omega
  · rw [frame, if_neg h, toNat_and_paMask]
    omega

/-- A present translation is never the address -1. -/
theorem frame_add_ne (e va : Word) {l : Nat} (h : l ≤ 39) :
    frame e l + (va &&& lbitsMask l) ≠ ~~~(0#64) := by
  have hf := frame_lt e l
  have hoff : (va &&& lbitsMask l).toNat < 2 ^ 39 := by
    rw [toNat_and_lbitsMask va (by omega)]
    exact Nat.lt_of_lt_of_le (Nat.mod_lt _ (Nat.two_pow_pos l))
      (Nat.pow_le_pow_right (by omega) h)
  intro heq
  have hnat := congrArg BitVec.toNat heq
  rw [BitVec.toNat_add, show (~~~(0#64)).toNat = 2 ^ 64 - 1 from rfl] at hnat
  omega

theorem lbitsAt_le (d : Nat) : lbitsAt d ≤ 39 := by
  simp only [lbitsAt, pageOffBits, pageIndexBits]
  omega

/-- `present()` says whether `pa()` is an address. -/
theorem walked_present_iff_pa {it : Vmiter} (h : Walked mem root it) :
    it.present mem = true ↔ it.pa mem ≠ ~~~(0#64) := by
  rcases h with ⟨d, hon, -⟩ | hoff
  · rw [onPath_present_iff hon, onPath_pa hon]
    by_cases hb : (it.pep.read mem).getLsbD 0 = true
    · rw [if_pos hb]
      exact ⟨fun _ => frame_add_ne _ _ (by rw [hon.lbits]; exact lbitsAt_le d), fun _ => hb⟩
    · rw [if_neg hb]
      exact ⟨fun hc => absurd hc hb, fun hc => absurd rfl hc⟩
  · rw [offPath_pa hoff, Vmiter.present, Vmiter.hasPerm, offPath_perms hoff]
    exact ⟨fun hc => absurd hc (by decide), fun hc => absurd rfl hc⟩

end VmQueries
