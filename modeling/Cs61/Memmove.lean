import Cs61.OrderedCopies
import Mathlib.Tactic.Ring

/-! # `memmove`

    Bytes are copied upwards, or downwards when the destination starts inside
    the source.  Either way the order is safe, as long as no range wraps around
    the address space (`memmove_moves`). -/

namespace Memmove

open OrderedCopies

/-- An address. -/
abbrev Addr := BitVec 64
/-- Memory, byte by byte. -/
abbrev Memory := Addr → UInt8

/-! ## The function -/

/-- `while (n-- > 0) { *d++ = *s++; }` -/
def copyUp : Nat → Addr → Addr → Memory → Memory
  | 0, _, _, m => m
  | n + 1, d, s, m => copyUp n (d + 1) (s + 1) (Function.update m d (m s))

/-- `while (n-- > 0) { *--d = *--s; }` -/
def copyDown : Nat → Addr → Addr → Memory → Memory
  | 0, _, _, m => m
  | n + 1, d, s, m => copyDown n (d - 1) (s - 1) (Function.update m (d - 1) (m (s - 1)))

/-- `memmove(dst, src, n)`: the memory after it, and its result. -/
def memmove (dst src : Addr) (n : BitVec 64) (m : Memory) : Memory × Addr :=
  if src < dst ∧ dst < src + n then (copyDown n.toNat (dst + n) (src + n) m, dst)
  else (copyUp n.toNat dst src m, dst)

/-! ## Ranges -/

/-- Byte `k` of the range that starts at `p`. -/
def byteAt (p : Addr) (k : Nat) : Addr := p + BitVec.ofNat 64 k

/-- The range `[p, p + n)` does not wrap around the address space. -/
def Straight (p : Addr) (n : BitVec 64) : Prop := p.toNat + n.toNat ≤ 2 ^ 64

/-- The destination holds what the source held, and no other byte changes. -/
structure Moved (dst src : Addr) (n : BitVec 64) (m m' : Memory) : Prop where
  copied : ∀ k, k < n.toNat → m' (byteAt dst k) = m (byteAt src k)
  frame : ∀ a, (∀ k, k < n.toNat → a ≠ byteAt dst k) → m' a = m a

/-- The bytes of a part. -/
theorem byteAt_add (p : Addr) (i k : Nat) : byteAt (byteAt p i) k = byteAt p (i + k) := by
  rw [byteAt, byteAt, byteAt, BitVec.ofNat_add, BitVec.add_assoc]

theorem byteAt_zero (p : Addr) : byteAt p 0 = p := BitVec.add_zero p

/-- In a range that does not wrap, addresses are numbers. -/
theorem byteAt_toNat {p : Addr} {n : BitVec 64} (h : Straight p n) {k : Nat} (hk : k < n.toNat) :
    (byteAt p k).toNat = p.toNat + k := by
  rw [Straight] at h
  rw [byteAt, BitVec.toNat_add, BitVec.toNat_ofNat, Nat.add_mod_mod]
  exact Nat.mod_eq_of_lt (by omega)

/-- Bytes `i` and `j` of two ranges, by their addresses. -/
theorem byteAt_ne {p q : Addr} {n : BitVec 64} (hp : Straight p n) (hq : Straight q n) {i j : Nat}
    (hi : i < n.toNat) (hj : j < n.toNat) (h : p.toNat + i ≠ q.toNat + j) :
    byteAt p i ≠ byteAt q j := by
  intro heq
  have hnat := congrArg BitVec.toNat heq
  rw [byteAt_toNat hp hi, byteAt_toNat hq hj] at hnat
  exact h hnat

/-! ## The loops -/

/-- The first loop copies byte 0 first. -/
theorem copyUp_eq (n : Nat) (dst src : Addr) (i : Nat) (m : Memory) :
    copyUp n (byteAt dst i) (byteAt src i) m
      = copyAll (byteAt dst) (byteAt src) (List.range' i n) m := by
  induction n generalizing i m with
  | zero => rfl
  | succ n ih =>
      rw [copyUp, List.range'_succ, copyAll]
      have hd : byteAt dst i + 1 = byteAt dst (i + 1) := byteAt_add dst i 1
      have hs : byteAt src i + 1 = byteAt src (i + 1) := byteAt_add src i 1
      rw [hd, hs, ih]

/-- The other one copies it last. -/
theorem copyDown_eq (n : Nat) (dst src : Addr) (m : Memory) :
    copyDown n (byteAt dst n) (byteAt src n) m
      = copyAll (byteAt dst) (byteAt src) (List.range n).reverse m := by
  induction n generalizing m with
  | zero => rfl
  | succ n ih =>
      have hback : ∀ p : Addr, byteAt p (n + 1) - 1 = byteAt p n := by
        intro p
        rw [← byteAt_add p n 1]
        exact BitVec.add_sub_cancel _ _
      rw [copyDown, List.range_succ, List.reverse_append, List.reverse_singleton,
        List.singleton_append, copyAll, hback, hback, ih]

/-! ## Directions -/

variable {dst src : Addr} {n : BitVec 64}

/-- Upwards is safe if the destination does not start inside the source. -/
theorem safe_up (hdst : Straight dst n) (hsrc : Straight src n)
    (h : dst.toNat ≤ src.toNat ∨ src.toNat + n.toNat ≤ dst.toNat) :
    Safe (byteAt dst) (byteAt src) (List.range' 0 n.toNat) := by
  rw [← List.range_eq_range']
  refine List.pairwise_lt_range.imp_of_mem ?_
  intro i j hi hj hlt
  rw [List.mem_range] at hi hj
  exact ⟨byteAt_ne hdst hsrc hi hj (by omega), byteAt_ne hdst hdst hi hj (by omega)⟩

/-- Downwards is safe if the destination lies above the source. -/
theorem safe_down (hdst : Straight dst n) (hsrc : Straight src n) (h : src.toNat < dst.toNat) :
    Safe (byteAt dst) (byteAt src) (List.range n.toNat).reverse := by
  refine List.pairwise_reverse.mpr (List.pairwise_lt_range.imp_of_mem ?_)
  intro j i hj hi hlt
  rw [List.mem_range] at hi hj
  exact ⟨byteAt_ne hdst hsrc hi hj (by omega), byteAt_ne hdst hdst hi hj (by omega)⟩

/-- The test of `memmove` for a destination that starts inside the source.  Above
    the source the sum does not overflow. -/
theorem inside_iff (hdst : Straight dst n) :
    (src < dst ∧ dst < src + n)
      ↔ src.toNat < dst.toNat ∧ dst.toNat < src.toNat + n.toNat := by
  rw [Straight] at hdst
  rw [BitVec.lt_def, BitVec.lt_def]
  refine and_congr_right fun hlt => ?_
  rw [BitVec.toNat_add]
  by_cases hn : n.toNat = 0
  · rw [hn, Nat.add_zero, Nat.mod_eq_of_lt src.isLt]
  · rw [Nat.mod_eq_of_lt (by omega)]

/-- A safe copy in either order. -/
theorem Moved.of_safe {order : List Nat} (hmem : ∀ k, k ∈ order ↔ k < n.toNat)
    (hsafe : Safe (byteAt dst) (byteAt src) order) (m : Memory) :
    Moved dst src n m (copyAll (byteAt dst) (byteAt src) order m) := by
  refine ⟨fun k hk => copyAll_moves hsafe m k ((hmem k).mpr hk), ?_⟩
  intro a ha
  exact copyAll_frame m fun k hk => ha k ((hmem k).mp hk)

/-- **`memmove`** moves the bytes, whichever way the ranges overlap. -/
theorem memmove_moves (hdst : Straight dst n) (hsrc : Straight src n) (m : Memory) :
    Moved dst src n m (memmove dst src n m).1 := by
  rw [memmove]
  by_cases hinside : src < dst ∧ dst < src + n
  · rw [if_pos hinside]
    have hend : ∀ p : Addr, p + n = byteAt p n.toNat := by
      intro p
      rw [byteAt, BitVec.ofNat_toNat, BitVec.setWidth_eq]
    dsimp only
    rw [hend, hend, copyDown_eq]
    refine Moved.of_safe ?_ (safe_down hdst hsrc hinside.1) m
    exact fun k => List.mem_reverse.trans List.mem_range
  · rw [if_neg hinside]
    rw [inside_iff hdst] at hinside
    have hup := copyUp_eq n.toNat dst src 0 m
    rw [byteAt_zero, byteAt_zero] at hup
    dsimp only
    rw [hup]
    refine Moved.of_safe ?_ (safe_up hdst hsrc (by omega)) m
    intro k
    rw [← List.range_eq_range', List.mem_range]

/-- Four bytes moved two bytes up. -/
theorem memmove_moves_small :
    Moved 2 0 4 (fun a => UInt8.ofNat a.toNat) (memmove 2 0 4 fun a => UInt8.ofNat a.toNat).1 :=
  memmove_moves (show (2 : Addr).toNat + (4 : BitVec 64).toNat ≤ 2 ^ 64 by decide)
    (show (0 : Addr).toNat + (4 : BitVec 64).toNat ≤ 2 ^ 64 by decide) _

end Memmove
