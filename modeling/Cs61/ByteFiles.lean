import Mathlib.Tactic.Ring

/-! # Numbers in byte arrays

    A number of `n` bytes stands in an array with its least significant byte
    first.  It is read with `num` and written with `put`; what is read again is
    what was written (`num_put`), a write changes nothing else
    (`put_of_not_mem`), and a number determines its bytes (`byte_eq`). -/

namespace ByteFiles

/-- The contents of a file, with a byte at every offset. -/
abbrev Bytes := Nat → UInt8

/-- The number in the `n` bytes from `a` on. -/
def num (d : Bytes) (a : Nat) : Nat → Nat
  | 0 => 0
  | n + 1 => (d a).toNat + 256 * num d (a + 1) n

/-- A number of `n` bytes, written from `a` on. -/
def put (d : Bytes) (a n v : Nat) : Bytes :=
  fun p => if a ≤ p ∧ p < a + n then UInt8.ofNat (v / 256 ^ (p - a)) else d p

variable {d d' : Bytes} {a b n v k p : Nat}

/-- A number of `n` bytes. -/
theorem num_lt (d : Bytes) (a n : Nat) : num d a n < 256 ^ n := by
  induction n generalizing a with
  | zero => exact Nat.one_pos
  | succ n ih =>
      have hbyte := (d a).toNat_lt
      have hrest := ih (a + 1)
      rw [num, Nat.pow_succ]
      omega

/-- Numbers with the same bytes. -/
theorem num_congr (h : ∀ k, k < n → d (a + k) = d' (b + k)) : num d a n = num d' b n := by
  induction n generalizing a b with
  | zero => rfl
  | succ n ih =>
      rw [num, num, ih, show d a = d' b from h 0 (Nat.succ_pos n)]
      intro k hk
      rw [Nat.add_assoc, Nat.add_assoc, Nat.add_comm 1 k]
      exact h (k + 1) (Nat.succ_lt_succ hk)

/-- A number in two parts. -/
theorem num_add (d : Bytes) (a m k : Nat) :
    num d a (m + k) = num d a m + 256 ^ m * num d (a + m) k := by
  induction m generalizing a with
  | zero => rw [Nat.zero_add, num, Nat.zero_add, Nat.pow_zero, Nat.one_mul, Nat.add_zero]
  | succ m ih =>
      rw [Nat.add_right_comm, num, num, ih, Nat.add_assoc a 1 m, Nat.add_comm 1 m, Nat.pow_succ']
      ring

/-- A number determines its bytes. -/
theorem byte_eq (hk : k < n) : d (a + k) = UInt8.ofNat (num d a n / 256 ^ k) := by
  induction n generalizing a k with
  | zero => exact absurd hk (Nat.not_lt_zero k)
  | succ n ih =>
      have hbyte := (d a).toNat_lt
      rw [num]
      cases k with
      | zero =>
          rw [Nat.pow_zero, Nat.div_one, Nat.add_zero, ← UInt8.toNat_inj, UInt8.toNat_ofNat']
          omega
      | succ k =>
          have hdiv : ((d a).toNat + 256 * num d (a + 1) n) / 256 ^ (k + 1)
              = num d (a + 1) n / 256 ^ k := by
            rw [Nat.pow_succ', ← Nat.div_div_eq_div_mul]
            congr 1
            omega
          rw [hdiv, ← ih (Nat.lt_of_succ_lt_succ hk), Nat.add_assoc, Nat.add_comm 1 k]

/-- Equal numbers have equal bytes. -/
theorem bytes_eq (h : num d a n = num d' b n) (hk : k < n) : d (a + k) = d' (b + k) := by
  have hleft := @byte_eq d a n k hk
  have hright := @byte_eq d' b n k hk
  rw [hleft, hright, h]

/-- A byte elsewhere is not changed. -/
theorem put_of_not_mem (v : Nat) (h : p < a ∨ a + n ≤ p) : put d a n v p = d p :=
  if_neg (by omega)

/-- A written byte does not depend on the file. -/
theorem put_of_mem (d d' : Bytes) (v : Nat) (hp : a ≤ p) (hp' : p < a + n) : put d a n v p = put d' a n v p := by
  rw [put, put, if_pos ⟨hp, hp'⟩, if_pos ⟨hp, hp'⟩]

/-- A number elsewhere is not changed. -/
theorem num_put_apart (v : Nat) (h : b + k ≤ a ∨ a + n ≤ b) :
    num (put d a n v) b k = num d b k :=
  num_congr fun j hj => put_of_not_mem v (by omega)

/-- What was written is read again. -/
theorem num_put (h : v < 256 ^ n) : num (put d a n v) a n = v := by
  have hread : ∀ j m, j + m = n → num (put d a n v) (a + j) m = v / 256 ^ j := by
    intro j m
    induction m generalizing j with
    | zero =>
        rintro rfl
        rw [num, Nat.add_zero] at *
        exact (Nat.div_eq_of_lt h).symm
    | succ m ih =>
        intro hn
        have hdiv : v / 256 ^ (j + 1) = v / 256 ^ j / 256 := by
          rw [Nat.pow_succ, Nat.div_div_eq_div_mul]
        have hbyte : (put d a n v (a + j)).toNat = v / 256 ^ j % 256 := by
          rw [put, if_pos (by omega), Nat.add_sub_cancel_left, UInt8.toNat_ofNat']
        rw [num, Nat.add_assoc, ih (j + 1) (by omega), hbyte, hdiv]
        omega
  have hall := hread 0 n (Nat.zero_add n)
  rwa [Nat.add_zero, Nat.pow_zero, Nat.div_one] at hall

/-- To write a number where it stands changes nothing. -/
theorem put_num (d : Bytes) (a n : Nat) : put d a n (num d a n) = d := by
  funext p
  rw [put]
  split_ifs with h
  · have hbyte := @byte_eq d a n (p - a) (by omega)
    rw [← hbyte, Nat.add_sub_cancel' h.1]
  · rfl

/-! ## The same edit at many places -/

/-- The numbers of `w` bytes at the first `n` places, each replaced. -/
def mapNums (g : Nat → Nat) (w : Nat) (place : Nat → Nat) (d : Bytes) : Nat → Bytes
  | 0 => d
  | n + 1 => put (mapNums g w place d n) (place n) w (g (num (mapNums g w place d n) (place n) w))

section MapNums

variable {g : Nat → Nat} {w i : Nat} {place : Nat → Nat}

/-- A byte that is in none of the numbers. -/
theorem mapNums_of_not_mem (h : ∀ i, i < n → p < place i ∨ place i + w ≤ p) :
    mapNums g w place d n p = d p := by
  induction n with
  | zero => rfl
  | succ n ih =>
      rw [mapNums, put_of_not_mem _ (h n (Nat.lt_succ_self n))]
      exact ih fun i hi => h i (Nat.lt_succ_of_lt hi)

/-- A number that meets none of them. -/
theorem num_mapNums_apart (h : ∀ i, i < n → a + k ≤ place i ∨ place i + w ≤ a) :
    num (mapNums g w place d n) a k = num d a k :=
  num_congr fun j hj => mapNums_of_not_mem fun i hi => by
    have hi := h i hi
    omega

/-- The places do not overlap. -/
def Apart (w : Nat) (place : Nat → Nat) : Prop :=
  ∀ i j, i ≠ j → place i + w ≤ place j ∨ place j + w ≤ place i

/-- A number whose turn has not come. -/
theorem num_mapNums_of_le (h : Apart w place) (hi : n ≤ i) :
    num (mapNums g w place d n) (place i) w = num d (place i) w :=
  num_mapNums_apart fun j hj => h i j (by omega)

/-- A number that was replaced. -/
theorem num_mapNums (h : Apart w place) (hg : ∀ v, v < 256 ^ w → g v < 256 ^ w) (hi : i < n) :
    num (mapNums g w place d n) (place i) w = g (num d (place i) w) := by
  induction n with
  | zero => exact absurd hi (Nat.not_lt_zero i)
  | succ n ih =>
      rw [mapNums]
      by_cases hin : i = n
      · rw [hin, num_put (hg _ (num_lt _ _ w)), num_mapNums_of_le h (Nat.le_refl n)]
      · rw [num_put_apart _ (h i n hin), ih (by omega)]

/-- A byte that the whole edit leaves is left by its beginning. -/
theorem mapNums_same {m : Nat} (h : Apart w place) (hg : ∀ v, v < 256 ^ w → g v < 256 ^ w)
    (hn : n ≤ m) (hp : mapNums g w place d m p = d p) : mapNums g w place d n p = d p := by
  by_cases hin : ∃ i, i < n ∧ place i ≤ p ∧ p < place i + w
  · obtain ⟨i, hi, hfirst, hlast⟩ := hin
    have hnum : num (mapNums g w place d n) (place i) w = num (mapNums g w place d m) (place i) w := by
      rw [num_mapNums h hg hi, num_mapNums h hg (Nat.lt_of_lt_of_le hi hn)]
    have hbyte := bytes_eq hnum (k := p - place i) (by omega)
    rw [Nat.add_sub_cancel' hfirst] at hbyte
    rw [hbyte, hp]
  · refine mapNums_of_not_mem fun i hi => ?_
    by_contra hmeet
    exact hin ⟨i, hi, by omega, by omega⟩

/-- Two files with the same numbers have the same numbers after the edit. -/
theorem mapNums_congr {d' : Bytes} (h : Apart w place) (hg : ∀ v, v < 256 ^ w → g v < 256 ^ w)
    (hi : i < n) (hsame : num d (place i) w = num d' (place i) w) (hp : place i ≤ p)
    (hp' : p < place i + w) : mapNums g w place d n p = mapNums g w place d' n p := by
  have hnum : num (mapNums g w place d n) (place i) w = num (mapNums g w place d' n) (place i) w := by
    rw [num_mapNums h hg hi, num_mapNums h hg hi, hsame]
  have hbyte := bytes_eq hnum (k := p - place i) (by omega)
  rwa [Nat.add_sub_cancel' hp] at hbyte

end MapNums

/-! ## Blocks -/

/-- `n` bytes moved from `src` to `dst`. -/
def move (d : Bytes) (dst src n : Nat) : Bytes :=
  fun p => if dst ≤ p ∧ p < dst + n then d (p - dst + src) else d p

/-- `n` zeros from `a` on. -/
def clear (d : Bytes) (a n : Nat) : Bytes :=
  fun p => if a ≤ p ∧ p < a + n then 0 else d p

/-- A gap of `n` zeros at `a`, with what stood there moved up. -/
def openGap (d : Bytes) (size a n : Nat) : Bytes := clear (move d (a + n) a (size - a)) a n

section OpenGap

variable {size : Nat}

/-- Below the gap nothing is moved. -/
theorem openGap_below (h : p < a) : openGap d size a n p = d p := by
  rw [openGap, clear, if_neg (by omega), move, if_neg (by omega)]

/-- The gap is zero. -/
theorem openGap_gap (ha : a ≤ p) (hp : p < a + n) : openGap d size a n p = 0 :=
  if_pos ⟨ha, hp⟩

/-- What was behind the cut is behind the gap. -/
theorem openGap_above (ha : a ≤ p) (hp : p < size) : openGap d size a n (p + n) = d p := by
  rw [openGap, clear, if_neg (by omega), move, if_pos (by omega)]
  congr 1
  omega

end OpenGap

end ByteFiles
