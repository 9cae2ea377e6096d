import Cs61.WordMasks

/-! # System segment descriptors

    A system segment descriptor is two words; the first holds the limit in bits 0–15
    and 48–51, the base in bits 16–39 and 56–63, and the type, DPL and present bits
    between them, the second holds the rest of the base.  `setSysSegment` puts bits
    16–19 of the limit 48 places up, out of the word, so that the descriptor it
    builds has the limit that was asked for only up to 64 KiB (`encodes_iff`); all
    other fields are right (`encodes_fields`). -/

namespace SysSegment

open WordMasks

/-! ## The source -/

/-- Segment present. -/
def x86segP : BitVec 64 := 1#64 <<< 47

/-- An available task state segment. -/
def x86segTss : BitVec 64 := 0x9#64 <<< 40

/-- `set_sys_segment(segment, addr, size, type, dpl)`. -/
def setSysSegment (addr size type : BitVec 64) (dpl : Nat) : BitVec 64 × BitVec 64 :=
  (((addr &&& 0x0000000000FFFFFF#64) <<< 16)
    ||| ((addr &&& 0x00000000FF000000#64) <<< 32)
    ||| ((size - 1#64) &&& 0x0FFFF#64)
    ||| (((size - 1#64) &&& 0xF0000#64) <<< 48)
    ||| type
    ||| (BitVec.ofNat 64 dpl <<< 45)
    ||| x86segP,
   addr >>> 32)

/-! ## The layout -/

/-- The field of `n` bits from bit `lo` on. -/
def field (v : BitVec 64) (lo n : Nat) : Nat := v.toNat / 2 ^ lo % 2 ^ n

/-- The base address, as the processor puts it together. -/
def base (d : BitVec 64 × BitVec 64) : Nat :=
  field d.1 16 24 + 2 ^ 24 * field d.1 56 8 + 2 ^ 32 * d.2.toNat

/-- The limit, as the processor puts it together. -/
def limit (d : BitVec 64 × BitVec 64) : Nat := field d.1 0 16 + 2 ^ 16 * field d.1 48 4

/-- A type has bits in the type field (40–44, with the system bit) and among the
    flags (52–55) only. -/
def IsType (type : BitVec 64) : Prop :=
  type.toNat = 2 ^ 40 * field type 40 5 + 2 ^ 52 * field type 52 4

instance (type : BitVec 64) : Decidable (IsType type) := instDecidableEqNat _ _

/-- The type, DPL and present bits, and the base. -/
structure Fields (addr type : BitVec 64) (level : Nat) (d : BitVec 64 × BitVec 64) : Prop where
  address : base d = addr.toNat
  kind : field d.1 40 5 = field type 40 5
  flags : field d.1 52 4 = field type 52 4
  dpl : field d.1 45 2 = level
  present : field d.1 47 1 = 1

/-- The descriptor of a segment. -/
def Encodes (addr size type : BitVec 64) (dpl : Nat) (d : BitVec 64 × BitVec 64) : Prop :=
  Fields addr type dpl d ∧ limit d = size.toNat - 1

variable {addr size type : BitVec 64} {dpl : Nat}

/-! ## Words from fields -/

/-- Two fields side by side. -/
theorem or_eq_add {lo n : Nat} (hi : Nat) (h : lo < 2 ^ n) :
    2 ^ n * hi ||| lo = 2 ^ n * hi + lo := by
  rw [Nat.mul_comm, ← Nat.shiftLeft_eq, Nat.shiftLeft_add_eq_or_of_lt h]

/-- Bits moved up that stay in the word. -/
theorem toNat_shiftLeft_of_lt {v : BitVec 64} {k : Nat} (h : 2 ^ k * v.toNat < 2 ^ 64) :
    (v <<< k).toNat = 2 ^ k * v.toNat := by
  rw [BitVec.toNat_shiftLeft, Nat.shiftLeft_eq, Nat.mul_comm, Nat.mod_eq_of_lt h]

/-- The lower 24 bits of the base. -/
theorem toNat_baseLow (addr : BitVec 64) :
    ((addr &&& 0x0000000000FFFFFF#64) <<< 16).toNat = 2 ^ 16 * (addr.toNat % 2 ^ 24) := by
  have hmask : (addr &&& 0x0000000000FFFFFF#64).toNat = addr.toNat % 2 ^ 24 :=
    toNat_and_lowMask (n := 24) addr (by decide)
  have hlt : addr.toNat % 2 ^ 24 < 2 ^ 24 := Nat.mod_lt _ (by decide)
  rw [toNat_shiftLeft_of_lt (by rw [hmask]; omega), hmask]

/-- The 8 bits above. -/
theorem toNat_baseMid (addr : BitVec 64) :
    ((addr &&& 0x00000000FF000000#64) <<< 32).toNat
      = 2 ^ 56 * (addr.toNat / 2 ^ 24 % 2 ^ 8) := by
  have hmask : (addr &&& 0x00000000FF000000#64).toNat
      = 2 ^ 24 * (addr.toNat % 2 ^ 32 / 2 ^ 24) :=
    @toNat_and_field 64 24 32 addr (by decide)
  rw [toNat_shiftLeft_of_lt (by rw [hmask]; omega), hmask]
  omega

/-- The lower 16 bits of the limit. -/
theorem toNat_limitLow (v : BitVec 64) : (v &&& 0x0FFFF#64).toNat = v.toNat % 2 ^ 16 :=
  toNat_and_lowMask (n := 16) v (by decide)

/-- Bits 16–19 of the limit are moved out of the word. -/
theorem limitHigh_eq_zero (v : BitVec 64) : (v &&& 0xF0000#64) <<< 48 = 0#64 := by
  have hmask : (v &&& 0xF0000#64).toNat = 2 ^ 16 * (v.toNat % 2 ^ 20 / 2 ^ 16) :=
    @toNat_and_field 64 16 20 v (by decide)
  refine BitVec.eq_of_toNat_eq ?_
  rw [BitVec.toNat_shiftLeft, Nat.shiftLeft_eq, hmask]
  show _ % 2 ^ 64 = 0
  omega

/-- The first word, field by field. -/
theorem toNat_setSysSegment (htype : IsType type) (hdpl : dpl < 4) :
    (setSysSegment addr size type dpl).1.toNat
      = 2 ^ 56 * (addr.toNat / 2 ^ 24 % 2 ^ 8) + (2 ^ 52 * field type 52 4 + (2 ^ 47 * 1
        + (2 ^ 45 * dpl + (2 ^ 40 * field type 40 5 + (2 ^ 16 * (addr.toNat % 2 ^ 24)
          + (size - 1#64).toNat % 2 ^ 16))))) := by
  have hdplBits : (BitVec.ofNat 64 dpl <<< 45).toNat = 2 ^ 45 * dpl := by
    have hlow : (BitVec.ofNat 64 dpl).toNat = dpl := by
      rw [BitVec.toNat_ofNat, Nat.mod_eq_of_lt (by omega)]
    rw [toNat_shiftLeft_of_lt (by rw [hlow]; omega), hlow]
  have htypeBits : type.toNat = 2 ^ 52 * field type 52 4 ||| 2 ^ 40 * field type 40 5 := by
    have hlt : field type 40 5 < 2 ^ 5 := Nat.mod_lt _ (by decide)
    rw [or_eq_add _ (by omega), Nat.add_comm]
    exact htype
  have hlim : (size - 1#64).toNat % 2 ^ 16 < 2 ^ 16 := Nat.mod_lt _ (by decide)
  have hlow : addr.toNat % 2 ^ 24 < 2 ^ 24 := Nat.mod_lt _ (by decide)
  have hsort : field type 40 5 < 2 ^ 5 := Nat.mod_lt _ (by decide)
  have hflags : field type 52 4 < 2 ^ 4 := Nat.mod_lt _ (by decide)
  rw [setSysSegment, limitHigh_eq_zero, BitVec.or_zero]
  simp only [BitVec.toNat_or, toNat_baseLow, toNat_baseMid, toNat_limitLow, hdplBits]
  rw [htypeBits, show x86segP.toNat = 2 ^ 47 * 1 by decide]
  -- The fields in the order in which they stand in the word.
  rw [← or_eq_add _ (by omega), ← or_eq_add _ (by omega), ← or_eq_add _ (by omega),
    ← or_eq_add _ (by omega), ← or_eq_add _ (by omega), ← or_eq_add _ (by omega)]
  ac_rfl

/-- The second word is the upper half of the base. -/
theorem toNat_setSysSegment_snd :
    (setSysSegment addr size type dpl).2.toNat = addr.toNat / 2 ^ 32 := by
  rw [setSysSegment, BitVec.toNat_ushiftRight, Nat.shiftRight_eq_div_pow]

/-- The fields of a word that is written as their sum. -/
theorem fields_of_sum {w : BitVec 64} {high flags level kind low lim : Nat} (hflags : flags < 2 ^ 4)
    (hlevel : level < 4) (hkind : kind < 2 ^ 5) (hlow : low < 2 ^ 24) (hlim : lim < 2 ^ 16)
    (hw : w.toNat = 2 ^ 56 * high + (2 ^ 52 * flags + (2 ^ 47 * 1 + (2 ^ 45 * level
      + (2 ^ 40 * kind + (2 ^ 16 * low + lim)))))) :
    (field w 56 8 = high ∧ field w 16 24 = low) ∧ (field w 48 4 = 0 ∧ field w 0 16 = lim)
      ∧ field w 40 5 = kind ∧ field w 52 4 = flags ∧ field w 45 2 = level ∧ field w 47 1 = 1 := by
  simp only [field, hw]
  refine ⟨⟨?_, ?_⟩, ⟨?_, ?_⟩, ?_, ?_, ?_, ?_⟩ <;> omega

/-! ## What the descriptor says -/

/-- The fields of the descriptor, as the processor reads them. -/
theorem fields_setSysSegment (htype : IsType type) (hdpl : dpl < 4) :
    let w := (setSysSegment addr size type dpl).1
    (field w 56 8 = addr.toNat / 2 ^ 24 % 2 ^ 8 ∧ field w 16 24 = addr.toNat % 2 ^ 24)
      ∧ (field w 48 4 = 0 ∧ field w 0 16 = (size - 1#64).toNat % 2 ^ 16)
      ∧ field w 40 5 = field type 40 5 ∧ field w 52 4 = field type 52 4
      ∧ field w 45 2 = dpl ∧ field w 47 1 = 1 :=
  fields_of_sum (Nat.mod_lt _ (by decide)) hdpl (Nat.mod_lt _ (by decide))
    (Nat.mod_lt _ (by decide)) (Nat.mod_lt _ (by decide)) (toNat_setSysSegment htype hdpl)

/-- The base, type, DPL and present bits are right whatever the size is. -/
theorem encodes_fields (htype : IsType type) (hdpl : dpl < 4) :
    Fields addr type dpl (setSysSegment addr size type dpl) := by
  obtain ⟨⟨hhigh, hlow⟩, -, hkind, hflags, hlevel, hpresent⟩ :=
    @fields_setSysSegment addr size type dpl htype hdpl
  refine ⟨?_, hkind, hflags, hlevel, hpresent⟩
  rw [base, hhigh, hlow, toNat_setSysSegment_snd]
  omega

/-- The limit keeps its 16 low bits. -/
theorem limit_setSysSegment (htype : IsType type) (hdpl : dpl < 4) :
    limit (setSysSegment addr size type dpl) = (size - 1#64).toNat % 2 ^ 16 := by
  obtain ⟨-, ⟨hzero, hlim⟩, -⟩ := @fields_setSysSegment addr size type dpl htype hdpl
  rw [limit, hzero, hlim, Nat.mul_zero, Nat.add_zero]

/-- **DESCRIPTOR**: it decodes to what was asked for exactly up to 64 KiB. -/
theorem encodes_iff (htype : IsType type) (hdpl : dpl < 4) (hsize : 1 ≤ size.toNat)
    (hmax : size.toNat ≤ 2 ^ 20) :
    Encodes addr size type dpl (setSysSegment addr size type dpl) ↔ size.toNat ≤ 2 ^ 16 := by
  have hsub : (size - 1#64).toNat = size.toNat - 1 :=
    BitVec.toNat_sub_of_le (BitVec.le_def.mpr hsize)
  rw [Encodes, and_iff_right (encodes_fields htype hdpl), limit_setSysSegment htype hdpl, hsub]
  omega

/-- The task state segment. -/
theorem encodes_iff_taskstate :
    Encodes 0xFFFFFFFF80001000#64 104#64 x86segTss 0
      (setSysSegment 0xFFFFFFFF80001000#64 104#64 x86segTss 0) :=
  (encodes_iff (by decide) (by decide) (by decide) (by decide)).mpr (by decide)

/-- A segment of 64 KiB and one byte gets the limit 0. -/
theorem setSysSegment_cuts :
    ¬ ∀ (addr size : BitVec 64), 1 ≤ size.toNat → size.toNat ≤ 2 ^ 20 →
      Encodes addr size x86segTss 0 (setSysSegment addr size x86segTss 0) := by
  intro hall
  have hlimit := (hall 0#64 65537#64 (by decide) (by decide)).2
  exact absurd hlimit (by decide)

end SysSegment
