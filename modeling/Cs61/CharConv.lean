import Mathlib.Tactic.SplitIfs
import Cs61.Numerals

/-! # `from_chars` and `to_chars`

    `from_chars` reads digits until a byte is none.  Its first test takes the
    bytes from `'0'` to `'0' + base - 1`: for bases above 10 these include
    punctuation behind `'9'`, and for bases above 17 the first upper-case
    letters (`Misread`).

    * `fromChars_eq` — the value that the loop computes;
    * `fromChars_iff` — when it is the number that the digits stand for;
    * `toChars_fromChars` — `to_chars` and back. -/

namespace CharConv

open Numerals

/-- `unsigned long`. -/
abbrev ULong := BitVec 64

/-- `E_INVAL`. -/
def eInval : Int := -22
/-- `E_OVERFLOW`. -/
def eOverflow : Int := -75
/-- `E_RANGE`. -/
def eRange : Int := -34

/-- `from_chars_result`; `ptr` counts from `first`. -/
structure CharsResult where
  ptr : Nat
  ec : Int
deriving DecidableEq

/-! ## `from_chars` -/

/-- The digit that a byte is taken for. -/
def digitOf (base : Nat) (c : UInt8) : Option Nat :=
  if 48 ≤ c.toNat ∧ c.toNat < 48 + base then some (c.toNat - 48)
  else if 97 ≤ c.toNat ∧ c.toNat < 97 + base - 10 then some (c.toNat - 97 + 10)
  else if 65 ≤ c.toNat ∧ c.toNat < 65 + base - 10 then some (c.toNat - 65 + 10)
  else none

/-- `x > (-1UL - digit) / base`. -/
def overflows (base : Nat) (x : ULong) (digit : Nat) : Bool :=
  (-1#64 - BitVec.ofNat 64 digit) / BitVec.ofNat 64 base < x

/-- The loop, with `x`, `overflow` and the bytes read so far. -/
def fromCharsLoop (base : Nat) : List UInt8 → ULong → Bool → Nat → ULong × Bool × Nat
  | [], x, overflow, s => (x, overflow, s)
  | c :: rest, x, overflow, s =>
      match digitOf base c with
      | none => (x, overflow, s)
      | some digit =>
          if overflows base x digit then fromCharsLoop base rest x true (s + 1)
          else
            fromCharsLoop base rest (x * BitVec.ofNat 64 base + BitVec.ofNat 64 digit) overflow
              (s + 1)

/-- `from_chars(first, last, value, base)`: the result, and `value` after it. -/
def fromChars (bytes : List UInt8) (value : ULong) (base : Nat) : CharsResult × ULong :=
  let (x, overflow, s) := fromCharsLoop base bytes 0 false 0
  if s = 0 then (⟨s, eInval⟩, value)
  else if overflow then (⟨s, eRange⟩, value)
  else (⟨s, 0⟩, x)

/-- `from_chars` for a `long`. -/
def fromCharsLong (bytes : List UInt8) (value : ULong) (base : Nat) : CharsResult × ULong :=
  let negative := bytes.head? == some 45
  let (r, x) := fromChars (if negative then bytes.tail else bytes) 0 base
  let p := if negative then r.ptr + 1 else r.ptr
  if r.ec = eInval then (⟨0, eInval⟩, value)
  else if r.ec = eRange ∨ (1#64 <<< 63) - (if negative then 0 else 1) < x then
    (⟨p, eRange⟩, value)
  else (⟨p, 0⟩, if negative then -x else x)

/-! ## `to_chars` -/

/-- The length of `v` in characters, from `n` on.  The bases are 2 to 36; the
    division ends the loop for these. -/
def charsLength (base v n : Nat) : Nat :=
  let n := if v < base then n + 1 else if v < base * base then n + 2 else n + 3
  if _h : v < base * base * base ∨ base < 2 then n
  else charsLength base (v / (base * base * base)) n
termination_by v
decreasing_by
  rw [not_or] at _h
  have hb : 1 < base := by omega
  have hpow : 2 * 2 * 2 ≤ base * base * base := Nat.mul_le_mul (Nat.mul_le_mul hb hb) hb
  exact Nat.div_lt_self (by omega) (by omega)

/-- The character of a digit, with small letters from ten on. -/
def digitChar (digit : Nat) : UInt8 :=
  if digit < 10 then UInt8.ofNat (48 + digit) else UInt8.ofNat (97 + digit - 10)

/-- The loop that writes from right to left, with `s` bytes to go. -/
def unparse (base : Nat) : Nat → Nat → List UInt8 → List UInt8
  | 0, _, buf => buf
  | s + 1, value, buf => unparse base s (value / base) (buf.set s (digitChar (value % base)))

/-- `to_chars(first, last, value, base)`: the result, and the buffer after it. -/
def toChars (buf : List UInt8) (value : ULong) (base : Nat) : CharsResult × List UInt8 :=
  let n := charsLength base value.toNat 0
  if buf.length < n then (⟨buf.length, eOverflow⟩, buf)
  else (⟨n, 0⟩, unparse base n value.toNat buf)

/-- `to_chars` for a `long`. -/
def toCharsLong (buf : List UInt8) (value : ULong) (base : Nat) : CharsResult × List UInt8 :=
  match buf with
  | [] => (⟨0, eOverflow⟩, [])
  | c :: rest =>
      if value.toInt < 0 then
        let (r, rest) := toChars rest (-value) base
        (⟨r.ptr + 1, r.ec⟩, 45 :: rest)
      else toChars (c :: rest) value base

/-! ## The loop of `from_chars` -/

variable {base : Nat} {bytes : List UInt8}

/-- The digits that a string starts with, as `f` reads them. -/
def digitsOf (f : UInt8 → Option Nat) : List UInt8 → List Nat
  | [] => []
  | c :: rest =>
      match f c with
      | none => []
      | some digit => digit :: digitsOf f rest

/-- What a conversion says about the digits it has read. -/
def outcome (base : Nat) (digits : List Nat) (old : ULong) : CharsResult × ULong :=
  if digits = [] then (⟨0, eInval⟩, old)
  else if 2 ^ 64 ≤ value base digits then (⟨digits.length, eRange⟩, old)
  else (⟨digits.length, 0⟩, BitVec.ofNat 64 (value base digits))

/-- A digit is below the base. -/
theorem digitOf_lt (hb : base ≤ 36) {c : UInt8} {digit : Nat} (h : digitOf base c = some digit) :
    digit < base := by
  rw [digitOf] at h
  split_ifs at h <;> obtain rfl := Option.some.inj h <;> omega

/-- The test finds out whether the next value fits. -/
theorem overflows_iff (hb : 2 ≤ base) (hb' : base ≤ 36) {digit : Nat} (hd : digit < base)
    (x : ULong) : overflows base x digit = true ↔ 2 ^ 64 ≤ x.toNat * base + digit := by
  have hdigit : (BitVec.ofNat 64 digit).toNat = digit := Nat.mod_eq_of_lt (by omega)
  have hbase : (BitVec.ofNat 64 base).toNat = base := Nat.mod_eq_of_lt (by omega)
  have hones : (-1#64).toNat = 2 ^ 64 - 1 := by decide
  have hsub : (-1#64 - BitVec.ofNat 64 digit).toNat = 2 ^ 64 - 1 - digit := by
    rw [BitVec.toNat_sub, hdigit, hones]
    omega
  rw [overflows, decide_eq_true_iff, BitVec.lt_def, BitVec.toNat_udiv, hsub, hbase,
    Nat.div_lt_iff_lt_mul (by omega)]
  omega

/-- The digits read so far are worth `x`, or too much. -/
structure Worth (base : Nat) (digits : List Nat) (x : ULong) (overflow : Bool) : Prop where
  big : overflow = true → 2 ^ 64 ≤ value base digits
  exact : overflow = false → x.toNat = value base digits

/-- What the loop knows of the digits, after one more. -/
theorem Worth.next (hb : 2 ≤ base) (hb' : base ≤ 36) {digits : List Nat} {x : ULong}
    {overflow : Bool} (h : Worth base digits x overflow) {digit : Nat} (hd : digit < base) :
    (overflows base x digit = true → Worth base (digits ++ [digit]) x true)
      ∧ (¬ overflows base x digit = true → Worth base (digits ++ [digit])
        (x * BitVec.ofNat 64 base + BitVec.ofNat 64 digit) overflow) := by
  rw [overflows_iff hb hb' hd]
  have hgrows : value base digits ≤ value base digits * base :=
    Nat.le_mul_of_pos_right _ (by omega)
  constructor
  · intro hover
    refine ⟨fun _ => ?_, fun hc => Bool.noConfusion hc⟩
    rw [value_append_one]
    cases overflow with
    | true => exact Nat.le_trans (h.big rfl) (Nat.le_add_right_of_le hgrows)
    | false => rwa [← h.exact rfl]
  · intro hfits
    refine ⟨fun ho => ?_, fun ho => ?_⟩
    · rw [value_append_one]
      exact Nat.le_trans (h.big ho) (Nat.le_add_right_of_le hgrows)
    · rw [value_append_one, ← h.exact ho, BitVec.toNat_add, BitVec.toNat_mul, BitVec.toNat_ofNat,
        BitVec.toNat_ofNat, Nat.mod_eq_of_lt (a := base) (by omega),
        Nat.mod_eq_of_lt (a := digit) (by omega), Nat.mod_add_mod, Nat.mod_eq_of_lt (by omega)]

/-- The loop reads the digits to their end. -/
theorem fromCharsLoop_spec (bytes : List UInt8) (hb : 2 ≤ base) (hb' : base ≤ 36) {digits : List Nat} {x : ULong}
    {overflow : Bool} (h : Worth base digits x overflow) (s : Nat) :
    ∃ x' overflow', fromCharsLoop base bytes x overflow s
        = (x', overflow', s + (digitsOf (digitOf base) bytes).length)
      ∧ Worth base (digits ++ digitsOf (digitOf base) bytes) x' overflow' := by
  induction bytes generalizing digits x overflow s with
  | nil => exact ⟨x, overflow, rfl, by rwa [digitsOf, List.append_nil]⟩
  | cons c rest ih =>
      rw [fromCharsLoop, digitsOf]
      cases hdigit : digitOf base c with
      | none => exact ⟨x, overflow, rfl, by rwa [List.append_nil]⟩
      | some digit =>
          obtain ⟨hover, hfits⟩ := h.next hb hb' (digitOf_lt hb' hdigit)
          dsimp only
          rw [List.length_cons, ← Nat.add_assoc, Nat.add_right_comm, List.append_cons]
          by_cases ho : overflows base x digit = true
          · rw [if_pos ho]
            exact ih (hover ho) (s + 1)
          · rw [if_neg ho]
            exact ih (hfits ho) (s + 1)

/-- **`from_chars`** is exact about the digits as it reads them. -/
theorem fromChars_eq (hb : 2 ≤ base) (hb' : base ≤ 36) (old : ULong) :
    fromChars bytes old base = outcome base (digitsOf (digitOf base) bytes) old := by
  have hstart : Worth base [] 0 false := ⟨fun hc => Bool.noConfusion hc, fun _ => rfl⟩
  obtain ⟨x, overflow, hloop, hworth⟩ := fromCharsLoop_spec bytes hb hb' hstart 0
  rw [List.nil_append] at hworth
  rw [Nat.zero_add] at hloop
  rw [fromChars, hloop, outcome]
  dsimp only
  by_cases hnil : digitsOf (digitOf base) bytes = []
  · rw [if_pos hnil, hnil, if_pos List.length_nil]
    rfl
  · rw [if_neg hnil, if_neg (fun h => hnil (List.length_eq_zero_iff.mp h))]
    cases overflow with
    | true => rw [if_pos rfl, if_pos (hworth.big rfl)]
    | false =>
        have hx := hworth.exact rfl
        rw [if_neg Bool.false_ne_true, if_neg (by rw [← hx]; exact Nat.not_le.mpr x.isLt), ← hx,
          BitVec.ofNat_toNat, BitVec.setWidth_eq]

/-! ## Digits of a base -/

/-- What a byte is worth as a digit, in either case of letters. -/
def digitValue (base : Nat) (c : UInt8) : Option Nat :=
  if 48 ≤ c.toNat ∧ c.toNat ≤ 57 ∧ c.toNat < 48 + base then some (c.toNat - 48)
  else if 97 ≤ c.toNat ∧ c.toNat ≤ 122 ∧ c.toNat < 87 + base then some (c.toNat - 87)
  else if 65 ≤ c.toNat ∧ c.toNat ≤ 90 ∧ c.toNat < 55 + base then some (c.toNat - 55)
  else none

/-- A byte behind `'9'` that the first test takes for a digit. -/
def Misread (base : Nat) (c : UInt8) : Prop := 57 < c.toNat ∧ c.toNat < 48 + base

instance (base : Nat) (c : UInt8) : Decidable (Misread base c) :=
  inferInstanceAs (Decidable (_ ∧ _))

/-- A character that is misread is taken for a digit from ten on. -/
theorem digitOf_misread {c : UInt8} (h : Misread base c) :
    digitOf base c = some (c.toNat - 48) := by
  obtain ⟨hlt, hgt⟩ := h
  rw [digitOf, if_pos ⟨by omega, hgt⟩]

/-- The others are read as they should be. -/
theorem digitOf_eq (hb' : base ≤ 36) {c : UInt8} (h : ¬ Misread base c) :
    digitOf base c = digitValue base c := by
  rw [Misread] at h
  rw [digitOf, digitValue]
  split_ifs <;> first | rfl | omega | exact congrArg some (by omega)

theorem digitValue_misread {c : UInt8} {digit : Nat} (h : Misread base c)
    (hdigit : digitValue base c = some digit) : digit < c.toNat - 48 := by
  obtain ⟨hlt, hgt⟩ := h
  rw [digitValue] at hdigit
  split_ifs at hdigit <;> obtain rfl := Option.some.inj hdigit <;> omega

/-- The digits of the string, as many as there are. -/
def numberDigits (base : Nat) (bytes : List UInt8) : List Nat := digitsOf (digitValue base) bytes

/-- The byte behind the digits is misread. -/
def RunsOn (base : Nat) (bytes : List UInt8) : Prop :=
  ∃ c, bytes[(numberDigits base bytes).length]? = some c ∧ Misread base c

/-- One of the digits is misread. -/
def Distorts (base : Nat) (bytes : List UInt8) : Prop :=
  ∃ c ∈ bytes.take (numberDigits base bytes).length, Misread base c

theorem numberDigits_none {c : UInt8} {rest : List UInt8} (h : digitValue base c = none) :
    numberDigits base (c :: rest) = [] := by
  rw [numberDigits, digitsOf, h]

/-- A digit and the digits behind it. -/
theorem numberDigits_some {c : UInt8} {rest : List UInt8} {digit : Nat}
    (h : digitValue base c = some digit) :
    numberDigits base (c :: rest) = digit :: numberDigits base rest := by
  rw [numberDigits, digitsOf, h]
  rfl

/-- A string that runs on gives more digits. -/
theorem digits_longer (hb' : base ≤ 36) (h : RunsOn base bytes) :
    (numberDigits base bytes).length < (digitsOf (digitOf base) bytes).length := by
  induction bytes with
  | nil =>
      obtain ⟨c, hc, -⟩ := h
      cases hc
  | cons b rest ih =>
      obtain ⟨c, hc, hmis⟩ := h
      cases hvalue : digitValue base b with
      | none =>
          rw [numberDigits_none hvalue] at hc ⊢
          obtain rfl : b = c := Option.some.inj hc
          rw [digitsOf, digitOf_misread hmis]
          exact Nat.succ_pos _
      | some digit =>
          rw [numberDigits_some hvalue] at hc ⊢
          have hrest := ih ⟨c, hc, hmis⟩
          rw [digitsOf]
          by_cases hb : Misread base b
          · rw [digitOf_misread hb]
            exact Nat.succ_lt_succ hrest
          · rw [digitOf_eq hb' hb, hvalue]
            exact Nat.succ_lt_succ hrest

/-- One that does not gives as many, none of them smaller. -/
theorem digits_le (hb' : base ≤ 36) (h : ¬ RunsOn base bytes) :
    List.Forall₂ (· ≤ ·) (numberDigits base bytes) (digitsOf (digitOf base) bytes) := by
  induction bytes with
  | nil => exact List.Forall₂.nil
  | cons b rest ih =>
      rw [digitsOf]
      cases hvalue : digitValue base b with
      | none =>
          have hb : ¬ Misread base b := by
            intro hb
            refine h ⟨b, ?_, hb⟩
            rw [numberDigits_none hvalue]
            rfl
          rw [numberDigits_none hvalue, digitOf_eq hb' hb, hvalue]
          exact List.Forall₂.nil
      | some digit =>
          have hrest : ¬ RunsOn base rest := by
            rintro ⟨c, hc, hmis⟩
            refine h ⟨c, ?_, hmis⟩
            rw [numberDigits_some hvalue]
            exact hc
          rw [numberDigits_some hvalue]
          by_cases hb : Misread base b
          · rw [digitOf_misread hb]
            exact List.Forall₂.cons (Nat.le_of_lt (digitValue_misread hb hvalue)) (ih hrest)
          · rw [digitOf_eq hb' hb, hvalue]
            exact List.Forall₂.cons (Nat.le_refl digit) (ih hrest)

/-- The digits are those of the number, if none of them is misread. -/
theorem digits_eq_iff (hb' : base ≤ 36) (h : ¬ RunsOn base bytes) :
    numberDigits base bytes = digitsOf (digitOf base) bytes ↔ ¬ Distorts base bytes := by
  induction bytes with
  | nil =>
      refine iff_of_true rfl ?_
      rintro ⟨c, hc, -⟩
      cases hc
  | cons b rest ih =>
      cases hvalue : digitValue base b with
      | none =>
          have hb : ¬ Misread base b := by
            intro hb
            refine h ⟨b, ?_, hb⟩
            rw [numberDigits_none hvalue]
            rfl
          refine iff_of_true ?_ ?_
          · rw [numberDigits_none hvalue, digitsOf, digitOf_eq hb' hb, hvalue]
          · rintro ⟨c, hc, -⟩
            rw [numberDigits_none hvalue] at hc
            cases hc
      | some digit =>
          have hrest : ¬ RunsOn base rest := by
            rintro ⟨c, hc, hmis⟩
            refine h ⟨c, ?_, hmis⟩
            rw [numberDigits_some hvalue]
            exact hc
          have hdistorts : Distorts base (b :: rest) ↔ Misread base b ∨ Distorts base rest := by
            rw [Distorts, numberDigits_some hvalue, List.length_cons, List.take_succ_cons]
            simp only [List.mem_cons, exists_eq_or_imp]
            rfl
          rw [hdistorts, not_or, ← ih hrest, numberDigits_some hvalue, digitsOf]
          by_cases hb : Misread base b
          · rw [digitOf_misread hb]
            have hlt := digitValue_misread hb hvalue
            refine iff_of_false (fun heq => ?_) (fun hc => hc.1 hb)
            exact absurd (List.cons.inj heq).1 (Nat.ne_of_lt hlt)
          · rw [digitOf_eq hb' hb, hvalue]
            simp [hb]

/-! ## The number that is read -/

/-- `from_chars` reads the number that the string starts with. -/
def ReadsNumber (base : Nat) (bytes : List UInt8) : Prop :=
  ∀ old, fromChars bytes old base = outcome base (numberDigits base bytes) old

theorem outcome_ptr (digits : List Nat) (old : ULong) :
    (outcome base digits old).1.ptr = digits.length := by
  rw [outcome]
  split_ifs with hnil
  · rw [hnil]
    rfl
  all_goals rfl

/-- Without a digit the result is `E_INVAL`. -/
theorem outcome_inval_iff (digits : List Nat) (old : ULong) :
    (outcome base digits old).1.ec = eInval ↔ digits = [] := by
  rw [outcome]
  split_ifs with hnil hlarge
  · exact iff_of_true rfl hnil
  · exact iff_of_false (show eRange ≠ eInval by decide) hnil
  · exact iff_of_false (show (0 : Int) ≠ eInval by decide) hnil

/-- A number that does not fit is `E_RANGE`. -/
theorem outcome_range_iff (digits : List Nat) (old : ULong) :
    (outcome base digits old).1.ec = eRange ↔ 2 ^ 64 ≤ value base digits := by
  rw [outcome]
  split_ifs with hnil hlarge
  · rw [hnil, value_nil]
    exact iff_of_false (show eInval ≠ eRange by decide) (by decide)
  · exact iff_of_true rfl hlarge
  · exact iff_of_false (show (0 : Int) ≠ eRange by decide) hlarge

/-- Without a number, `value` stays; starting from 0 that is the number of no digits. -/
theorem outcome_value {digits : List Nat} (h : value base digits < 2 ^ 64) :
    (outcome base digits 0).2 = BitVec.ofNat 64 (value base digits) := by
  rw [outcome, if_neg (Nat.not_le.mpr h)]
  split_ifs with hnil
  · rw [hnil]
    rfl
  · rfl

/-- **`from_chars`** reads the number, unless the byte behind it is misread, or
    one of its digits is and it is not too large anyway. -/
theorem fromChars_iff (hb : 2 ≤ base) (hb' : base ≤ 36) : ReadsNumber base bytes
    ↔ ¬ RunsOn base bytes
      ∧ (Distorts base bytes → 2 ^ 64 ≤ value base (numberDigits base bytes)) := by
  have heq : ReadsNumber base bytes ↔ ∀ old, outcome base (digitsOf (digitOf base) bytes) old
      = outcome base (numberDigits base bytes) old :=
    forall_congr' fun old => by rw [fromChars_eq hb hb']
  rw [heq]
  constructor
  · intro h
    have hruns : ¬ RunsOn base bytes := by
      intro hruns
      have hptr := congrArg (fun r => r.1.ptr) (h 0)
      simp only [outcome_ptr] at hptr
      exact absurd hptr (Nat.ne_of_gt (digits_longer hb' hruns))
    refine ⟨hruns, fun hdist => ?_⟩
    -- digits that are misread make the number larger
    by_contra hsmall
    have hle := digits_le hb' hruns
    have hne : value base (numberDigits base bytes)
        ≠ value base (digitsOf (digitOf base) bytes) := fun hv =>
      (digits_eq_iff hb' hruns).mp (eq_of_value_eq (by omega) hle hv) hdist
    have hvalue := value_le_value (b := base) hle
    have hold := h 0
    have hnil : numberDigits base bytes ≠ [] := by
      intro hnil
      obtain ⟨c, hc, -⟩ := hdist
      rw [hnil] at hc
      cases hc
    have hnil' : digitsOf (digitOf base) bytes ≠ [] := by
      intro hnil'
      rw [hnil'] at hle
      exact hnil (List.forall₂_nil_right_iff.mp hle)
    rw [outcome, outcome, if_neg hnil, if_neg hnil', if_neg hsmall] at hold
    split_ifs at hold with hbig
    · have hec : eRange = 0 := congrArg (fun r => r.1.ec) hold
      exact absurd hec (by decide)
    · have hx := congrArg (fun r => r.2.toNat) hold
      simp only [BitVec.toNat_ofNat] at hx
      rw [Nat.mod_eq_of_lt (by omega), Nat.mod_eq_of_lt (by omega)] at hx
      exact hne hx.symm
  · rintro ⟨hruns, hbig⟩ old
    by_cases hdist : Distorts base bytes
    · have hle := digits_le hb' hruns
      have hvalue := value_le_value (b := base) hle
      have hlarge := hbig hdist
      have hlarge' := Nat.le_trans hlarge hvalue
      have hnil : ∀ ds, 2 ^ 64 ≤ value base ds → ds ≠ [] := by
        rintro ds hds rfl
        rw [value_nil] at hds
        exact absurd hds (by decide)
      rw [outcome, outcome, if_neg (hnil _ hlarge), if_neg (hnil _ hlarge'), if_pos hlarge,
        if_pos hlarge', hle.length_eq]
    · rw [(digits_eq_iff hb' hruns).mpr hdist]

theorem fromChars_iff_small : ReadsNumber 10 [52, 50, 58]
    ↔ ¬ RunsOn 10 [52, 50, 58]
      ∧ (Distorts 10 [52, 50, 58] → 2 ^ 64 ≤ value 10 (numberDigits 10 [52, 50, 58])) :=
  fromChars_iff (by decide) (by decide)

/-- A colon is no hexadecimal number, but reads as 10. -/
theorem colon_misread : ¬ ReadsNumber 16 [58] := by
  intro h
  have hec : (0 : Int) = eInval := congrArg (fun r => r.1.ec) (h 0)
  exact absurd hec (by decide)

/-! ## Numerals in characters -/

/-- The numeral of a number, in characters. -/
def numeralChars (base n : Nat) : List UInt8 := (numeral base n).map digitChar

theorem numeralChars_length (base n : Nat) :
    (numeralChars base n).length = (numeral base n).length := List.length_map ..

/-- The length that is counted is that of the numeral. -/
theorem charsLength_eq (hb : 2 ≤ base) (v n : Nat) :
    charsLength base v n = n + (numeral base v).length := by
  have hmul : base ≤ base * base := Nat.le_mul_of_pos_right _ (by omega)
  have hmul' : base * base ≤ base * base * base := Nat.le_mul_of_pos_right _ (by omega)
  -- one, two or three digits before the division
  have hone : ∀ v, v < base → (numeral base v).length = 1 := by
    intro v hv
    rw [numeral_of_lt hv]
    rfl
  have htwo : ∀ v, base ≤ v → v < base * base → (numeral base v).length = 2 := by
    intro v hv hlt
    rw [numeral_length_of_ge hb hv, hone _ (Nat.div_lt_of_lt_mul hlt)]
  have hdiv : ∀ v, base * base ≤ v → base ≤ v / base :=
    fun v hv => (Nat.le_div_iff_mul_le (by omega)).mpr hv
  induction v using Nat.strongRecOn generalizing n with
  | _ v ih =>
      rw [charsLength]
      by_cases hlast : v < base * base * base
      · rw [dif_pos (Or.inl hlast)]
        split_ifs with h1 h2
        · rw [hone v h1]
        · rw [htwo v (Nat.le_of_not_lt h1) h2]
        · have hlt : v / base < base * base :=
            Nat.div_lt_of_lt_mul (by rwa [← Nat.mul_assoc])
          rw [numeral_length_of_ge hb (Nat.le_of_not_lt h1),
            htwo (v / base) (hdiv v (Nat.le_of_not_lt h2)) hlt]
      · have hge : base * base ≤ v / base :=
          (Nat.le_div_iff_mul_le (by omega)).mpr (Nat.le_of_not_lt hlast)
        have hpos : 2 * 2 * 2 ≤ base * base * base := Nat.mul_le_mul (Nat.mul_le_mul hb hb) hb
        rw [dif_neg (not_or.mpr ⟨hlast, by omega⟩), if_neg (by omega), if_neg (by omega),
          ih _ (Nat.div_lt_self (by omega) (by omega)),
          numeral_length_of_ge hb (show base ≤ v by omega),
          numeral_length_of_ge hb (show base ≤ v / base by omega),
          numeral_length_of_ge hb (hdiv _ hge), Nat.div_div_eq_div_mul, Nat.div_div_eq_div_mul,
          ← Nat.mul_assoc]
        omega

/-- The numeral is written from its end. -/
theorem unparse_eq (hb : 2 ≤ base) (v : Nat) {buf : List UInt8}
    (hlen : (numeral base v).length ≤ buf.length) :
    unparse base (numeral base v).length v buf
      = numeralChars base v ++ buf.drop (numeral base v).length := by
  induction v using digits_induction hb generalizing buf with
  | hlt v hv =>
      rw [numeral_of_lt hv] at hlen
      rw [numeralChars, numeral_of_lt hv, List.length_singleton, unparse, unparse,
        Nat.mod_eq_of_lt hv]
      cases buf with
      | nil => cases hlen
      | cons c rest => rfl
  | hge v hv ih =>
      rw [numeral_length_of_ge hb hv] at hlen ⊢
      rw [unparse, ih (by rw [List.length_set]; omega), numeralChars, numeralChars,
        numeral_of_ge hb hv, List.map_append, List.append_assoc]
      congr 1
      rw [List.drop_set, if_neg (Nat.lt_irrefl _), Nat.sub_self,
        List.drop_eq_getElem_cons (Nat.lt_of_succ_le hlen)]
      rfl

/-- **`to_chars`** writes the numeral, if it fits. -/
theorem toChars_eq (hb : 2 ≤ base) (buf : List UInt8) (v : ULong) :
    toChars buf v base = if buf.length < (numeralChars base v.toNat).length then
        (⟨buf.length, eOverflow⟩, buf)
      else (⟨(numeralChars base v.toNat).length, 0⟩, numeralChars base v.toNat
        ++ buf.drop (numeralChars base v.toNat).length) := by
  rw [toChars, charsLength_eq hb, Nat.zero_add, numeralChars_length]
  split_ifs with h
  · rfl
  · rw [unparse_eq hb _ (Nat.le_of_not_lt h)]

/-! ## And back -/

/-- A digit that is written is read back. -/
theorem digitOf_digitChar (hb' : base ≤ 36) {digit : Nat} (hd : digit < base) :
    digitOf base (digitChar digit) = some digit := by
  rw [digitChar]
  split_ifs with hten
  · have hc : (UInt8.ofNat (48 + digit)).toNat = 48 + digit := by
      rw [UInt8.toNat_ofNat']
      omega
    rw [digitOf, hc, if_pos ⟨by omega, by omega⟩]
    exact congrArg some (by omega)
  · have hc : (UInt8.ofNat (97 + digit - 10)).toNat = 97 + digit - 10 := by
      rw [UInt8.toNat_ofNat']
      omega
    rw [digitOf, hc, if_neg (by omega), if_pos ⟨by omega, by omega⟩]
    exact congrArg some (by omega)

/-- So is a numeral. -/
theorem digitsOf_map (hb' : base ≤ 36) {digits : List Nat} (h : ∀ d ∈ digits, d < base) :
    digitsOf (digitOf base) (digits.map digitChar) = digits := by
  induction digits with
  | nil => rfl
  | cons d digits ih =>
      rw [List.forall_mem_cons] at h
      rw [List.map_cons, digitsOf, digitOf_digitChar hb' h.1, ih h.2]

/-- A numeral reads back as its number. -/
theorem fromChars_numeralChars (hb : 2 ≤ base) (hb' : base ≤ 36) (v old : ULong) :
    fromChars (numeralChars base v.toNat) old base
      = (⟨(numeralChars base v.toNat).length, 0⟩, v) := by
  have hne : numeral base v.toNat ≠ [] := List.length_pos_iff.mp (numeral_length_pos _ _)
  rw [fromChars_eq hb hb', numeralChars, digitsOf_map hb' (numeral_lt hb _), outcome, if_neg hne,
    value_numeral hb, if_neg (Nat.not_le.mpr v.isLt), List.length_map, BitVec.ofNat_toNat,
    BitVec.setWidth_eq]

/-- The numeral of a `long`, with its sign. -/
def longChars (base : Nat) (v : ULong) : List UInt8 :=
  if v.toInt < 0 then 45 :: numeralChars base v.toInt.natAbs else numeralChars base v.toInt.natAbs

/-- The absolute value of a number and its negation. -/
theorem natAbs_toInt (v : ULong) :
    v.toInt.natAbs = if v.toInt < 0 then (-v).toNat else v.toNat := by
  have hlt := v.isLt
  rw [BitVec.toInt_eq_toNat_cond, BitVec.toNat_neg]
  split_ifs <;> omega

/-- What a conversion into `buf` does: it writes `chars` if they fit, `back` turns
    them into the value again, and if they do not fit it leaves `rest`. -/
structure Converts (chars buf rest : List UInt8) (v : ULong) (out : CharsResult × List UInt8)
    (back : List UInt8 → ULong → CharsResult × ULong) : Prop where
  succeeds : out.1.ec = 0 ↔ chars.length ≤ buf.length
  writes : chars.length ≤ buf.length →
    out = (⟨chars.length, 0⟩, chars ++ buf.drop chars.length)
  returns : chars.length ≤ buf.length → ∀ old,
    back (out.2.take out.1.ptr) old = (⟨chars.length, 0⟩, v)
  fails : ¬ chars.length ≤ buf.length → out = (⟨buf.length, eOverflow⟩, rest)

theorem Converts.intro {chars buf rest : List UInt8} {v : ULong} {out : CharsResult × List UInt8}
    {back : List UInt8 → ULong → CharsResult × ULong}
    (hout : out = if buf.length < chars.length then (⟨buf.length, eOverflow⟩, rest)
      else (⟨chars.length, 0⟩, chars ++ buf.drop chars.length))
    (hback : ∀ old, back chars old = (⟨chars.length, 0⟩, v)) :
    Converts chars buf rest v out back := by
  by_cases hfits : chars.length ≤ buf.length
  · rw [if_neg (Nat.not_lt.mpr hfits)] at hout
    subst hout
    refine ⟨iff_of_true rfl hfits, fun _ => rfl, fun _ old => ?_, fun hc => absurd hfits hc⟩
    dsimp only
    rw [List.take_left]
    exact hback old
  · rw [if_pos (Nat.lt_of_not_le hfits)] at hout
    subst hout
    exact ⟨iff_of_false (show eOverflow ≠ 0 by decide) hfits, fun hc => absurd hc hfits, fun hc => absurd hc hfits,
      fun _ => rfl⟩

/-- `to_chars` for `long`: the sign, and the numeral of the absolute value. -/
theorem toCharsLong_eq (hb : 2 ≤ base) (buf : List UInt8) (v : ULong) :
    toCharsLong buf v base = if buf.length < (longChars base v).length then
        (⟨buf.length, eOverflow⟩, if v.toInt < 0 then buf.set 0 45 else buf)
      else (⟨(longChars base v).length, 0⟩, longChars base v
        ++ buf.drop (longChars base v).length) := by
  have hpos : ∀ n, 0 < (numeralChars base n).length :=
    fun n => numeralChars_length base n ▸ numeral_length_pos base n
  rw [longChars, natAbs_toInt]
  cases buf with
  | nil =>
      rw [toCharsLong]
      split_ifs with hneg h h
      · rfl
      · exact absurd (Nat.succ_pos _) h
      · rfl
      · exact absurd (hpos _) h
  | cons c rest =>
      rw [toCharsLong]
      dsimp only
      by_cases hneg : v.toInt < 0
      · rw [if_pos hneg, if_pos hneg, if_pos hneg, if_pos hneg, toChars_eq hb, List.length_cons,
          List.length_cons]
        by_cases hfits : rest.length < (numeralChars base (-v).toNat).length
        · rw [if_pos hfits, if_pos (Nat.succ_lt_succ hfits)]
          rfl
        · rw [if_neg hfits, if_neg (fun h => hfits (Nat.lt_of_succ_lt_succ h))]
          rfl
      · rw [if_neg hneg, if_neg hneg, if_neg hneg, if_neg hneg]
        exact toChars_eq hb (c :: rest) v

theorem digitChar_ne_sign {digit : Nat} (hd : digit < 36) : digitChar digit ≠ 45 := by
  intro h
  have hdigit := digitOf_digitChar (Nat.le_refl 36) hd
  rw [h] at hdigit
  cases hdigit

/-- A signed numeral reads back as its value. -/
theorem fromCharsLong_longChars (hb : 2 ≤ base) (hb' : base ≤ 36) (v old : ULong) :
    fromCharsLong (longChars base v) old base = (⟨(longChars base v).length, 0⟩, v) := by
  have hlt := v.isLt
  rw [longChars, natAbs_toInt]
  by_cases hneg : v.toInt < 0
  · rw [if_pos hneg, if_pos hneg, fromCharsLong, List.head?_cons, List.tail_cons]
    have hbound : ¬ (1#64 <<< 63) - 0 < -v := by
      rw [BitVec.toInt_eq_toNat_cond] at hneg
      rw [BitVec.lt_def, BitVec.toNat_neg, show ((1#64 <<< 63) - 0).toNat = 2 ^ 63 by decide]
      split_ifs at hneg <;> omega
    simp only [beq_self_eq_true, if_true]
    rw [fromChars_numeralChars hb hb']
    dsimp only
    rw [if_neg (show (0 : Int) ≠ eInval by decide),
      if_neg (not_or.mpr ⟨show (0 : Int) ≠ eRange by decide, hbound⟩), BitVec.neg_neg]
    rfl
  · have hhead : ((numeralChars base v.toNat).head? == some 45) = false := by
      rw [numeralChars, List.head?_map]
      cases hd : (numeral base v.toNat).head? with
      | none => rfl
      | some d =>
          have hlt := numeral_lt hb _ d (List.mem_of_mem_head? hd)
          rw [Option.map_some, beq_eq_false_iff_ne]
          exact fun h => digitChar_ne_sign (by omega) (Option.some.inj h)
    have hbound : ¬ (1#64 <<< 63) - 1 < v := by
      rw [BitVec.toInt_eq_toNat_cond] at hneg
      rw [BitVec.lt_def, show ((1#64 <<< 63) - 1).toNat = 2 ^ 63 - 1 by decide]
      split_ifs at hneg <;> omega
    rw [if_neg hneg, if_neg hneg, fromCharsLong, hhead]
    simp only [Bool.false_eq_true, if_false]
    rw [fromChars_numeralChars hb hb']
    dsimp only
    rw [if_neg (show (0 : Int) ≠ eInval by decide),
      if_neg (not_or.mpr ⟨show (0 : Int) ≠ eRange by decide, hbound⟩)]

/-- **`to_chars` AND BACK**: a conversion succeeds if the numeral fits, and what
    it writes converts back to the value. -/
theorem toChars_fromChars (hb : 2 ≤ base) (hb' : base ≤ 36) (buf : List UInt8) (v : ULong) :
    Converts (numeralChars base v.toNat) buf buf v (toChars buf v base)
        (fun chars old => fromChars chars old base)
      ∧ Converts (longChars base v) buf (if v.toInt < 0 then buf.set 0 45 else buf) v
        (toCharsLong buf v base) (fun chars old => fromCharsLong chars old base) :=
  ⟨Converts.intro (toChars_eq hb buf v) (fromChars_numeralChars hb hb' v),
    Converts.intro (toCharsLong_eq hb buf v) (fromCharsLong_longChars hb hb' v)⟩

theorem toChars_fromChars_small :
    Converts (numeralChars 16 (0xFE#64).toNat) [1, 2, 3] [1, 2, 3] 0xFE
        (toChars [1, 2, 3] 0xFE 16) (fun chars old => fromChars chars old 16)
      ∧ Converts (longChars 16 0xFE) [1, 2, 3]
        (if (0xFE#64).toInt < 0 then [1, 2, 3].set 0 45 else [1, 2, 3]) 0xFE
        (toCharsLong [1, 2, 3] 0xFE 16) (fun chars old => fromCharsLong chars old 16) :=
  toChars_fromChars (by decide) (by decide) _ _

end CharConv
