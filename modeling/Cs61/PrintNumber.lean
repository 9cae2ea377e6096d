import Mathlib.Tactic.SplitIfs
import Cs61.Numerals

/-! # `print_number`

    Digits are written into `numbuf` from right to left, with a separator when
    the position for one is reached.

    * `separated_grouped` — where the separators end up;
    * `printNumber_spec` — the numeral, with its separators if they are asked
      for, always fits. -/

namespace PrintNumber

open Numerals

/-- `NUMBUFSIZ`. -/
def NUMBUFSIZ : Nat := 32

/-- `upper_digits`. -/
def upperDigits : List UInt8 := [48, 49, 50, 51, 52, 53, 54, 55, 56, 57, 65, 66, 67, 68, 69, 70]

/-- `lower_digits`. -/
def lowerDigits : List UInt8 := [48, 49, 50, 51, 52, 53, 54, 55, 56, 57, 97, 98, 99, 100, 101, 102]

/-- The digits of `base`; a negative base has lower-case ones. -/
def digitTable (base : Int) : List UInt8 := if base < 0 then lowerDigits else upperDigits

/-- How far separators are apart, and what they are. -/
def groupSize (base : Nat) : Nat := if base = 10 then 3 else 4

/-- What stands between groups of digits. -/
def separator (base : Nat) : UInt8 := if base = 10 then 44 else 39

/-- The loop: `pos` counts from `buf`, `text` is what stands from there on. -/
def printLoop (digits : List UInt8) (base : Nat) :
    Nat → Option Int → Nat → List UInt8 → Nat × List UInt8
  | 0, _, _, text => (0, text)
  | pos + 1, thousandsPos, val, text =>
      if thousandsPos = some ((pos + 1 : Nat) : Int) then
        if val ≠ 0 ∧ pos ≠ 0 then
          printLoop digits base pos (some ((pos : Int) - groupSize base)) val
            (separator base :: text)
        else (pos, separator base :: text)
      else if val / base ≠ 0 ∧ pos ≠ 0 then
        printLoop digits base pos thousandsPos (val / base) (digits.getD (val % base) 0 :: text)
      else (pos, digits.getD (val % base) 0 :: text)

/-- `print_number(buf, sz, val, base, flags)`: the position it returns, and the
    string that is there.  The terminator is the last byte of the buffer. -/
def printNumber (sz : Nat) (val : BitVec 64) (base : Int) (thousands : Bool) : Nat × List UInt8 :=
  printLoop (digitTable base) base.natAbs (sz - 1)
    (if thousands then some (((sz - 1 : Nat) : Int) - groupSize base.natAbs) else none) val.toNat []

/-! ## Groups of digits -/

/-- The digits, cut from the right into groups of `g`, with a separator before
    every group but the first. -/
def Grouped (g : Nat) (sep : UInt8) (digits text : List UInt8) : Prop :=
  ∃ (first : List UInt8) (rest : List (List UInt8)), digits = first ++ rest.flatten
    ∧ 0 < first.length ∧ first.length ≤ g ∧ (∀ group ∈ rest, group.length = g)
    ∧ text = first ++ rest.flatMap (sep :: ·)

/-- Digits with separators, from right to left, when the next one is due after
    `k` digits. -/
def separated (g : Nat) (sep : UInt8) : Nat → List UInt8 → List UInt8
  | _, [] => []
  | 0, d :: ds => sep :: d :: separated g sep (g - 1) ds
  | k + 1, d :: ds => d :: separated g sep k ds

variable {g : Nat} {sep : UInt8}

/-- No separator stands before the first group. -/
theorem separated_short {k : Nat} {ds : List UInt8} (h : ds.length ≤ k) :
    separated g sep k ds = ds := by
  induction ds generalizing k with
  | nil => cases k <;> rfl
  | cons d ds ih =>
      cases k with
      | zero => cases h
      | succ k => rw [separated, ih (Nat.le_of_succ_le_succ h)]

theorem separated_length_pos (k : Nat) {ds : List UInt8} (hne : ds ≠ []) :
    0 < (separated g sep k ds).length := by
  obtain ⟨d, ds, rfl⟩ := List.exists_cons_of_ne_nil hne
  cases k <;> exact Nat.succ_pos _

/-- A separator stands where a group is full. -/
theorem separated_zero (hg : 0 < g) {ds : List UInt8} (hne : ds ≠ []) :
    separated g sep 0 ds = sep :: separated g sep g ds := by
  obtain ⟨d, ds, rfl⟩ := List.exists_cons_of_ne_nil hne
  obtain ⟨g, rfl⟩ := Nat.exists_eq_succ_of_ne_zero (Nat.ne_of_gt hg)
  rfl

/-- The digits of a group are next to each other. -/
theorem separated_append {k : Nat} {as ds : List UInt8} (h : as.length = k) :
    separated g sep k (as ++ ds) = as ++ separated g sep 0 ds := by
  induction as generalizing k with
  | nil =>
      obtain rfl : 0 = k := h
      rfl
  | cons a as ih =>
      obtain rfl : as.length + 1 = k := h
      rw [List.cons_append, separated, ih rfl]
      rfl

/-- **THE SEPARATORS**: they cut the digits into groups. -/
theorem separated_grouped (hg : 0 < g) {ds : List UInt8} (hne : ds ≠ []) :
    Grouped g sep ds.reverse (separated g sep g ds).reverse := by
  induction hn : ds.length using Nat.strongRecOn generalizing ds with
  | _ n ih =>
      by_cases hlen : ds.length ≤ g
      · refine ⟨ds.reverse, [], ?_, ?_, ?_, ?_, ?_⟩
        · rw [List.flatten_nil, List.append_nil]
        · rw [List.length_reverse]
          exact List.length_pos_iff.mpr hne
        · rwa [List.length_reverse]
        · exact fun _ h => absurd h List.not_mem_nil
        · rw [separated_short hlen, List.flatMap_nil, List.append_nil]
      · -- the last `g` digits are the last group
        have htake : (ds.take g).length = g := List.length_take_of_le (by omega)
        have hdrop : ds.drop g ≠ [] := fun h => hlen (List.drop_eq_nil_iff.mp h)
        obtain ⟨first, rest, hdigits, hpos, hle, hgroups, htext⟩ :=
          ih (ds.drop g).length (by rw [List.length_drop]; omega) hdrop rfl
        have hcut : separated g sep g ds
            = ds.take g ++ sep :: separated g sep g (ds.drop g) := by
          conv_lhs => rw [← List.take_append_drop g ds]
          rw [separated_append htake, separated_zero hg hdrop]
        refine ⟨first, rest ++ [(ds.take g).reverse], ?_, hpos, hle, ?_, ?_⟩
        · rw [List.flatten_append, List.flatten_singleton, ← List.append_assoc, ← hdigits,
            ← List.reverse_append, List.take_append_drop]
        · intro group hmem
          rcases List.mem_append.mp hmem with hmem | hmem
          · exact hgroups group hmem
          · rw [List.mem_singleton.mp hmem, List.length_reverse, htake]
        · rw [hcut, List.reverse_append, List.reverse_cons, htext, List.flatMap_append,
            List.flatMap_singleton, List.append_assoc, List.append_assoc]
          rfl

/-- How much longer separators make a numeral. -/
theorem separated_length (hg : 0 < g) {k : Nat} (hk : k ≤ g) (ds : List UInt8) :
    g * (separated g sep k ds).length + k ≤ (g + 1) * ds.length + g := by
  induction ds generalizing k with
  | nil =>
      cases k <;> simp [separated]
      omega
  | cons d ds ih =>
      rw [List.length_cons, Nat.mul_succ]
      cases k with
      | zero =>
          have h := ih (Nat.sub_le g 1)
          rw [separated, List.length_cons, List.length_cons, Nat.mul_succ, Nat.mul_succ]
          omega
      | succ k =>
          have h := ih (Nat.le_of_succ_le hk)
          rw [separated, List.length_cons, Nat.mul_succ]
          omega

/-- Without its separators the text is the digits again. -/
theorem Grouped.filter {ds text : List UInt8} (h : Grouped g sep ds text) (hsep : sep ∉ ds) :
    text.filter (· ≠ sep) = ds := by
  obtain ⟨first, rest, rfl, -, -, -, rfl⟩ := h
  have hkeep : ∀ l : List UInt8, sep ∉ l → l.filter (· ≠ sep) = l := fun l hl =>
    List.filter_eq_self.mpr fun c hc => decide_eq_true fun heq => hl (heq ▸ hc)
  have hrest : ∀ groups : List (List UInt8), sep ∉ groups.flatten →
      (groups.flatMap (sep :: ·)).filter (· ≠ sep) = groups.flatten := by
    intro groups hgroups
    induction groups with
    | nil => rfl
    | cons group groups ih =>
        rw [List.flatten_cons, List.mem_append, not_or] at hgroups
        rw [List.flatMap_cons, List.filter_append, ih hgroups.2, List.flatten_cons,
          List.filter_cons_of_neg (by simp), hkeep group hgroups.1]
  rw [List.mem_append, not_or] at hsep
  rw [List.filter_append, hkeep first hsep.1, hrest rest hsep.2]

/-- A grouped text has only digits and separators. -/
theorem Grouped.mem {ds text : List UInt8} (h : Grouped g sep ds text) {c : UInt8}
    (hc : c ∈ text) : c = sep ∨ c ∈ ds := by
  obtain ⟨first, rest, rfl, -, -, -, rfl⟩ := h
  rcases List.mem_append.mp hc with hc | hc
  · exact .inr (List.mem_append_left _ hc)
  · obtain ⟨group, hgroup, hc⟩ := List.mem_flatMap.mp hc
    rcases List.mem_cons.mp hc with hc | hc
    · exact .inl hc
    · exact .inr (List.mem_append_right _ (List.mem_flatten.mpr ⟨group, hgroup, hc⟩))

/-! ## The loop -/

/-- The digits of a number as bytes. -/
def numeralBytes (base : Int) (val : Nat) : List UInt8 :=
  (numeral base.natAbs val).map ((digitTable base).getD · 0)

section Loop

variable {digits : List UInt8} {b : Nat}

/-- Without separators the loop writes the numeral. -/
theorem printLoop_none (hb : 2 ≤ b) (val pos : Nat) (text : List UInt8)
    (hpos : (numeral b val).length ≤ pos) :
    printLoop digits b pos none val text
      = (pos - (numeral b val).length, (numeral b val).map (digits.getD · 0) ++ text) := by
  induction val using digits_induction hb generalizing pos text with
  | hlt val hlt =>
      rw [numeral_of_lt hlt] at hpos ⊢
      obtain ⟨p, rfl⟩ : ∃ p, pos = p + 1 := Nat.exists_eq_add_of_lt hpos |>.imp (by simp)
      rw [printLoop, if_neg (by simp), if_neg (fun h => h.1 (Nat.div_eq_of_lt hlt)),
        Nat.mod_eq_of_lt hlt]
      rfl
  | hge val hge ih =>
      have hlen := numeral_length_of_ge hb hge
      have hrest := numeral_length_pos b (val / b)
      obtain ⟨p, rfl⟩ : ∃ p, pos = p + 1 := ⟨pos - 1, by omega⟩
      have hdiv : val / b ≠ 0 := Nat.ne_of_gt (Nat.div_pos hge (by omega))
      rw [printLoop, if_neg (by simp), if_pos ⟨hdiv, by omega⟩, ih _ _ (by omega), hlen,
        numeral_of_ge hb hge, List.map_append, List.append_assoc, Nat.add_sub_add_right]
      rfl

/-- A separator is due: one step of the loop writes it. -/
theorem printLoop_separator {val p : Nat} {text : List UInt8} (hval : val ≠ 0) (hp : p ≠ 0) :
    printLoop digits b (p + 1) (some ((p + 1 : Nat) : Int)) val text
      = printLoop digits b p (some ((p : Int) - groupSize b)) val (separator b :: text) := by
  rw [printLoop, if_pos rfl, if_pos ⟨hval, hp⟩]

/-- No group is empty. -/
theorem groupSize_pos (b : Nat) : 0 < groupSize b := by
  rw [groupSize]
  split <;> decide

/-- With a separator due after `k` digits. -/
theorem printLoop_some (hb : 2 ≤ b) (val k pos : Nat) (text low : List UInt8)
    (hlow : low = ((numeral b val).map (digits.getD · 0)).reverse)
    (hk : 0 < k) (hkg : k ≤ groupSize b)
    (hpos : (separated (groupSize b) (separator b) k low).length ≤ pos) :
    printLoop digits b pos (some ((pos : Int) - k)) val text
      = (pos - (separated (groupSize b) (separator b) k low).length,
          (separated (groupSize b) (separator b) k low).reverse ++ text) := by
  obtain ⟨k, rfl⟩ := Nat.exists_eq_succ_of_ne_zero (Nat.ne_of_gt hk)
  induction val using digits_induction hb generalizing k pos text low with
  | hlt val hlt =>
      -- the last digit
      rw [numeral_of_lt hlt] at hlow
      obtain rfl : low = [digits.getD val 0] := hlow
      have hsep : separated (groupSize b) (separator b) (k + 1) [digits.getD val 0]
          = [digits.getD val 0] := separated_short (Nat.succ_le_succ (Nat.zero_le k))
      rw [hsep] at hpos ⊢
      obtain ⟨p, rfl⟩ : ∃ p, pos = p + 1 := ⟨pos - 1, (Nat.sub_add_cancel hpos).symm⟩
      rw [printLoop, if_neg (by simp; omega), if_neg (fun h => h.1 (Nat.div_eq_of_lt hlt)),
        Nat.mod_eq_of_lt hlt]
      rfl
  | hge val hge ih =>
      have hdiv : val / b ≠ 0 := Nat.ne_of_gt (Nat.div_pos hge (by omega))
      obtain ⟨rest, hrest⟩ : ∃ rest, rest = ((numeral b (val / b)).map (digits.getD · 0)).reverse :=
        ⟨_, rfl⟩
      have hne : rest ≠ [] := by
        rw [hrest, ← List.length_pos_iff, List.length_reverse, List.length_map]
        exact numeral_length_pos b (val / b)
      -- the lowest digit is printed first
      have hcons : low = digits.getD (val % b) 0 :: rest := by
        rw [hlow, hrest, numeral_of_ge hb hge, List.map_append, List.reverse_append]
        rfl
      subst hcons
      rw [separated, List.length_cons] at hpos ⊢
      obtain ⟨p, rfl⟩ : ∃ p, pos = p + 1 := ⟨pos - 1, by omega⟩
      have hlen := @separated_length_pos (groupSize b) (separator b) k rest hne
      -- one pass of the loop
      have hstep : printLoop digits b (p + 1) (some (((p + 1 : Nat) : Int) - (k + 1 : Nat))) val text
          = printLoop digits b p (some ((p : Int) - k)) (val / b)
              (digits.getD (val % b) 0 :: text) := by
        rw [printLoop, if_neg (by simp; omega), if_pos ⟨hdiv, by omega⟩]
        congr 2
        omega
      rw [hstep, Nat.add_sub_add_right, List.reverse_cons, List.append_assoc]
      -- by the digits left before the next separator
      cases k with
      | succ k =>
          exact ih p (digits.getD (val % b) 0 :: text) rest hrest k (Nat.succ_pos k)
            (Nat.le_of_succ_le hkg) (Nat.le_of_succ_le_succ hpos)
      | zero =>
          -- the separator comes before the next digit
          rw [separated_zero (groupSize_pos b) hne] at hpos hlen ⊢
          obtain ⟨g, hg⟩ := Nat.exists_eq_succ_of_ne_zero (Nat.ne_of_gt (groupSize_pos b))
          have hlen' := @separated_length_pos (groupSize b) (separator b) (groupSize b) rest hne
          rw [List.length_cons] at hpos hlen ⊢
          obtain ⟨q, rfl⟩ : ∃ q, p = q + 1 := ⟨p - 1, by omega⟩
          have hih := ih q (separator b :: digits.getD (val % b) 0 :: text) rest hrest g
            (Nat.succ_pos g) (Nat.le_of_eq hg.symm) (by rw [← hg]; omega)
          rw [← hg] at hih
          rw [Nat.cast_zero, Int.sub_zero, printLoop_separator hdiv (by omega), hih,
            Nat.add_sub_add_right, List.reverse_cons, List.append_assoc]
          rfl

end Loop

/-! ## The buffer is large enough -/

/-- The bases that conversions use. -/
def IsBase (base : Int) : Prop := base = 10 ∨ base = 16 ∨ base = -16

variable {base : Int}

/-- The bases of the directives are at least 2. -/
theorem IsBase.two_le (h : IsBase base) : 2 ≤ base.natAbs := by
  rcases h with rfl | rfl | rfl <;> decide

theorem numeralBytes_length (base : Int) (val : Nat) :
    (numeralBytes base val).length = (numeral base.natAbs val).length := List.length_map _

theorem numeralBytes_ne_nil (base : Int) (val : Nat) : numeralBytes base val ≠ [] := by
  rw [← List.length_pos_iff, numeralBytes_length]
  exact numeral_length_pos _ _

/-- What holds of every character of the table holds of the numeral's. -/
theorem numeralBytes_forall (h : IsBase base) {P : UInt8 → Prop}
    (hP : ∀ d < base.natAbs, P ((digitTable base).getD d 0)) (val : Nat) :
    ∀ c ∈ numeralBytes base val, P c := by
  intro c hc
  obtain ⟨d, hd, rfl⟩ := List.mem_map.mp hc
  exact hP d (numeral_lt h.two_le val d hd)

/-- With or without separators, 27 characters are enough. -/
theorem numeralBytes_fit (h : IsBase base) (val : BitVec 64) :
    (numeralBytes base val.toNat).length ≤ 20
      ∧ (groupSize base.natAbs + 1) * (numeralBytes base val.toNat).length
        ≤ groupSize base.natAbs * 27 := by
  have hval := val.isLt
  rw [numeralBytes_length]
  rcases h with rfl | rfl | rfl
  · have hlen := numeral_length_le (b := 10) (k := 20) (by decide) (by decide)
      (Nat.lt_trans hval (by decide))
    exact ⟨hlen, show 4 * (numeral 10 _).length ≤ 3 * 27 by omega⟩
  · have hlen := numeral_length_le (b := 16) (k := 16) (by decide) (by decide)
      (Nat.lt_of_lt_of_le hval (by decide))
    exact ⟨Nat.le_trans hlen (by decide), show 5 * (numeral 16 _).length ≤ 4 * 27 by omega⟩
  · have hlen := numeral_length_le (b := 16) (k := 16) (by decide) (by decide)
      (Nat.lt_of_lt_of_le hval (by decide))
    exact ⟨Nat.le_trans hlen (by decide), show 5 * (numeral 16 _).length ≤ 4 * 27 by omega⟩

/-- **`print_number`**: the numeral, cut into groups if separators are asked
    for, in front of the terminator. -/
theorem printNumber_spec (h : IsBase base) (val : BitVec 64) (thousands : Bool) :
    ∃ text, printNumber NUMBUFSIZ val base thousands = (NUMBUFSIZ - 1 - text.length, text)
      ∧ text.length < NUMBUFSIZ
      ∧ if thousands then
          Grouped (groupSize base.natAbs) (separator base.natAbs) (numeralBytes base val.toNat) text
        else text = numeralBytes base val.toNat := by
  obtain ⟨hfit, hgroups⟩ := numeralBytes_fit h val
  cases thousands with
  | false =>
      refine ⟨numeralBytes base val.toNat, ?_, Nat.lt_of_le_of_lt hfit (by decide), rfl⟩
      rw [numeralBytes_length] at hfit ⊢
      rw [printNumber, if_neg (by decide), printLoop_none h.two_le _ _ _
        (Nat.le_trans hfit (by decide)), List.append_nil]
      rfl
  | true =>
      have hg := groupSize_pos base.natAbs
      have hrev : (numeralBytes base val.toNat).reverse ≠ [] :=
        mt List.reverse_eq_nil_iff.mp (numeralBytes_ne_nil base val.toNat)
      have hgrouped := @separated_grouped _ (separator base.natAbs) hg _ hrev
      rw [List.reverse_reverse] at hgrouped
      have hlen := @separated_length _ (separator base.natAbs) hg _ (Nat.le_refl _)
        (numeralBytes base val.toNat).reverse
      rw [List.length_reverse] at hlen
      have hmul : groupSize base.natAbs * (separated (groupSize base.natAbs)
          (separator base.natAbs) (groupSize base.natAbs)
          (numeralBytes base val.toNat).reverse).length ≤ groupSize base.natAbs * 27 := by omega
      have hle := Nat.le_of_mul_le_mul_left hmul hg
      refine ⟨_, ?_, ?_, hgrouped⟩
      · rw [printNumber, if_pos rfl, printLoop_some h.two_le _ _ _ _ _ rfl hg (Nat.le_refl _)
          (Nat.le_trans hle (by decide)), List.append_nil, List.length_reverse]
        rfl
      · rw [List.length_reverse]
        exact Nat.lt_of_le_of_lt hle (by decide)

/-- `print_number` writes no NUL byte before the one at the end. -/
theorem printNumber_noNul (h : IsBase base) (val : BitVec 64) (thousands : Bool) :
    0 ∉ (printNumber NUMBUFSIZ val base thousands).2 := by
  have hdigits : ∀ c ∈ numeralBytes base val.toNat, c ≠ 0 := by
    refine numeralBytes_forall h ?_ val.toNat
    rcases h with rfl | rfl | rfl <;> decide
  obtain ⟨text, hprint, -, htext⟩ := printNumber_spec h val thousands
  rw [hprint]
  intro hmem
  cases thousands with
  | false =>
      obtain rfl : text = numeralBytes base val.toNat := htext
      exact hdigits 0 hmem rfl
  | true =>
      have hgrouped : Grouped _ _ _ text := htext
      rcases hgrouped.mem hmem with hsep | hmem
      · rw [separator] at hsep
        split at hsep <;> exact absurd hsep (by decide)
      · exact hdigits 0 hmem rfl

end PrintNumber
