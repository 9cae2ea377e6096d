import Cs61.PrintNumber

/-! # `printer::vprintf`

    A format string and its arguments make a sequence of events for the
    printer: characters for `putc`, and changes of color.

    * `vprintf_induction` — a run, one character or directive at a time;
    * `vprintf_noNul` — no `putc` is given the byte 0. -/

namespace Vprintf

open PrintNumber

/-- What `va_arg` finds: a word of either size, or a string up to its
    terminator. -/
inductive Arg where
  | int (v : BitVec 32)
  | long (v : BitVec 64)
  | str (s : List UInt8)
deriving DecidableEq

/-- What `vprintf` gives to the printer: a character, or a piece of text. -/
inductive Event where
  | putc (c : UInt8)
  | color (c : BitVec 32)
deriving DecidableEq

/-! ## `va_arg` -/

/-- `va_arg(val, int)`. -/
def vaInt : List Arg → Option (BitVec 32 × List Arg)
  | .int v :: args => some (v, args)
  | _ => none

/-- `va_arg(val, long)`. -/
def vaLong : List Arg → Option (BitVec 64 × List Arg)
  | .long v :: args => some (v, args)
  | _ => none

/-- `va_arg(val, char*)`. -/
def vaStr : List Arg → Option (List UInt8 × List Arg)
  | .str s :: args => some (s, args)
  | _ => none

/-! ## Flags, width, precision and length -/

/-- `"#0- +'"`. -/
def flagChars : List UInt8 := [35, 48, 45, 32, 43, 39]

/-- The flag characters: `flags` has the bit of each. -/
def parseFlags (fmt : List UInt8) : List UInt8 × List UInt8 :=
  (fmt.takeWhile (· ∈ flagChars), fmt.dropWhile (· ∈ flagChars))

/-- A decimal digit. -/
def IsDigit (c : UInt8) : Prop := 48 ≤ c ∧ c ≤ 57

instance : DecidablePred IsDigit := fun c => inferInstanceAs (Decidable (48 ≤ c ∧ c ≤ 57))

/-- `v = 10 * v + *format++ - '0'`; there is no result where this overflows. -/
def digitsLoop : Nat → List UInt8 → Option (Nat × List UInt8)
  | v, [] => some (v, [])
  | v, c :: fmt =>
      if IsDigit c then
        if 10 * v + c.toNat < 2 ^ 31 then digitsLoop (10 * v + c.toNat - 48) fmt else none
      else some (v, c :: fmt)

/-- `width`, which is -1 when there is none. -/
def parseWidth (fmt : List UInt8) (args : List Arg) : Option (Int × List UInt8 × List Arg) :=
  match fmt with
  | [] => some (-1, [], args)
  | c :: rest =>
      if 49 ≤ c ∧ c ≤ 57 then
        (digitsLoop 0 fmt).map fun (width, fmt) => ((width : Int), fmt, args)
      else if c = 42 then
        (vaInt args).map fun (width, args) => (width.toInt, rest, args)
      else some (-1, fmt, args)

/-- What stands behind the dot. -/
def parseDot (fmt : List UInt8) (args : List Arg) : Option (Int × List UInt8 × List Arg) :=
  match fmt with
  | [] => some (-1, [], args)
  | c :: rest =>
      if IsDigit c then
        (digitsLoop 0 fmt).map fun (precision, fmt) => ((precision : Int), fmt, args)
      else if c = 42 then
        (vaInt args).map fun (precision, args) => (precision.toInt, rest, args)
      else some (-1, fmt, args)

/-- `precision`, which is -1 when there is no dot. -/
def parsePrecision (fmt : List UInt8) (args : List Arg) : Option (Int × List UInt8 × List Arg) :=
  match fmt with
  | [] => some (-1, [], args)
  | c :: rest =>
      if c = 46 then
        (parseDot rest args).map fun (precision, fmt, args) =>
          (if precision < 0 then 0 else precision, fmt, args)
      else some (-1, fmt, args)

/-- `length`: true for `l`, `t` and `z`. -/
def parseLength : List UInt8 → Bool × List UInt8
  | [] => (false, [])
  | c :: fmt =>
      if c = 108 ∨ c = 116 ∨ c = 122 then (true, fmt)
      else if c = 104 then (false, fmt)
      else (false, c :: fmt)

/-! ## Conversions -/

/-- What the `switch` leaves: a number with its flags, or a string. -/
inductive Conversion where
  /-- `FLAG_NUMERIC`. -/
  | number (num : BitVec 64) (base : Int) (signed negative alt alt2 : Bool)
  | string (data : List UInt8)
  /-- `%C`. -/
  | color (c : BitVec 32)
deriving DecidableEq

/-- `numbuf` with one character; 0 terminates it at once. -/
def oneChar (c : UInt8) : List UInt8 := if c = 0 then [] else [c]

/-- `va_arg(val, long)` or `va_arg(val, int)`. -/
def vaSigned (length : Bool) (args : List Arg) : Option (BitVec 64 × List Arg) :=
  if length then vaLong args else (vaInt args).map fun (x, args) => (x.signExtend 64, args)

/-- `va_arg(val, unsigned long)` or `va_arg(val, unsigned)`. -/
def vaUnsigned (length : Bool) (args : List Arg) : Option (BitVec 64 × List Arg) :=
  if length then vaLong args else (vaInt args).map fun (x, args) => (x.setWidth 64, args)

/-- The directives that print a number without a sign. -/
def formatUnsigned (base : Int) (flags : List UInt8) (length : Bool) (args : List Arg) :
    Option (Conversion × List Arg) :=
  (vaUnsigned length args).map fun (num, args) =>
    (.number num base false false (35 ∈ flags) false, args)

/-- The main conversion character, what it reads, and the format behind it. -/
def convert (fmt : List UInt8) (flags : List UInt8) (length : Bool) (args : List Arg) :
    Option (Conversion × List UInt8 × List Arg) :=
  match fmt with
  | [] => some (.string (oneChar 37), [], args)
  | c :: fmt =>
      (if c = 100 ∨ c = 105 then
        (vaSigned length args).map fun (x, args) =>
          (.number (if x.slt 0 then -x else x) 10 true (x.slt 0) (35 ∈ flags) false, args)
      else if c = 117 then formatUnsigned 10 flags length args
      else if c = 120 then formatUnsigned (-16) flags length args
      else if c = 88 then formatUnsigned 16 flags length args
      else if c = 112 then
        (vaLong args).map fun (num, args) => (.number num (-16) false false true true, args)
      else if c = 115 then (vaStr args).map fun (data, args) => (.string data, args)
      else if c = 67 then (vaInt args).map fun (color, args) => (.color color, args)
      else if c = 99 then
        (vaInt args).map fun (x, args) => (.string (oneChar (UInt8.ofBitVec (x.setWidth 8))), args)
      else some (.string (oneChar c), args)).map fun (conversion, args) => (conversion, fmt, args)

/-! ## Printing -/

/-- The conversion of a sum to `int`. -/
def toInt (x : Int) : Int := x.bmod (2 ^ 32)

/-- The characters of the datum, before they are padded. -/
def Conversion.data (flags : List UInt8) : Conversion → List UInt8
  | number num base _ _ _ _ => (printNumber NUMBUFSIZ num base (39 ∈ flags)).2
  | string data => data
  | color _ => []

/-- The datum is a number. -/
def Conversion.IsNumeric : Conversion → Bool
  | number .. => true
  | _ => false

/-- `prefix`. -/
def Conversion.prefixBytes (flags : List UInt8) : Conversion → List UInt8
  | number num base signed negative alt alt2 =>
      if signed then
        if negative then [45] else if 43 ∈ flags then [43] else if 32 ∈ flags then [32] else []
      else if alt ∧ (base = 16 ∨ base = -16) ∧ (num ≠ 0 ∨ alt2) then
        if base = -16 then [48, 120] else [48, 88]
      else []
  | _ => []

/-- `datalen`. -/
def datalen (numeric : Bool) (precision : Int) (data : List UInt8) : Int :=
  if 0 ≤ precision ∧ ¬numeric then min precision data.length else toInt data.length

/-- `zeros`. -/
def zeros (numeric : Bool) (flags : List UInt8) (width precision datalen prefixLen : Int) : Int :=
  if numeric ∧ 0 ≤ precision then if datalen < precision then precision - datalen else 0
  else if numeric ∧ 48 ∈ flags ∧ 45 ∉ flags ∧ datalen + prefixLen < width then
    toInt (width - datalen - prefixLen)
  else 0

/-- A loop that counts down to 0 and puts one character each time. -/
def pad (n : Int) (c : UInt8) : List UInt8 := List.replicate n.toNat c

/-- The characters of one directive. -/
def output (conversion : Conversion) (flags : List UInt8) (width precision : Int) : List UInt8 :=
  let data := conversion.data flags
  let lead := conversion.prefixBytes flags
  let datalen := datalen conversion.IsNumeric precision data
  let zeros := zeros conversion.IsNumeric flags width precision datalen lead.length
  let width := toInt (width - (datalen + zeros + lead.length))
  let left := if 45 ∈ flags then [] else pad width 32
  let width := width - left.length
  left ++ lead ++ pad zeros 48 ++ data.take datalen.toNat ++ pad width 32

/-- A directive, behind its `%`: the events, the format behind it, and the
    arguments that are left. -/
def directive (fmt : List UInt8) (args : List Arg) :
    Option (List Event × List UInt8 × List Arg) := do
  let (flags, fmt) := parseFlags fmt
  let (width, fmt, args) ← parseWidth fmt args
  let (precision, fmt, args) ← parsePrecision fmt args
  let (length, fmt) := parseLength fmt
  let (conversion, fmt, args) ← convert fmt flags length args
  match conversion with
  | .color c => some ([.color c], fmt, args)
  | conversion => some ((output conversion flags width precision).map .putc, fmt, args)

/-! ## What is left of the format and of the arguments -/

section Suffix

variable {fmt rest : List UInt8} {args args' : List Arg}

/-- The arguments left are a suffix of those given. -/
theorem vaInt_suffix {v : BitVec 32} (h : vaInt args = some (v, args')) : args' <:+ args := by
  rw [vaInt.eq_def] at h
  split at h
  · cases h
    exact List.suffix_cons _ _
  · cases h

theorem vaLong_suffix {v : BitVec 64} (h : vaLong args = some (v, args')) : args' <:+ args := by
  rw [vaLong.eq_def] at h
  split at h
  · cases h
    exact List.suffix_cons _ _
  · cases h

/-- A string is the first argument. -/
theorem vaStr_eq {s : List UInt8} (h : vaStr args = some (s, args')) : args = .str s :: args' := by
  rw [vaStr.eq_def] at h
  split at h
  · cases h
    rfl
  · cases h

/-- What is left of the format is a suffix of it. -/
theorem parseFlags_suffix (fmt : List UInt8) : (parseFlags fmt).2 <:+ fmt :=
  List.dropWhile_suffix _

theorem digitsLoop_suffix {v w : Nat} (h : digitsLoop v fmt = some (w, rest)) : rest <:+ fmt := by
  induction fmt generalizing v with
  | nil =>
      cases h
      exact List.suffix_refl []
  | cons c fmt ih =>
      rw [digitsLoop] at h
      split_ifs at h
      · exact (ih h).trans (List.suffix_cons c fmt)
      · cases h
        exact List.suffix_refl _

/-- A width or a precision: digits, a star, or nothing. -/
theorem amount_suffix {p : UInt8 → Prop} [DecidablePred p] {v : Int}
    (h : (match fmt with
      | [] => some (-1, [], args)
      | c :: tail =>
          if p c then (digitsLoop 0 fmt).map fun (v, fmt) => ((v : Int), fmt, args)
          else if c = 42 then (vaInt args).map fun (v, args) => (v.toInt, tail, args)
          else some (-1, fmt, args)) = some (v, rest, args')) :
    rest <:+ fmt ∧ args' <:+ args := by
  split at h
  · cases h
    exact ⟨List.suffix_refl [], List.suffix_refl _⟩
  · split_ifs at h
    · obtain ⟨⟨v, rest⟩, hloop, heq⟩ := Option.map_eq_some_iff.mp h
      cases heq
      exact ⟨digitsLoop_suffix hloop, List.suffix_refl _⟩
    · obtain ⟨⟨v, args⟩, hva, heq⟩ := Option.map_eq_some_iff.mp h
      cases heq
      exact ⟨List.suffix_cons _ _, vaInt_suffix hva⟩
    · cases h
      exact ⟨List.suffix_refl _, List.suffix_refl _⟩

/-- Likewise for the width. -/
theorem parseWidth_suffix {w : Int} (h : parseWidth fmt args = some (w, rest, args')) :
    rest <:+ fmt ∧ args' <:+ args := by
  rw [parseWidth.eq_def] at h
  exact amount_suffix h

theorem parseDot_suffix {p : Int} (h : parseDot fmt args = some (p, rest, args')) :
    rest <:+ fmt ∧ args' <:+ args := by
  rw [parseDot.eq_def] at h
  exact amount_suffix h

/-- Likewise for the precision. -/
theorem parsePrecision_suffix {p : Int} (h : parsePrecision fmt args = some (p, rest, args')) :
    rest <:+ fmt ∧ args' <:+ args := by
  rw [parsePrecision.eq_def] at h
  split at h
  · cases h
    exact ⟨List.suffix_refl [], List.suffix_refl _⟩
  · split_ifs at h
    · obtain ⟨⟨p, rest, args⟩, hdot, heq⟩ := Option.map_eq_some_iff.mp h
      cases heq
      obtain ⟨hrest, hargs⟩ := parseDot_suffix hdot
      exact ⟨hrest.trans (List.suffix_cons _ _), hargs⟩
    · cases h
      exact ⟨List.suffix_refl _, List.suffix_refl _⟩

/-- Likewise for the length. -/
theorem parseLength_suffix (fmt : List UInt8) : (parseLength fmt).2 <:+ fmt := by
  rw [parseLength.eq_def]
  split
  · exact List.suffix_refl []
  · split_ifs
    · exact List.suffix_cons _ _
    · exact List.suffix_cons _ _
    · exact List.suffix_refl _

/-- An argument that is extended to 64 bits where it is shorter. -/
theorem vaExtended_suffix {length : Bool} {extend : BitVec 32 → BitVec 64} {x : BitVec 64}
    (h : (if length then vaLong args else (vaInt args).map fun (x, args) => (extend x, args))
      = some (x, args')) : args' <:+ args := by
  split_ifs at h
  · exact vaLong_suffix h
  · obtain ⟨⟨v, args⟩, hva, heq⟩ := Option.map_eq_some_iff.mp h
    cases heq
    exact vaInt_suffix hva

theorem vaSigned_suffix {length : Bool} {x : BitVec 64}
    (h : vaSigned length args = some (x, args')) : args' <:+ args := vaExtended_suffix h

theorem vaUnsigned_suffix {length : Bool} {x : BitVec 64}
    (h : vaUnsigned length args = some (x, args')) : args' <:+ args := vaExtended_suffix h

/-- What a conversion can be. -/
inductive Converts (args : List Arg) : Conversion → Prop where
  | number (num : BitVec 64) {base : Int} (signed negative alt alt2 : Bool) (h : IsBase base) :
      Converts args (.number num base signed negative alt alt2)
  | string {s : List UInt8} (h : .str s ∈ args) : Converts args (.string s)
  | char (c : UInt8) : Converts args (.string (oneChar c))
  | color (c : BitVec 32) : Converts args (.color c)

/-- What the unsigned conversions give. -/
theorem formatUnsigned_cases {base : Int} (hbase : IsBase base) {flags : List UInt8}
    {length : Bool} {conversion : Conversion}
    (h : formatUnsigned base flags length args = some (conversion, args')) :
    Converts args conversion ∧ args' <:+ args := by
  obtain ⟨⟨x, args⟩, hva, heq⟩ := Option.map_eq_some_iff.mp h
  cases heq
  exact ⟨.number x _ _ _ _ hbase, vaUnsigned_suffix hva⟩

/-- What all conversions give. -/
theorem convert_cases {flags : List UInt8} {length : Bool} {conversion : Conversion}
    (h : convert fmt flags length args = some (conversion, rest, args')) :
    Converts args conversion ∧ rest <:+ fmt ∧ args' <:+ args := by
  rw [convert.eq_def] at h
  split at h
  · cases h
    exact ⟨.char 37, List.suffix_refl [], List.suffix_refl _⟩
  · obtain ⟨⟨conversion, args₁⟩, h, heq⟩ := Option.map_eq_some_iff.mp h
    cases heq
    suffices hcases : Converts args conversion ∧ args' <:+ args from
      ⟨hcases.1, List.suffix_cons _ _, hcases.2⟩
    split_ifs at h
    · obtain ⟨⟨x, args₁⟩, hva, heq⟩ := Option.map_eq_some_iff.mp h
      cases heq
      exact ⟨.number _ _ _ _ _ (.inl rfl), vaSigned_suffix hva⟩
    · exact formatUnsigned_cases (.inl rfl) h
    · exact formatUnsigned_cases (.inr (.inr rfl)) h
    · exact formatUnsigned_cases (.inr (.inl rfl)) h
    · obtain ⟨⟨x, args₁⟩, hva, heq⟩ := Option.map_eq_some_iff.mp h
      cases heq
      exact ⟨.number _ _ _ _ _ (.inr (.inr rfl)), vaLong_suffix hva⟩
    · obtain ⟨⟨s, args₁⟩, hva, heq⟩ := Option.map_eq_some_iff.mp h
      cases heq
      rw [vaStr_eq hva]
      exact ⟨.string List.mem_cons_self, List.suffix_cons _ _⟩
    · obtain ⟨⟨x, args₁⟩, hva, heq⟩ := Option.map_eq_some_iff.mp h
      cases heq
      exact ⟨.color _, vaInt_suffix hva⟩
    · obtain ⟨⟨x, args₁⟩, hva, heq⟩ := Option.map_eq_some_iff.mp h
      cases heq
      exact ⟨.char _, vaInt_suffix hva⟩
    · cases h
      exact ⟨.char _, List.suffix_refl _⟩

/-- A directive in its parts. -/
theorem directive_parts {out : List Event}
    (h : directive fmt args = some (out, rest, args')) :
    ∃ (width precision : Int) (fmt₁ fmt₂ : List UInt8) (args₁ args₂ : List Arg)
      (conversion : Conversion),
      parseWidth (parseFlags fmt).2 args = some (width, fmt₁, args₁)
        ∧ parsePrecision fmt₁ args₁ = some (precision, fmt₂, args₂)
        ∧ convert (parseLength fmt₂).2 (parseFlags fmt).1 (parseLength fmt₂).1 args₂
          = some (conversion, rest, args')
        ∧ ((∃ c, conversion = .color c ∧ out = [.color c])
          ∨ out = (output conversion (parseFlags fmt).1 width precision).map .putc) := by
  obtain ⟨⟨width, fmt₁, args₁⟩, hwidth, h⟩ := Option.bind_eq_some_iff.mp h
  obtain ⟨⟨precision, fmt₂, args₂⟩, hprecision, h⟩ := Option.bind_eq_some_iff.mp h
  obtain ⟨⟨conversion, fmt₃, args₃⟩, hconvert, h⟩ := Option.bind_eq_some_iff.mp h
  refine ⟨width, precision, fmt₁, fmt₂, args₁, args₂, conversion, hwidth, hprecision, ?_, ?_⟩
  · cases conversion <;> cases h <;> exact hconvert
  · cases conversion with
    | color c =>
        cases h
        exact .inl ⟨c, rfl, rfl⟩
    | number | string =>
        cases h
        exact .inr rfl

/-- A directive leaves suffixes of the format and of the arguments. -/
theorem directive_suffix {out : List Event} (h : directive fmt args = some (out, rest, args')) :
    rest <:+ fmt ∧ args' <:+ args := by
  obtain ⟨width, precision, fmt₁, fmt₂, args₁, args₂, conversion, hwidth, hprecision, hconvert, -⟩ :=
    directive_parts h
  obtain ⟨hfmt₁, hargs₁⟩ := parseWidth_suffix hwidth
  obtain ⟨hfmt₂, hargs₂⟩ := parsePrecision_suffix hprecision
  obtain ⟨-, hrest, hargs'⟩ := convert_cases hconvert
  have hrest₁ : rest <:+ fmt₁ := (hrest.trans (parseLength_suffix fmt₂)).trans hfmt₂
  exact ⟨(hrest₁.trans hfmt₁).trans (parseFlags_suffix fmt), (hargs'.trans hargs₂).trans hargs₁⟩

end Suffix

/-! ## The loop -/

/-- `vprintf(format, val)`.  There is no result where an argument is missing or
    of another type, or where a width or a precision overflows. -/
def vprintf (fmt : List UInt8) (args : List Arg) : Option (List Event) :=
  match fmt with
  | [] => some []
  | c :: fmt =>
      if c ≠ 37 then (vprintf fmt args).map (.putc c :: ·)
      else
        match _h : directive fmt args with
        | none => none
        | some (out, rest, args) => (vprintf rest args).map (out ++ ·)
termination_by fmt.length
decreasing_by
  · exact Nat.lt_succ_self _
  · exact Nat.lt_succ_of_le (directive_suffix _h).1.length_le

section Loop

variable {fmt rest : List UInt8} {args args' : List Arg}

@[simp] theorem vprintf_nil (args : List Arg) : vprintf [] args = some [] := by
  rw [vprintf]

/-- A byte that is no `%` is printed. -/
theorem vprintf_char {c : UInt8} (hc : c ≠ 37) (fmt : List UInt8) (args : List Arg) :
    vprintf (c :: fmt) args = (vprintf fmt args).map (.putc c :: ·) := by
  rw [vprintf, if_pos hc]

/-- A format without directives prints itself. -/
theorem vprintf_plain (h : 37 ∉ fmt) (args : List Arg) :
    vprintf fmt args = some (fmt.map .putc) := by
  induction fmt with
  | nil => exact vprintf_nil args
  | cons c fmt ih =>
      rw [List.mem_cons, not_or] at h
      rw [vprintf_char (Ne.symm h.1), ih h.2]
      rfl

/-- A directive is printed. -/
theorem vprintf_directive {out : List Event} (h : directive fmt args = some (out, rest, args')) :
    vprintf (37 :: fmt) args = (vprintf rest args').map (out ++ ·) := by
  rw [vprintf, if_neg (by simp)]
  split
  · rename_i hnone
    rw [hnone] at h
    cases h
  · rename_i hsome
    rw [hsome] at h
    cases h
    rfl

/-- A directive without its argument is undefined. -/
theorem vprintf_none (h : directive fmt args = none) : vprintf (37 :: fmt) args = none := by
  rw [vprintf, if_neg (by simp)]
  split
  · rfl
  · rename_i hsome
    rw [hsome] at h
    cases h

/-- Induction along a run. -/
theorem vprintf_induction {P : List UInt8 → List Arg → List Event → Prop}
    (hnil : ∀ args, P [] args [])
    (hchar : ∀ c fmt args out, c ≠ 37 → P fmt args out → P (c :: fmt) args (.putc c :: out))
    (hdirective : ∀ fmt args events rest args' out, directive fmt args = some (events, rest, args') →
      P rest args' out → P (37 :: fmt) args (events ++ out))
    {out : List Event} (h : vprintf fmt args = some out) : P fmt args out := by
  induction hn : fmt.length using Nat.strongRecOn generalizing fmt args out with
  | _ n ih =>
      cases fmt with
      | nil =>
          rw [vprintf_nil] at h
          cases h
          exact hnil args
      | cons c fmt =>
          by_cases hc : c = 37
          · subst hc
            cases hd : directive fmt args with
            | none =>
                rw [vprintf_none hd] at h
                cases h
            | some r =>
                obtain ⟨events, rest, args'⟩ := r
                rw [vprintf_directive hd] at h
                obtain ⟨out, hout, rfl⟩ := Option.map_eq_some_iff.mp h
                have hlt : rest.length < n :=
                  hn ▸ Nat.lt_succ_of_le (directive_suffix hd).1.length_le
                exact hdirective fmt args events rest args' out hd (ih _ hlt hout rfl)
          · rw [vprintf_char hc] at h
            obtain ⟨out, hout, rfl⟩ := Option.map_eq_some_iff.mp h
            exact hchar c fmt args out hc (ih _ (hn ▸ Nat.lt_succ_self _) hout rfl)

end Loop

/-! ## Strings without the byte 0 -/

/-- The format and the strings end at their terminators. -/
def NulFree (fmt : List UInt8) (args : List Arg) : Prop :=
  0 ∉ fmt ∧ ∀ s, .str s ∈ args → (0 : UInt8) ∉ s

section NoNul

variable {fmt rest : List UInt8} {args args' : List Arg}

theorem NulFree.mono (h : NulFree fmt args) (hrest : rest <:+ fmt) (hargs : args' <:+ args) :
    NulFree rest args' :=
  ⟨fun hmem => h.1 (hrest.mem hmem), fun s hs => h.2 s (hargs.mem hs)⟩

theorem oneChar_noNul (c : UInt8) : 0 ∉ oneChar c := by
  rw [oneChar]
  split
  · exact List.not_mem_nil
  · rename_i hc
    exact fun h => hc (List.mem_singleton.mp h).symm

/-- The data of a conversion has no NUL byte. -/
theorem data_noNul {conversion : Conversion} (h : Converts args conversion)
    (hargs : ∀ s, .str s ∈ args → (0 : UInt8) ∉ s) (flags : List UInt8) :
    0 ∉ conversion.data flags := by
  cases h with
  | number num _ _ _ _ hbase => exact printNumber_noNul hbase num _
  | string hs => exact hargs _ hs
  | char c => exact oneChar_noNul c
  | color c => exact List.not_mem_nil

theorem prefixBytes_noNul (conversion : Conversion) (flags : List UInt8) :
    0 ∉ conversion.prefixBytes flags := by
  rw [Conversion.prefixBytes.eq_def]
  split
  · split_ifs <;> decide
  · exact List.not_mem_nil

theorem pad_noNul (n : Int) {c : UInt8} (hc : c ≠ 0) : 0 ∉ pad n c :=
  fun h => hc (List.eq_of_mem_replicate h).symm

/-- Nor has its output. -/
theorem output_noNul {conversion : Conversion} (h : Converts args conversion)
    (hargs : ∀ s, .str s ∈ args → (0 : UInt8) ∉ s) (flags : List UInt8) (width precision : Int) :
    0 ∉ output conversion flags width precision := by
  have hspace (n : Int) : 0 ∉ pad n 32 := pad_noNul n (by decide)
  rw [output]
  simp only [List.mem_append, not_or]
  refine ⟨⟨⟨⟨?_, prefixBytes_noNul _ _⟩, pad_noNul _ (by decide)⟩, fun hmem => ?_⟩, hspace _⟩
  · split
    · exact List.not_mem_nil
    · exact hspace _
  · exact data_noNul h hargs flags (List.mem_of_mem_take hmem)

/-- Nor has that of a directive. -/
theorem directive_noNul {out : List Event} (h : directive fmt args = some (out, rest, args'))
    (hargs : ∀ s, .str s ∈ args → (0 : UInt8) ∉ s) : .putc 0 ∉ out := by
  obtain ⟨width, precision, fmt₁, fmt₂, args₁, args₂, conversion, hwidth, hprecision, hconvert,
    hout⟩ := directive_parts h
  have hsuffix : args₂ <:+ args :=
    (parsePrecision_suffix hprecision).2.trans (parseWidth_suffix hwidth).2
  have hfree := output_noNul (convert_cases hconvert).1 fun s hs => hargs s (hsuffix.mem hs)
  intro hmem
  rcases hout with ⟨c, -, rfl⟩ | rfl
  · simp at hmem
  · obtain ⟨c, hc, heq⟩ := List.mem_map.mp hmem
    cases heq
    exact hfree _ _ _ hc

/-- **NO BYTE 0** reaches `putc`. -/
theorem vprintf_noNul {out : List Event} (h : vprintf fmt args = some out)
    (hfree : NulFree fmt args) : .putc 0 ∉ out := by
  refine vprintf_induction (P := fun fmt args out => NulFree fmt args → .putc 0 ∉ out)
    (fun _ _ => List.not_mem_nil) ?_ ?_ h hfree
  · intro c fmt args out hc ih hfree hmem
    rcases List.mem_cons.mp hmem with heq | hmem
    · cases heq
      exact hfree.1 List.mem_cons_self
    · exact ih (hfree.mono (List.suffix_cons c fmt) (List.suffix_refl args)) hmem
  · intro fmt args events rest args' out hd ih hfree hmem
    obtain ⟨hrest, hargs⟩ := directive_suffix hd
    rcases List.mem_append.mp hmem with hmem | hmem
    · exact directive_noNul hd hfree.2 hmem
    · exact ih (hfree.mono (hrest.trans (List.suffix_cons 37 fmt)) hargs) hmem

end NoNul

end Vprintf
