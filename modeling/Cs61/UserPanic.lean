import Cs61.Snprintf

/-! # The user-level `panic`

    `panic` formats its message into a buffer, gives `vsnprintf` one byte less
    than there is, and appends a newline.  It takes the return value for the
    length of the string in the buffer, which it is for short messages only.

    * `panic_iff` — the messages for which it stays in the buffer and passes a
      line to `sys_panic`;
    * `fixed_short_iff` — for messages shorter than 2^31 bytes these are the
      ones of at most 239 bytes, and some of 240. -/

namespace UserPanic

open Vprintf Snprintf

/-- `char buf[240]`, with whatever was on the stack. -/
structure Frame where
  buf : List UInt8
  size : buf.length = 240

/-- A format and arguments that `vprintf` handles. -/
structure Message where
  fmt : List UInt8
  args : List Arg
  events : List Event
  handled : vprintf fmt args = some events
  nulFree : NulFree fmt args

/-- The whole message. -/
def Message.text (m : Message) : List UInt8 := chars m.events

/-! ## `panic` -/

/-- `strcpy(buf + i, "\n")`. -/
def strcpyNewline (buf : List UInt8) (i : Nat) : Option (List UInt8) := do
  let buf ← store buf i 10
  store buf (i + 1) 0

/-- `panic(format, ...)`: the buffer that `sys_panic` is given. -/
def panic (frame : Frame) (fmt : List UInt8) (args : List Arg) : Option (List UInt8) := do
  let (buf, n) ← vsnprintf frame.buf (240 - 1) fmt args
  let len : Int := (n.setWidth 32).toInt
  if 0 < len then
    let c ← buf[(len - 1).toNat]?
    if c ≠ 10 then strcpyNewline buf (len - if len = 240 - 1 then 1 else 0).toNat
    else some buf
  else some buf

/-- The string at the start of a buffer, if its terminator is in the buffer. -/
def cstring (buf : List UInt8) : Option (List UInt8) :=
  if 0 ∈ buf then some (buf.takeWhile (· ≠ 0)) else none

/-- The text is empty, or ends in a newline. -/
def EndsLine (text : List UInt8) : Prop := text = [] ∨ text.getLast? = some 10

/-- No access leaves the buffer, and `sys_panic` gets a string there that is
    empty or ends with a newline. -/
def PassesLine (frame : Frame) (m : Message) : Prop :=
  ∃ buf text, panic frame m.fmt m.args = some buf ∧ cstring buf = some text ∧ EndsLine text

/-- The length of a message as an `int`. -/
def intLength (text : List UInt8) : Int := (text.length : Int).bmod (2 ^ 32)

/-- The messages that `panic` gets right; `stale` is the last byte of the
    buffer before the call. -/
def Fixed (text : List UInt8) (stale : Option UInt8) : Prop :=
  (intLength text ≤ 0 ∧ EndsLine (text.take 238))
    ∨ (0 < intLength text ∧ intLength text ≤ 238
      ∧ (text[(intLength text - 1).toNat]? ≠ some 10 ∨ EndsLine (text.take 238)))
    ∨ intLength text = 239
    ∨ (intLength text = 240 ∧ stale = some 10 ∧ EndsLine (text.take 238))

/-! ## Strings in the buffer -/

variable {frame : Frame} {m : Message} {text buf : List UInt8}

/-- The text up to the NUL byte. -/
theorem cstring_append {tail : List UInt8} (h : 0 ∉ text) :
    cstring (text ++ 0 :: tail) = some text := by
  have hall : ∀ c ∈ text, decide (c ≠ 0) = true := fun c hc =>
    decide_eq_true fun heq => h (heq ▸ hc)
  rw [cstring, if_pos (List.mem_append_right _ List.mem_cons_self),
    List.takeWhile_append_of_pos hall, List.takeWhile_cons_of_neg (by simp), List.append_nil]

/-- The newline within the buffer. -/
theorem strcpyNewline_eq {i : Nat} (h : i + 1 < buf.length) :
    strcpyNewline buf i = some (buf.take i ++ 10 :: 0 :: buf.drop (i + 2)) := by
  have htake : (buf.take i).length = i := List.length_take_of_le (by omega)
  have hlen : i + 1 < (buf.take i ++ 10 :: buf.drop (i + 1)).length := by
    simp
    omega
  rw [strcpyNewline, store_eq (Nat.lt_of_succ_lt h), Option.bind_eq_bind, Option.bind_some,
    store_eq hlen]
  congr 1
  rw [List.take_append, List.drop_append, htake]
  simp [List.take_of_length_le, htake, show i + 1 - i = 1 by omega, show i + 1 + 1 - i = 2 by omega]
  omega

/-- The newline outside the buffer. -/
theorem strcpyNewline_none {i : Nat} (h : buf.length ≤ i) : strcpyNewline buf i = none := by
  rw [strcpyNewline, store, if_neg (Nat.not_lt.mpr h)]
  rfl

theorem Message.noNul (m : Message) : 0 ∉ m.text := by
  have hall : ∀ events : List Event, .putc 0 ∉ events → 0 ∉ chars events := by
    intro events h
    induction events with
    | nil => exact List.not_mem_nil
    | cons event events ih =>
        rw [List.mem_cons, not_or] at h
        cases event with
        | putc c =>
            rw [chars, List.mem_cons, not_or]
            exact ⟨fun heq => h.1 (heq ▸ rfl), ih h.2⟩
        | color c => exact ih h.2
  exact hall m.events (vprintf_noNul m.handled m.nulFree)

/-- What `vsnprintf` leaves in the buffer. -/
def Frame.filled (frame : Frame) (text : List UInt8) : List UInt8 :=
  text.take 238 ++ 0 :: frame.buf.drop (min text.length 238 + 1)

theorem Frame.filled_length (frame : Frame) (text : List UInt8) :
    (frame.filled text).length = 240 := by
  have hsize := frame.size
  simp [Frame.filled]
  omega

/-- `panic` behind `vsnprintf`. -/
theorem panic_eq (frame : Frame) (m : Message) :
    panic frame m.fmt m.args
      = if 0 < intLength m.text then
          ((frame.filled m.text)[(intLength m.text - 1).toNat]?).bind fun c =>
            if c ≠ 10 then
              strcpyNewline (frame.filled m.text)
                (intLength m.text - if intLength m.text = 239 then 1 else 0).toNat
            else some (frame.filled m.text)
        else some (frame.filled m.text) := by
  have hsize : 240 - 1 ≤ frame.buf.length := by
    rw [frame.size]
    decide
  have hlen : ((BitVec.ofNat 64 (chars m.events).length).setWidth 32).toInt
      = intLength m.text := by
    rw [BitVec.setWidth_ofNat_of_le (by decide), BitVec.toInt_ofNat']
    rfl
  rw [panic, vsnprintf_eq hsize m.handled, Option.bind_eq_bind, Option.bind_some]
  have hfilled : filled frame.buf (240 - 1) (chars m.events) = frame.filled m.text :=
    if_neg (by decide)
  simp only [hfilled, hlen]
  rfl

/-! ## The cases of the length -/

theorem intLength_le (text : List UInt8) (h : 0 < intLength text) :
    intLength text ≤ text.length := by
  have hmod : intLength text % 2 ^ 32 = (text.length : Int) % 2 ^ 32 := Int.bmod_emod
  have hlt : intLength text < 2 ^ 31 := Int.bmod_lt (by decide)
  omega

theorem intLength_eq (h : text.length < 2 ^ 31) : intLength text = text.length :=
  Int.bmod_eq_of_le (by omega) (by omega)

theorem take_noNul (m : Message) (n : Nat) : 0 ∉ m.text.take n :=
  fun h => m.noNul (List.mem_of_mem_take h)

/-- The string that `vsnprintf` leaves is passed as it is. -/
theorem passesLine_filled (h : panic frame m.fmt m.args = some (frame.filled m.text)) :
    PassesLine frame m ↔ EndsLine (m.text.take 238) := by
  have hstring : cstring (frame.filled m.text) = some (m.text.take 238) :=
    cstring_append (take_noNul m 238)
  constructor
  · rintro ⟨buf, text, hbuf, htext, hends⟩
    cases h.symm.trans hbuf
    cases hstring.symm.trans htext
    exact hends
  · exact fun hends => ⟨_, _, h, hstring, hends⟩

/-- A newline is appended at `i`. -/
theorem passesLine_strcpy {i : Nat} (hi : i ≤ 238)
    (h : panic frame m.fmt m.args = strcpyNewline (frame.filled m.text) i) (htext : i ≤ m.text.length) :
    PassesLine frame m := by
  have htake : (frame.filled m.text).take i = m.text.take i := by
    rw [Frame.filled, List.take_append_of_le_length, List.take_take, Nat.min_eq_left hi]
    rw [List.length_take]
    omega
  rw [strcpyNewline_eq (by rw [Frame.filled_length]; omega), htake] at h
  refine ⟨_, m.text.take i ++ [10], h, ?_, .inr List.getLast?_concat⟩
  rw [List.append_cons]
  refine cstring_append ?_
  rw [List.mem_append, not_or]
  exact ⟨take_noNul m i, by decide⟩

/-- The buffer holds the start of the message. -/
theorem filled_text {i : Nat} (hi : i < 238) (htext : i < m.text.length) :
    (frame.filled m.text)[i]? = m.text[i]? := by
  rw [Frame.filled, List.getElem?_append_left (by rw [List.length_take]; omega),
    List.getElem?_take_of_lt hi]

/-- `vsnprintf` has put its terminator in the byte that is looked at. -/
theorem filled_terminator (htext : 239 ≤ m.text.length) :
    (frame.filled m.text)[238]? = some 0 := by
  have hlen : (m.text.take 238).length = 238 := List.length_take_of_le (by omega)
  rw [Frame.filled, List.getElem?_append_right (Nat.le_of_eq hlen), hlen]
  rfl

/-- The last byte is the one of before the call. -/
theorem filled_stale (htext : 238 ≤ m.text.length) :
    (frame.filled m.text)[239]? = frame.buf[239]? := by
  have hlen : (m.text.take 238).length = 238 := List.length_take_of_le htext
  rw [Frame.filled, List.getElem?_append_right (by omega), hlen, Nat.min_eq_right htext]
  show (frame.buf.drop 239)[0]? = _
  rw [List.getElem?_drop]

variable {len : Int}

/-- Messages of up to 238 bytes. -/
theorem passesLine_short (hlen : intLength m.text = len) (hpos : 0 < len) (hle : len ≤ 238) :
    PassesLine frame m
      ↔ m.text[(len - 1).toNat]? ≠ some 10 ∨ EndsLine (m.text.take 238) := by
  have hpanic := panic_eq frame m
  have htext := intLength_le m.text (hlen ▸ hpos)
  rw [hlen] at hpanic htext
  have hbyte := @filled_text frame m (len - 1).toNat (by omega) (by omega)
  obtain ⟨c, hc⟩ : ∃ c, m.text[(len - 1).toNat]? = some c :=
    ⟨_, List.getElem?_eq_getElem (by omega)⟩
  rw [if_pos hpos, hbyte, hc, Option.bind_some, if_neg (show ¬len = 239 by omega)] at hpanic
  rw [hc]
  by_cases hnl : c = 10
  · rw [if_neg (not_not_intro hnl)] at hpanic
    rw [passesLine_filled hpanic, hnl]
    exact ⟨.inr, fun h => h.resolve_left (not_not_intro rfl)⟩
  · rw [if_pos hnl] at hpanic
    exact ⟨fun _ => .inl fun h => hnl (Option.some.inj h),
      fun _ => passesLine_strcpy (by omega) hpanic (by omega)⟩

/-- Messages of 239 bytes. -/
theorem passesLine_exact (hlen : intLength m.text = 239) : PassesLine frame m := by
  have hpanic := panic_eq frame m
  have htext := intLength_le m.text (by omega)
  rw [hlen] at hpanic htext
  have hbyte : (frame.filled m.text)[((239 : Int) - 1).toNat]? = some 0 :=
    filled_terminator (by omega)
  rw [if_pos (by decide), hbyte, Option.bind_some, if_pos (by decide), if_pos rfl] at hpanic
  exact passesLine_strcpy (Nat.le_refl 238) hpanic (by omega)

/-- Messages of 240 bytes, where a stale byte decides. -/
theorem passesLine_stale (hlen : intLength m.text = 240) :
    PassesLine frame m ↔ frame.buf[239]? = some 10 ∧ EndsLine (m.text.take 238) := by
  have hpanic := panic_eq frame m
  have htext := intLength_le m.text (by omega)
  rw [hlen] at hpanic htext
  have hbyte : (frame.filled m.text)[((240 : Int) - 1).toNat]? = frame.buf[239]? :=
    filled_stale (by omega)
  obtain ⟨c, hc⟩ : ∃ c, frame.buf[239]? = some c :=
    ⟨_, List.getElem?_eq_getElem (by rw [frame.size]; decide)⟩
  rw [if_pos (by decide), hbyte, hc, Option.bind_some,
    if_neg (show ¬(240 : Int) = 239 by decide)] at hpanic
  rw [hc]
  by_cases hnl : c = 10
  · rw [if_neg (not_not_intro hnl)] at hpanic
    rw [passesLine_filled hpanic, hnl]
    exact ⟨fun h => ⟨rfl, h⟩, And.right⟩
  · -- the newline would be written behind the buffer
    have hnone : strcpyNewline (frame.filled m.text) ((240 : Int) - 0).toNat = none :=
      strcpyNewline_none (Nat.le_of_eq (frame.filled_length _))
    rw [if_pos hnl, hnone] at hpanic
    constructor
    · rintro ⟨buf, text, hbuf, -⟩
      cases hpanic.symm.trans hbuf
    · exact fun h => absurd (Option.some.inj h.1) hnl

/-- Longer messages. -/
theorem passesLine_long (hlen : 240 < intLength m.text) : ¬PassesLine frame m := by
  have hpanic := panic_eq frame m
  have hbehind : (frame.filled m.text)[(intLength m.text - 1).toNat]? = none := by
    rw [List.getElem?_eq_none_iff, Frame.filled_length]
    omega
  rw [if_pos (by omega), hbehind] at hpanic
  rintro ⟨buf, text, hbuf, -⟩
  cases hpanic.symm.trans hbuf

/-- **`panic`** gets a message right exactly if it is `Fixed`. -/
theorem panic_iff (frame : Frame) (m : Message) :
    PassesLine frame m ↔ Fixed m.text frame.buf[239]? := by
  obtain ⟨len, hlen⟩ : ∃ len, intLength m.text = len := ⟨_, rfl⟩
  rw [Fixed, hlen]
  by_cases hneg : len ≤ 0
  · have hpanic := panic_eq frame m
    rw [hlen, if_neg (Int.not_lt.mpr hneg)] at hpanic
    rw [passesLine_filled hpanic]
    constructor
    · exact fun h => .inl ⟨hneg, h⟩
    · rintro (⟨-, h⟩ | ⟨h, -⟩ | h | ⟨h, -⟩)
      · exact h
      all_goals omega
  have hpos : 0 < len := Int.not_le.mp hneg
  by_cases hshort : len ≤ 238
  · rw [passesLine_short hlen hpos hshort]
    constructor
    · exact fun h => .inr (.inl ⟨hpos, hshort, h⟩)
    · rintro (⟨h, -⟩ | ⟨-, -, h⟩ | h | ⟨h, -⟩)
      · omega
      · exact h
      all_goals omega
  by_cases hexact : len = 239
  · subst hexact
    exact iff_of_true (passesLine_exact hlen) (.inr (.inr (.inl rfl)))
  by_cases hstale : len = 240
  · subst hstale
    rw [passesLine_stale hlen]
    constructor
    · exact fun h => .inr (.inr (.inr ⟨rfl, h⟩))
    · rintro (⟨h, -⟩ | ⟨-, h, -⟩ | h | ⟨-, h⟩)
      · omega
      · omega
      · omega
      · exact h
  · refine iff_of_false (passesLine_long (by omega)) ?_
    rintro (⟨h, -⟩ | ⟨-, h, -⟩ | h | ⟨h, -⟩) <;> omega

/-- A format of `n` times `a`. -/
def repeated (n : Nat) : List UInt8 := List.replicate n 97

theorem eq_of_mem_repeated {n : Nat} {c : UInt8} (h : c ∈ repeated n) : c = 97 :=
  List.eq_of_mem_replicate h

/-- A message of `n` equal characters. -/
def repeatedMessage (n : Nat) : Message where
  fmt := repeated n
  args := []
  events := (repeated n).map .putc
  handled := vprintf_plain (fun h => absurd (eq_of_mem_repeated h) (by decide)) []
  nulFree := ⟨fun h => absurd (eq_of_mem_repeated h) (by decide),
    fun _ h => absurd h List.not_mem_nil⟩

theorem repeatedMessage_length (n : Nat) : (repeatedMessage n).text.length = n := by
  rw [Message.text, repeatedMessage, chars_map_putc, repeated, List.length_replicate]

/-- A buffer that holds zeros before the call. -/
def zeroFrame : Frame := ⟨List.replicate 240 0, List.length_replicate⟩

/-- The longer messages fail whatever the buffer has held. -/
theorem passesLine_repeated {n : Nat} (hlo : 240 < n) (hhi : n < 2 ^ 31) (frame : Frame) :
    ¬PassesLine frame (repeatedMessage n) := by
  have hlen : intLength (repeatedMessage n).text = n := by
    rw [intLength_eq (by rwa [repeatedMessage_length]), repeatedMessage_length]
  exact passesLine_long (by omega)

theorem long_message_leaves : ¬PassesLine zeroFrame (repeatedMessage 241) :=
  passesLine_repeated (by decide) (by decide) zeroFrame

/-- Messages of ordinary length: up to 239 bytes. -/
theorem fixed_short_iff {stale : Option UInt8} (h : text.length < 2 ^ 31) :
    Fixed text stale
      ↔ text.length ≤ 239
        ∨ text.length = 240 ∧ stale = some 10 ∧ EndsLine (text.take 238) := by
  have hlen := intLength_eq h
  rw [Fixed, hlen]
  constructor
  · rintro (⟨h, -⟩ | ⟨-, h, -⟩ | h | ⟨h, hrest⟩)
    · exact .inl (by omega)
    · exact .inl (by omega)
    · exact .inl (by omega)
    · exact .inr ⟨by omega, hrest⟩
  · rintro (hle | ⟨heq, hrest⟩)
    · by_cases hzero : text.length = 0
      · rw [List.length_eq_zero_iff.mp hzero]
        exact .inl ⟨Int.le_refl 0, .inl rfl⟩
      by_cases hexact : text.length = 239
      · exact .inr (.inr (.inl (by omega)))
      · refine .inr (.inl ⟨by omega, by omega, ?_⟩)
        rw [List.take_of_length_le (by omega), EndsLine, List.getLast?_eq_getElem?,
          show ((text.length : Int) - 1).toNat = text.length - 1 by omega]
        exact (em _).symm.imp_right .inr
    · exact .inr (.inr (.inr ⟨by omega, hrest⟩))

end UserPanic
