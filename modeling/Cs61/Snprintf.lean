import Cs61.Vprintf

/-! # `string_printer` and `vsnprintf`

    A buffer is the bytes that the caller owns; an access behind them has no
    result.

    * `run_text` — the printer after a sequence of events;
    * `vsnprintf_eq` — the buffer and the return value;
    * `vsnprintf_sizes` — two calls agree on what both have room for. -/

namespace Snprintf

open Vprintf

/-! ## Buffers -/

/-- `buf[i] = c`. -/
def store (buf : List UInt8) (i : Nat) (c : UInt8) : Option (List UInt8) :=
  if i < buf.length then some (buf.set i c) else none

/-- A store within the buffer. -/
theorem store_eq {buf : List UInt8} {i : Nat} (h : i < buf.length) (c : UInt8) :
    store buf i c = some (buf.take i ++ c :: buf.drop (i + 1)) := by
  rw [store, if_pos h, List.set_eq_take_append_cons_drop, if_pos h]

/-! ## The printer -/

/-- `string_printer`; `s` and `last` count from the start of the buffer. -/
structure StringPrinter where
  buf : List UInt8
  s : Nat
  last : Nat
  n : BitVec 64
deriving DecidableEq

/-- A printer at the start of its buffer. -/
def StringPrinter.new (buf : List UInt8) (size : Nat) : StringPrinter := ⟨buf, 0, size, 0⟩

/-- `string_printer::putc`. -/
def StringPrinter.putc (sp : StringPrinter) (c : UInt8) : Option StringPrinter :=
  if sp.s < sp.last then
    (store sp.buf sp.s c).map fun buf =>
      { sp with buf, s := sp.s + 1, n := sp.n + 1 }
  else some { sp with n := sp.n + 1 }

/-- A change of color leaves the buffer alone. -/
def StringPrinter.event (sp : StringPrinter) : Event → Option StringPrinter
  | .putc c => sp.putc c
  | .color _ => some sp

/-- The printer after the output. -/
def StringPrinter.run (sp : StringPrinter) (events : List Event) : Option StringPrinter :=
  events.foldlM StringPrinter.event sp

/-- `vsnprintf(s, size, format, val)`: the buffer after it and what it returns. -/
def vsnprintf (buf : List UInt8) (size : Nat) (fmt : List UInt8) (args : List Arg) :
    Option (List UInt8 × BitVec 64) := do
  let events ← vprintf fmt args
  let sp ← (StringPrinter.new buf size).run events
  let buf ←
    if size ≠ 0 ∧ sp.s < sp.last then store sp.buf sp.s 0
    else if size ≠ 0 then store sp.buf (sp.last - 1) 0
    else some sp.buf
  some (buf, sp.n)

/-! ## Runs of the printer -/

/-- The characters of an output. -/
def chars : List Event → List UInt8
  | [] => []
  | .putc c :: events => c :: chars events
  | .color _ :: events => chars events

@[simp] theorem chars_map_putc (text : List UInt8) : chars (text.map .putc) = text := by
  induction text with
  | nil => rfl
  | cons c text ih => rw [List.map_cons, chars, ih]

variable {buf : List UInt8} {size : Nat}

/-- The printer when it has been given `text`. -/
def printed (buf : List UInt8) (size : Nat) (text : List UInt8) : StringPrinter where
  buf := text.take size ++ buf.drop (min text.length size)
  s := min text.length size
  last := size
  n := BitVec.ofNat 64 text.length

/-- Nothing printed. -/
theorem printed_nil (buf : List UInt8) (size : Nat) : printed buf size [] = .new buf size := by
  rw [printed, List.take_nil, List.length_nil, Nat.zero_min, List.drop_zero, List.nil_append]
  rfl

/-- One more character. -/
theorem putc_printed (hsize : size ≤ buf.length) (text : List UInt8) (c : UInt8) :
    (printed buf size text).putc c = some (printed buf size (text ++ [c])) := by
  have hn : BitVec.ofNat 64 text.length + 1 = BitVec.ofNat 64 (text ++ [c]).length := by
    rw [List.length_append, List.length_singleton, BitVec.ofNat_add]
    rfl
  by_cases hfull : text.length < size
  · have hmin : min text.length size = text.length := by omega
    have hmin' : min (text ++ [c]).length size = text.length + 1 := by
      rw [List.length_append, List.length_singleton]
      omega
    have htake : text.take size = text := List.take_of_length_le (by omega)
    have htake' : (text ++ [c]).take size = text ++ [c] :=
      List.take_of_length_le (by rw [List.length_append, List.length_singleton]; omega)
    have hlen : text.length < (text ++ buf.drop text.length).length := by
      rw [List.length_append, List.length_drop]
      omega
    rw [StringPrinter.putc, printed, printed, if_pos (by show min _ _ < size; omega)]
    simp only [hmin, hmin', htake, htake', store_eq hlen, Option.map_some, hn]
    rw [List.take_left, List.drop_append]
    simp
  · have hmin : min text.length size = size := by omega
    have hmin' : min (text ++ [c]).length size = size := by
      rw [List.length_append, List.length_singleton]
      omega
    rw [StringPrinter.putc, printed, printed, if_neg (by show ¬min _ _ < size; omega)]
    simp only [hmin, hmin', hn]
    rw [List.take_append_of_le_length (Nat.le_of_not_lt hfull)]

/-- **A RUN** prints its characters, as far as there is room. -/
theorem run_text (hsize : size ≤ buf.length) (events : List Event) (text : List UInt8) :
    (printed buf size text).run events = some (printed buf size (text ++ chars events)) := by
  induction events generalizing text with
  | nil =>
      rw [chars, List.append_nil]
      rfl
  | cons event events ih =>
      cases event with
      | putc c =>
          have hstep : (printed buf size text).event (.putc c)
              = some (printed buf size (text ++ [c])) := putc_printed hsize text c
          rw [StringPrinter.run, List.foldlM_cons, hstep, Option.bind_eq_bind, Option.bind_some,
            ← StringPrinter.run, ih, chars, List.append_assoc, List.singleton_append]
      | color c => exact ih text

/-! ## `vsnprintf` -/

/-- The buffer afterwards: what there is room for, and a terminator. -/
def filled (buf : List UInt8) (size : Nat) (text : List UInt8) : List UInt8 :=
  if size = 0 then buf
  else text.take (size - 1) ++ 0 :: buf.drop (min text.length (size - 1) + 1)

/-- The buffer keeps its length. -/
theorem filled_length (hsize : size ≤ buf.length) (text : List UInt8) :
    (filled buf size text).length = buf.length := by
  rw [filled]
  split
  · rfl
  · simp
    omega

/-- **`vsnprintf`**: the return value does not depend on the size. -/
theorem vsnprintf_eq (hsize : size ≤ buf.length) {fmt : List UInt8} {args : List Arg}
    {events : List Event} (h : vprintf fmt args = some events) :
    vsnprintf buf size fmt args
      = some (filled buf size (chars events), BitVec.ofNat 64 (chars events).length) := by
  have hrun := run_text hsize events []
  rw [printed_nil, List.nil_append] at hrun
  obtain ⟨text, htext⟩ : ∃ text, text = chars events := ⟨_, rfl⟩
  rw [← htext] at hrun ⊢
  rw [vsnprintf, h, Option.bind_eq_bind, Option.bind_some, hrun, Option.bind_eq_bind,
    Option.bind_some]
  by_cases hzero : size = 0
  · subst hzero
    simp [printed, filled]
  · have hlen : (printed buf size text).buf.length = buf.length := by
      simp [printed]
      omega
    by_cases hroom : min text.length size < size
    · have hmin : min text.length size = text.length := by omega
      have hmin' : min text.length (size - 1) = text.length := by omega
      rw [if_pos ⟨hzero, hroom⟩, store_eq (by rw [hlen]; show min _ _ < _; omega), filled,
        if_neg hzero, hmin', List.take_of_length_le (show text.length ≤ size - 1 by omega)]
      simp only [printed, hmin, List.take_of_length_le (show text.length ≤ size by omega)]
      rw [List.take_left, List.drop_append]
      simp
    · have hmin : min text.length size = size := by omega
      have hmin' : min text.length (size - 1) = size - 1 := by omega
      rw [if_neg (fun h => hroom h.2), if_pos hzero,
        store_eq (by rw [hlen]; show size - 1 < _; omega), filled, if_neg hzero, hmin']
      have hlast : size - 1 + 1 = size := by omega
      simp only [printed, hmin, hlast]
      have htake : (text.take size).length = size := by
        rw [List.length_take]
        exact (Nat.min_comm _ _).trans hmin
      rw [List.take_append_of_le_length (by omega), List.take_take,
        Nat.min_eq_left (Nat.sub_le size 1), List.drop_left' htake]
      rfl

/-- What a buffer holds in front of the terminator. -/
theorem filled_getElem? {text : List UInt8} {i : Nat} (hi : i < text.length)
    (hroom : i < size - 1) : (filled buf size text)[i]? = text[i]? := by
  have hlen : i < (text.take (size - 1)).length := by
    rw [List.length_take]
    omega
  rw [filled, if_neg (by omega), List.getElem?_append_left hlen, List.getElem?_take_of_lt hroom]

/-- Behind what was printed and its terminator nothing is written. -/
theorem filled_behind {text : List UInt8} {i : Nat} (hi : size ≤ i) :
    (filled buf size text)[i]? = buf[i]? := by
  rw [filled]
  split
  · rfl
  · have hlen : (text.take (size - 1)).length = min text.length (size - 1) := by
      rw [List.length_take, Nat.min_comm]
    obtain ⟨j, rfl⟩ : ∃ j, i = min text.length (size - 1) + (j + 1) :=
      ⟨i - min text.length (size - 1) - 1, by omega⟩
    rw [List.getElem?_append_right (by omega), hlen, Nat.add_sub_cancel_left,
      List.getElem?_cons_succ, List.getElem?_drop]
    congr 1
    omega

/-- **EVERY SIZE**: the return value is the length of the whole output, the
    buffer holds what there is room for, and two calls agree on what both have
    room for. -/
theorem vsnprintf_sizes {fmt : List UInt8} {args : List Arg} {events : List Event}
    (h : vprintf fmt args = some events) :
    (∀ (buf : List UInt8) (size : Nat), size ≤ buf.length →
      ∃ (after : List UInt8) (n : BitVec 64), vsnprintf buf size fmt args = some (after, n)
        ∧ n = BitVec.ofNat 64 (chars events).length
        ∧ ((chars events).length < 2 ^ 63 → n.toInt = (chars events).length)
        ∧ (0 < size → after.take (min (chars events).length (size - 1))
              = (chars events).take (size - 1)
            ∧ after[min (chars events).length (size - 1)]? = some 0)
        ∧ (size = 0 → after = buf)
        ∧ after.length = buf.length ∧ ∀ i, size ≤ i → after[i]? = buf[i]?)
      ∧ ∀ (buf₁ buf₂ : List UInt8) (size₁ size₂ : Nat), size₁ ≤ buf₁.length → size₂ ≤ buf₂.length →
        ∃ (after₁ after₂ : List UInt8) (n : BitVec 64),
          vsnprintf buf₁ size₁ fmt args = some (after₁, n)
            ∧ vsnprintf buf₂ size₂ fmt args = some (after₂, n)
            ∧ ∀ i < (chars events).length, i < size₁ - 1 → i < size₂ - 1 → after₁[i]? = after₂[i]? := by
  refine ⟨fun buf size hsize => ?_, fun buf₁ buf₂ size₁ size₂ hsize₁ hsize₂ => ?_⟩
  · refine ⟨_, _, vsnprintf_eq hsize h, rfl, fun hlen => ?_, fun hpos => ?_, fun hzero => ?_,
      filled_length hsize _, fun i hi => filled_behind hi⟩
    · rw [BitVec.toInt_ofNat', Int.bmod_eq_of_le (by omega) (by omega)]
    · have hlen : ((chars events).take (size - 1)).length
          = min (chars events).length (size - 1) := by
        rw [List.length_take, Nat.min_comm]
      rw [filled, if_neg (Nat.ne_of_gt hpos), ← hlen]
      exact ⟨List.take_left, by rw [List.getElem?_append_right (Nat.le_refl _), Nat.sub_self]; rfl⟩
    · rw [filled, if_pos hzero]
  · exact ⟨_, _, _, vsnprintf_eq hsize₁ h, vsnprintf_eq hsize₂ h, fun i hi h₁ h₂ =>
      (filled_getElem? hi h₁).trans (filled_getElem? hi h₂).symm⟩

/-- `"%d!"` for 61. -/
theorem vprintf_small :
    vprintf [37, 100, 33] [.int 61] = some [.putc 54, .putc 49, .putc 33] := by
  have hdirective : directive [100, 33] [.int 61] = some ([.putc 54, .putc 49], [33], []) := by
    decide
  rw [vprintf_directive hdirective, vprintf_char (by decide), vprintf_nil]
  rfl

/-- The theorem's conditions can be met. -/
theorem vsnprintf_sizes_small :
    vprintf [37, 100, 33] [.int 61] = some [.putc 54, .putc 49, .putc 33]
      ∧ ∃ (after₁ after₂ : List UInt8) (n : BitVec 64),
        vsnprintf [7, 7, 7] 3 [37, 100, 33] [.int 61] = some (after₁, n)
          ∧ vsnprintf [9, 9, 9, 9, 9] 5 [37, 100, 33] [.int 61] = some (after₂, n)
          ∧ ∀ i < 3, i < 2 → i < 4 → after₁[i]? = after₂[i]? :=
  ⟨vprintf_small, (vsnprintf_sizes vprintf_small).2 [7, 7, 7] [9, 9, 9, 9, 9] 3 5 (by decide) (by decide)⟩

end Snprintf
