import Mathlib.Data.List.Basic
import Mathlib.Data.Nat.Bitwise

/-! # The keyboard

    `keyboard_readc` turns the scan codes of a PC keyboard into characters.  It
    keeps the modifier keys in one byte and remembers a mode shift.

    * `run_modifiers` — what the modifier byte says, after any scan codes;
    * `run_typed` — a text that is typed is read. -/

namespace Keyboard

/-! ## The key map -/

/-- The bit of SHIFT. -/
def MOD_SHIFT : UInt8 := (1 : UInt8) <<< 0
/-- The bit of CONTROL. -/
def MOD_CONTROL : UInt8 := (1 : UInt8) <<< 1
/-- The bit of CAPS LOCK. -/
def MOD_CAPSLOCK : UInt8 := (1 : UInt8) <<< 3

/-- The first key that is a modifier. -/
def KEY_SHIFT : UInt8 := 0xFA
/-- The key CONTROL. -/
def KEY_CONTROL : UInt8 := 0xFB
/-- The key ALT. -/
def KEY_ALT : UInt8 := 0xFC
/-- The first of the locks. -/
def KEY_CAPSLOCK : UInt8 := 0xFD
/-- The key NUM LOCK. -/
def KEY_NUMLOCK : UInt8 := 0xFE
/-- The key SCROLL LOCK. -/
def KEY_SCROLLLOCK : UInt8 := 0xFF

/-- The arrow up. -/
def KEY_UP : UInt8 := 0xC0
/-- The arrow to the right. -/
def KEY_RIGHT : UInt8 := 0xC1
/-- The arrow down. -/
def KEY_DOWN : UInt8 := 0xC2
/-- The arrow to the left. -/
def KEY_LEFT : UInt8 := 0xC3
/-- The key HOME. -/
def KEY_HOME : UInt8 := 0xC4
/-- The key END. -/
def KEY_END : UInt8 := 0xC5
/-- The key PAGE UP. -/
def KEY_PAGEUP : UInt8 := 0xC6
/-- The key PAGE DOWN. -/
def KEY_PAGEDOWN : UInt8 := 0xC7
/-- The key INSERT. -/
def KEY_INSERT : UInt8 := 0xC8
/-- The key DELETE. -/
def KEY_DELETE : UInt8 := 0xC9

/-- `CKEY(cn)`. -/
def ckey (cn : UInt8) : UInt8 := 0x80 + cn

/-- A part of the table that is written as characters. -/
def ascii (cs : List Char) : List UInt8 := cs.map fun c => UInt8.ofNat c.toNat

/-- Keys without a meaning. -/
def zeros (n : Nat) : List UInt8 := List.replicate n 0

/-- `keymap`. -/
def keymap : List UInt8 :=
  [0, 0x1B, ckey 0, ckey 1, ckey 2, ckey 3, ckey 4, ckey 5,
    ckey 6, ckey 7, ckey 8, ckey 9, ckey 10, ckey 11, 0x08, 0x09]
  -- 0x10
  ++ ascii ['q', 'w', 'e', 'r', 't', 'y', 'u', 'i', 'o', 'p']
  ++ [ckey 12, ckey 13, ckey 14, KEY_CONTROL] ++ ascii ['a', 's']
  -- 0x20
  ++ ascii ['d', 'f', 'g', 'h', 'j', 'k', 'l'] ++ [ckey 15, ckey 16, ckey 17, KEY_SHIFT, ckey 18]
  ++ ascii ['z', 'x', 'c', 'v']
  -- 0x30
  ++ ascii ['b', 'n', 'm'] ++ [ckey 19, ckey 20, ckey 21, KEY_SHIFT] ++ ascii ['*']
  ++ [KEY_ALT] ++ ascii [' '] ++ [KEY_CAPSLOCK] ++ zeros 5
  -- 0x40
  ++ zeros 5 ++ [KEY_NUMLOCK, KEY_SCROLLLOCK]
  ++ ascii ['7', '8', '9', '-', '4', '5', '6', '+', '1']
  -- 0x50
  ++ ascii ['2', '3', '0', '.'] ++ zeros 12
  -- 0x60, and the codes behind a mode shift from 0x80
  ++ zeros 48
  ++ zeros 12 ++ [ckey 14, KEY_CONTROL] ++ zeros 2
  -- 0xA0
  ++ zeros 16
  ++ zeros 5 ++ ascii ['/'] ++ zeros 2 ++ [KEY_ALT] ++ zeros 7
  -- 0xC0
  ++ zeros 7 ++ [KEY_HOME, KEY_UP, KEY_PAGEUP, 0, KEY_LEFT, 0, KEY_RIGHT, 0, KEY_END]
  -- 0xD0
  ++ [KEY_DOWN, KEY_PAGEDOWN, KEY_INSERT, KEY_DELETE] ++ zeros 12
  ++ zeros 32

/-- `complex_keymap`: a key alone, with SHIFT, with CONTROL, and with both. -/
def complexKeymap : List (List UInt8) :=
  [ascii ['1', '!'] ++ [0, 0], ascii ['2', '@'] ++ [0, 0],
    ascii ['3', '#'] ++ [0, 0], ascii ['4', '$'] ++ [0, 0],
    ascii ['5', '%'] ++ [0, 0], ascii ['6', '^'] ++ [0, 0x1E],
    ascii ['7', '&'] ++ [0, 0], ascii ['8', '*'] ++ [0, 0],
    ascii ['9', '('] ++ [0, 0], ascii ['0', ')'] ++ [0, 0],
    ascii ['-', '_'] ++ [0, 0x1F], ascii ['=', '+'] ++ [0, 0],
    ascii ['[', '{'] ++ [0x1B, 0], ascii [']', '}'] ++ [0x1D, 0],
    [0x0A, 0x0A, 0x0D, 0x0D],
    ascii [';', ':'] ++ [0, 0],
    [0x27, 0x22, 0, 0], [0x60, 0x7E, 0, 0],
    [0x5C, 0x7C, 0x1C, 0], ascii [',', '<'] ++ [0, 0],
    ascii ['.', '>'] ++ [0, 0], ascii ['/', '?'] ++ [0, 0]]

/-- `keymap[i]`, for any byte. -/
def lookup (i : UInt8) : UInt8 := keymap.getD i.toNat 0

/-! ## `keyboard_readc` -/

/-- The static variables. -/
structure State where
  modifiers : UInt8
  last_escape : UInt8
deriving DecidableEq

/-- `1 << (ch - KEY_SHIFT)`. -/
def modBit (ch : UInt8) : UInt8 := 1 <<< (ch - KEY_SHIFT)

/-- What a key that is pressed gives, and the modifiers after it. -/
def press (modifiers ch : UInt8) : UInt8 × UInt8 :=
  if 0x61 ≤ ch ∧ ch ≤ 0x7A then
    if modifiers &&& MOD_CONTROL ≠ 0 then (ch - 0x60, modifiers)
    else if (modifiers &&& MOD_SHIFT == 0) != (modifiers &&& MOD_CAPSLOCK == 0) then
      (ch - 0x20, modifiers)
    else (ch, modifiers)
  else if KEY_CAPSLOCK ≤ ch then (0, modifiers ^^^ modBit ch)
  else if KEY_SHIFT ≤ ch then (0, modifiers ||| modBit ch)
  else if ckey 0 ≤ ch ∧ ch ≤ ckey 21 then
    ((complexKeymap.getD (ch - ckey 0).toNat []).getD (modifiers &&& 3).toNat 0, modifiers)
  else if ch < 0x80 ∧ modifiers &&& MOD_CONTROL ≠ 0 then (0, modifiers)
  else (ch, modifiers)

/-- The modifiers after the release of a key. -/
def release (modifiers ch : UInt8) : UInt8 :=
  if KEY_SHIFT ≤ ch ∧ ch < KEY_CAPSLOCK then modifiers &&& ~~~modBit ch else modifiers

/-- `keyboard_readc()`; `data` is the byte in the data register when the status
    register says that there is one. -/
def keyboardReadc (data : Option UInt8) (st : State) : Int × State :=
  match data with
  | none => (-1, st)
  | some data =>
      let escape := st.last_escape
      let st := { st with last_escape := 0 }
      if data = 0xE0 then (0, { st with last_escape := 0x80 })
      else if data &&& 0x80 ≠ 0 then
        (0, { st with modifiers := release st.modifiers (lookup ((data &&& 0x7F) ||| escape)) })
      else
        let p := press st.modifiers (lookup (data ||| escape))
        (p.1.toNat, { st with modifiers := p.2 })

/-- The characters of a sequence of scan codes. -/
def run (st : State) : List UInt8 → List Int × State
  | [] => ([], st)
  | code :: codes =>
      let r := keyboardReadc (some code) st
      let rest := run r.2 codes
      (r.1 :: rest.1, rest.2)

/-- Before the first scan code. -/
def start : State := { modifiers := 0, last_escape := 0 }

/-! ## Key events

    The scan codes as keys that go down and up, by their places in the map. -/

/-- What a scan code stands for: the press or the release of a key. -/
inductive Event
  | press (ch : UInt8)
  | release (ch : UInt8)
deriving DecidableEq

/-- The event of one scan code. -/
def event (escape data : UInt8) : Option Event :=
  if data = 0xE0 then none
  else if data &&& 0x80 ≠ 0 then some (.release (lookup ((data &&& 0x7F) ||| escape)))
  else some (.press (lookup (data ||| escape)))

/-- The events of a sequence of scan codes, after an escape code or none. -/
def events (escape : UInt8) : List UInt8 → List Event
  | [] => []
  | data :: codes =>
      (event escape data).toList ++ events (if data = 0xE0 then 0x80 else 0) codes

/-- The key of an event. -/
def Event.key : Event → UInt8
  | .press ch => ch
  | .release ch => ch

/-- The modifier byte after an event. -/
def Event.after (m : UInt8) : Event → UInt8
  | .press ch => (Keyboard.press m ch).2
  | .release ch => Keyboard.release m ch

/-- A key went down and has not come up since. -/
def Down (key : UInt8) (evs : List Event) : Prop :=
  ∃ before since, evs = before ++ .press key :: since ∧ Event.release key ∉ since

/-- SHIFT, CONTROL and ALT act while they are down, the locks after an odd
    number of presses. -/
def Active (key : UInt8) (evs : List Event) : Prop :=
  if key < KEY_CAPSLOCK then Down key evs else evs.count (.press key) % 2 = 1

/-- The modifier byte tells which modifier keys are active. -/
structure Tells (m : UInt8) (evs : List Event) : Prop where
  bits : ∀ key, KEY_SHIFT ≤ key → (m &&& modBit key ≠ 0 ↔ Active key evs)
  small : m < 0x40

variable {m key ch escape : UInt8} {evs : List Event} {e : Event} {st : State}

/-! ## Modifier bits -/

/-- What holds of all 256 bytes. -/
theorem forall_byte {P : UInt8 → Prop} (h : ∀ n < 256, P (UInt8.ofNat n)) (b : UInt8) : P b := by
  have hb := h b.toNat (UInt8.toNat_lt b)
  rwa [UInt8.ofNat_toNat] at hb

/-- The six modifier keys. -/
def modifierKeys : List UInt8 :=
  [KEY_SHIFT, KEY_CONTROL, KEY_ALT, KEY_CAPSLOCK, KEY_NUMLOCK, KEY_SCROLLLOCK]

/-- The modifier keys, one by one. -/
theorem mem_modifierKeys : KEY_SHIFT ≤ key → key ∈ modifierKeys :=
  forall_byte (P := fun key => KEY_SHIFT ≤ key → key ∈ modifierKeys) (by decide +kernel) key

/-- What holds of all modifier keys. -/
theorem forall_modifier {P : UInt8 → Prop} (h : ∀ key ∈ modifierKeys, P key)
    (hkey : KEY_SHIFT ≤ key) : P key := h key (mem_modifierKeys hkey)

/-- The bit of a modifier key. -/
def bit (m key : UInt8) : Bool := m.toBitVec.getLsbD (key - KEY_SHIFT).toNat

/-- The test of a modifier. -/
theorem and_modBit (hkey : KEY_SHIFT ≤ key) : m &&& modBit key ≠ 0 ↔ bit m key = true := by
  refine forall_modifier (P := fun key => m &&& modBit key ≠ 0 ↔ bit m key = true) ?_ hkey
  intro key hmem
  refine forall_byte (P := fun m => m &&& modBit key ≠ 0 ↔ bit m key = true) ?_ m
  revert key
  decide +kernel

/-- Each modifier key has a bit of its own. -/
theorem bit_modBit {other : UInt8} (hkey : KEY_SHIFT ≤ key) (hother : KEY_SHIFT ≤ other) :
    bit (modBit other) key = decide (key = other) := by
  have hall : ∀ key ∈ modifierKeys, ∀ other ∈ modifierKeys,
      bit (modBit other) key = decide (key = other) := by
    decide +kernel
  exact hall key (mem_modifierKeys hkey) other (mem_modifierKeys hother)

/-- The bits are those of a byte. -/
theorem bit_lt_eight (hkey : KEY_SHIFT ≤ key) : (key - KEY_SHIFT).toNat < 8 :=
  forall_modifier (P := fun key => (key - KEY_SHIFT).toNat < 8) (by decide +kernel) hkey

/-- The press of a lock changes its bit. -/
theorem bit_press_lock {other : UInt8} (hkey : KEY_SHIFT ≤ key) (hother : KEY_SHIFT ≤ other) :
    bit (m ^^^ modBit other) key = (bit m key ^^ decide (key = other)) := by
  rw [← bit_modBit hkey hother, bit, UInt8.toBitVec_xor, BitVec.getLsbD_xor]
  rfl

/-- The press of a key that is held sets its bit. -/
theorem bit_press_held {other : UInt8} (hkey : KEY_SHIFT ≤ key) (hother : KEY_SHIFT ≤ other) :
    bit (m ||| modBit other) key = (bit m key || decide (key = other)) := by
  rw [← bit_modBit hkey hother, bit, UInt8.toBitVec_or, BitVec.getLsbD_or]
  rfl

/-- Its release clears it. -/
theorem bit_release_held {other : UInt8} (hkey : KEY_SHIFT ≤ key) (hother : KEY_SHIFT ≤ other) :
    bit (m &&& ~~~modBit other) key = (bit m key && !decide (key = other)) := by
  rw [← bit_modBit hkey hother, bit, UInt8.toBitVec_and, UInt8.toBitVec_not, BitVec.getLsbD_and,
    BitVec.getLsbD_not, decide_eq_true (bit_lt_eight hkey), Bool.true_and]
  rfl

/-! ## What an event does -/

/-- Only modifier keys change the modifiers. -/
theorem press_modifiers (m ch : UInt8) : (press m ch).2 =
    if KEY_CAPSLOCK ≤ ch then m ^^^ modBit ch
    else if KEY_SHIFT ≤ ch then m ||| modBit ch else m := by
  rw [press]
  by_cases hletter : 0x61 ≤ ch ∧ ch ≤ 0x7A
  · -- a letter lies below all modifier keys
    have hlow : ¬ KEY_SHIFT ≤ ch ∧ ¬ KEY_CAPSLOCK ≤ ch := by
      have h := UInt8.le_iff_toNat_le.mp hletter.2
      constructor
      · intro h'
        have := Nat.le_trans (UInt8.le_iff_toNat_le.mp h') h
        exact absurd this (by decide)
      · intro h'
        have := Nat.le_trans (UInt8.le_iff_toNat_le.mp h') h
        exact absurd this (by decide)
    rw [if_pos hletter, if_neg hlow.2, if_neg hlow.1]
    split
    · rfl
    split
    · rfl
    · rfl
  rw [if_neg hletter]
  split
  · rfl
  split
  · rfl
  split
  · rfl
  split
  · rfl
  · rfl

/-- A key that is pressed is down. -/
theorem down_press {other : UInt8} :
    Down key (evs ++ [.press other]) ↔ key = other ∨ Down key evs := by
  constructor
  · rintro ⟨before, since, heq, hno⟩
    rcases List.eq_nil_or_concat since with rfl | ⟨since, last, rfl⟩
    · obtain ⟨-, hlast⟩ := List.append_inj' heq rfl
      exact Or.inl (Event.press.inj (List.cons.inj hlast).1).symm
    · rw [List.concat_eq_append, ← List.cons_append, ← List.append_assoc] at heq
      obtain ⟨hinit, -⟩ := List.append_inj' heq rfl
      refine Or.inr ⟨before, since, hinit, fun hmem => hno ?_⟩
      rw [List.concat_eq_append]
      exact List.mem_append_left _ hmem
  · rintro (rfl | ⟨before, since, rfl, hno⟩)
    · exact ⟨evs, [], rfl, List.not_mem_nil⟩
    · refine ⟨before, since ++ [.press other], by simp, ?_⟩
      simpa using hno

/-- A key that is released is not. -/
theorem down_release {other : UInt8} :
    Down key (evs ++ [.release other]) ↔ key ≠ other ∧ Down key evs := by
  constructor
  · rintro ⟨before, since, heq, hno⟩
    rcases List.eq_nil_or_concat since with rfl | ⟨since, last, rfl⟩
    · obtain ⟨-, hlast⟩ := List.append_inj' heq rfl
      cases hlast
    · rw [List.concat_eq_append] at heq hno
      rw [← List.cons_append, ← List.append_assoc] at heq
      obtain ⟨hinit, hlast⟩ := List.append_inj' heq rfl
      obtain rfl := (List.cons.inj hlast).1
      refine ⟨?_, before, since, hinit, fun hmem => hno (List.mem_append_left _ hmem)⟩
      rintro rfl
      exact hno (List.mem_append_right _ List.mem_cons_self)
  · rintro ⟨hne, before, since, rfl, hno⟩
    refine ⟨before, since ++ [.release other], by simp, ?_⟩
    simp [hno, hne]

/-- Other keys do not matter for a modifier. -/
theorem active_other (hne : key ≠ e.key) : Active key (evs ++ [e]) ↔ Active key evs := by
  rw [Active, Active]
  split
  · cases e with
    | press ch =>
        rw [down_press]
        exact ⟨fun h => h.resolve_left hne, Or.inr⟩
    | release ch =>
        rw [down_release]
        exact ⟨And.right, fun h => ⟨hne, h⟩⟩
  · have hevent : e ≠ .press key := by
      rintro rfl
      exact hne rfl
    rw [List.count_append, List.count_singleton, if_neg (by simpa using hevent), Nat.add_zero]

/-- A modifier that is held is on from its press. -/
theorem active_press_held (h : key < KEY_CAPSLOCK) : Active key (evs ++ [.press key]) := by
  rw [Active, if_pos h, down_press]
  exact Or.inl rfl

/-- A lock changes with its press. -/
theorem active_press_lock (h : ¬ key < KEY_CAPSLOCK) :
    Active key (evs ++ [.press key]) ↔ ¬ Active key evs := by
  rw [Active, Active, if_neg h, if_neg h, List.count_append, List.count_singleton_self]
  omega

/-- A modifier that is held is off from its release. -/
theorem active_release_held (h : key < KEY_CAPSLOCK) : ¬ Active key (evs ++ [.release key]) := by
  rw [Active, if_pos h, down_release]
  exact fun hdown => hdown.1 rfl

/-- The release of a lock does not matter. -/
theorem active_release_lock (h : ¬ key < KEY_CAPSLOCK) :
    Active key (evs ++ [.release key]) ↔ Active key evs := by
  rw [Active, Active, if_neg h, if_neg h, List.count_append, List.count_singleton]
  rfl

/-! ## Runs -/

/-- The modifiers after an event, by its key. -/
theorem bit_after (hkey : KEY_SHIFT ≤ key) (e : Event) : bit (e.after m) key =
    if key = e.key then
      match e with
      | .press _ => if key < KEY_CAPSLOCK then true else !bit m key
      | .release _ => if key < KEY_CAPSLOCK then false else bit m key
    else bit m key := by
  cases e with
  | press ch =>
      show bit (press m ch).2 key = _
      rw [press_modifiers]
      -- a lock turns its bit
      by_cases hlock : KEY_CAPSLOCK ≤ ch
      · have hch : KEY_SHIFT ≤ ch := UInt8.le_trans (by decide) hlock
        rw [if_pos hlock, bit_press_lock hkey hch]
        by_cases heq : key = ch
        · subst heq
          simp [Event.key, UInt8.not_lt.mpr hlock]
        · simp [Event.key, heq]
      rw [if_neg hlock]
      -- a held key sets it
      by_cases hch : KEY_SHIFT ≤ ch
      · rw [if_pos hch, bit_press_held hkey hch]
        by_cases heq : key = ch
        · subst heq
          simp [Event.key, UInt8.not_le.mp hlock]
        · simp [Event.key, heq]
      · -- any other key leaves the modifiers alone
        have hne : key ≠ ch := fun heq => hch (heq ▸ hkey)
        simp [Event.key, hch, hne]
  | release ch =>
      show bit (release m ch) key = _
      rw [release]
      by_cases hch : KEY_SHIFT ≤ ch ∧ ch < KEY_CAPSLOCK
      · rw [if_pos hch, bit_release_held hkey hch.1]
        by_cases heq : key = ch
        · subst heq
          simp [Event.key, hch.2]
        · simp [Event.key, heq]
      · rw [if_neg hch]
        by_cases heq : key = ch
        · subst heq
          have hlock : ¬ key < KEY_CAPSLOCK := fun h => hch ⟨hkey, h⟩
          simp [Event.key, hlock]
        · simp [Event.key, heq]

/-- The modifiers are six bits. -/
theorem after_small (h : m < 0x40) (e : Event) : e.after m < 0x40 := by
  have hm : m.toNat < 2 ^ 6 := UInt8.lt_iff_toNat_lt.mp h
  have hbit : ∀ {ch : UInt8}, KEY_SHIFT ≤ ch → (modBit ch).toNat < 2 ^ 6 := fun hch =>
    forall_modifier (P := fun ch => (modBit ch).toNat < 2 ^ 6) (by decide +kernel) hch
  rw [UInt8.lt_iff_toNat_lt]
  show (e.after m).toNat < 2 ^ 6
  cases e with
  | press ch =>
      show (press m ch).2.toNat < 2 ^ 6
      rw [press_modifiers]
      split
      · rename_i hlock
        rw [UInt8.toNat_xor]
        exact Nat.xor_lt_two_pow hm (hbit (UInt8.le_trans (by decide) hlock))
      split
      · rename_i hch
        rw [UInt8.toNat_or]
        exact Nat.or_lt_two_pow hm (hbit hch)
      · exact hm
  | release ch =>
      show (release m ch).toNat < 2 ^ 6
      rw [release]
      split
      · rw [UInt8.toNat_and]
        exact Nat.lt_of_le_of_lt Nat.and_le_left hm
      · exact hm

/-- **ONE EVENT**: the modifier byte keeps telling the truth. -/
theorem Tells.after (h : Tells m evs) (e : Event) : Tells (e.after m) (evs ++ [e]) := by
  refine ⟨?_, after_small h.small e⟩
  intro key hkey
  have hold := h.bits key hkey
  rw [and_modBit hkey] at hold
  rw [and_modBit hkey, bit_after hkey]
  by_cases heq : key = e.key
  · rw [if_pos heq]
    subst heq
    cases e with
    | press ch =>
        by_cases hheld : ch < KEY_CAPSLOCK
        · simp [Event.key, hheld, active_press_held hheld]
        · rw [Event.key] at hold ⊢
          simp [hheld, active_press_lock hheld, ← hold]
    | release ch =>
        by_cases hheld : ch < KEY_CAPSLOCK
        · simp [Event.key, hheld, active_release_held hheld]
        · rw [Event.key] at hold ⊢
          simp [hheld, active_release_lock hheld, ← hold]
  · rw [if_neg heq, active_other heq]
    exact hold

/-- The modifiers tell what has happened, after more events. -/
theorem Tells.foldl (h : Tells m evs) (L : List Event) : Tells (L.foldl Event.after m) (evs ++ L) := by
  induction L generalizing m evs with
  | nil =>
      rw [List.append_nil]
      exact h
  | cons e L ih =>
      have hnext := ih (h.after e)
      rwa [List.append_assoc] at hnext

/-- At the start nothing is on. -/
theorem tells_start : Tells 0 [] := by
  refine ⟨?_, by decide⟩
  intro key hkey
  rw [and_modBit hkey]
  refine forall_modifier (P := fun key => bit 0 key = true ↔ Active key []) ?_ hkey
  intro key hmem
  have hbit : ∀ key ∈ modifierKeys, bit 0 key = false := by decide +kernel
  rw [hbit key hmem, Active]
  split
  · refine ⟨fun h => absurd h Bool.false_ne_true, ?_⟩
    rintro ⟨before, since, heq, -⟩
    cases before <;> cases heq
  · simp

/-- A scan code is its event, if it is one. -/
theorem keyboardReadc_state (data : UInt8) (st : State) : (keyboardReadc (some data) st).2 =
    { modifiers := (event st.last_escape data).toList.foldl Event.after st.modifiers
      last_escape := if data = 0xE0 then 0x80 else 0 } := by
  rw [keyboardReadc, event]
  by_cases hshift : data = 0xE0
  · simp [hshift]
  by_cases hrel : data &&& 0x80 = 0
  · simp [hshift, hrel, Event.after]
  · simp [hshift, hrel, Event.after]

/-- A press is read as its character or key. -/
theorem keyboardReadc_press {data : UInt8} (h : event st.last_escape data = some (.press ch)) :
    (keyboardReadc (some data) st).1 = (press st.modifiers ch).1.toNat := by
  rw [event] at h
  split at h
  · cases h
  rename_i hshift
  split at h
  · cases h
  rename_i hrel
  obtain rfl := Event.press.inj (Option.some.inj h)
  rw [keyboardReadc, if_neg hshift, if_neg hrel]

/-- A release is read as nothing. -/
theorem keyboardReadc_release {data : UInt8} (h : event st.last_escape data = some (.release ch)) :
    (keyboardReadc (some data) st).1 = 0 := by
  rw [event] at h
  split at h
  · cases h
  rename_i hshift
  split at h
  · rename_i hrel
    rw [keyboardReadc, if_neg hshift, if_pos hrel]
  · cases h

/-- A scan code with an event ends a mode shift. -/
theorem keyboardReadc_event {data : UInt8} (h : event st.last_escape data = some e) :
    (keyboardReadc (some data) st).2 = { modifiers := e.after st.modifiers, last_escape := 0 } := by
  have hshift : data ≠ 0xE0 := by
    rintro rfl
    cases h
  rw [keyboardReadc_state, h, if_neg hshift]
  rfl

/-- The modifiers after a run, from the events of the scan codes. -/
theorem run_state (codes : List UInt8) (st : State) : (run st codes).2.modifiers =
    (events st.last_escape codes).foldl Event.after st.modifiers := by
  induction codes generalizing st with
  | nil => rfl
  | cons data codes ih =>
      rw [run, ih, keyboardReadc_state, events, List.foldl_append]

/-! ## Characters -/

/-- What is read from a table is in its range. -/
theorem getD_lt {L : List UInt8} {i : Nat} {bound : UInt8} (h0 : 0 < bound)
    (h : ∀ c ∈ L, c < bound) : L.getD i 0 < bound := by
  rw [List.getD_eq_getElem?_getD]
  cases hget : L[i]? with
  | none => exact h0
  | some c => exact h c (List.mem_of_getElem? hget)

theorem complex_lt (i j : Nat) : ((complexKeymap.getD i []).getD j 0) < KEY_SHIFT := by
  have hall : ∀ row ∈ complexKeymap, ∀ c ∈ row, c < KEY_SHIFT := by decide +kernel
  refine getD_lt (by decide) ?_
  rw [List.getD_eq_getElem?_getD]
  cases hget : complexKeymap[i]? with
  | none => exact fun c hc => absurd hc List.not_mem_nil
  | some row => exact hall row (List.mem_of_getElem? hget)

/-- Modifier keys are no characters. -/
theorem press_lt (m ch : UInt8) : (press m ch).1 < KEY_SHIFT := by
  rw [press]
  split
  · rename_i hletter
    have hlow : ∀ ch : UInt8, 0x61 ≤ ch ∧ ch ≤ 0x7A →
        ch - 0x60 < KEY_SHIFT ∧ ch - 0x20 < KEY_SHIFT ∧ ch < KEY_SHIFT :=
      forall_byte (by decide +kernel)
    obtain ⟨hcontrol, hupper, hsame⟩ := hlow ch hletter
    split
    · exact hcontrol
    split
    · exact hupper
    · exact hsame
  have hzero : (0 : UInt8) < KEY_SHIFT := by decide
  split
  · exact hzero
  split
  · exact hzero
  rename_i hkey
  split
  · exact complex_lt _ _
  split
  · exact hzero
  · exact UInt8.not_le.mp hkey

/-- The character depends on SHIFT, CONTROL and CAPS LOCK. -/
theorem press_mask (m ch : UInt8) : (press m ch).1 = (press (m &&& 0x0B) ch).1 := by
  have hcontrol : m &&& 0x0B &&& MOD_CONTROL = m &&& MOD_CONTROL := by
    rw [UInt8.and_assoc]
    rfl
  have hshift : m &&& 0x0B &&& MOD_SHIFT = m &&& MOD_SHIFT := by
    rw [UInt8.and_assoc]
    rfl
  have hcaps : m &&& 0x0B &&& MOD_CAPSLOCK = m &&& MOD_CAPSLOCK := by
    rw [UInt8.and_assoc]
    rfl
  have hthree : m &&& 0x0B &&& 3 = m &&& 3 := by
    rw [UInt8.and_assoc]
    rfl
  simp only [press, hcontrol, hshift, hcaps, hthree, apply_ite Prod.fst]

theorem length_run (codes : List UInt8) (st : State) : (run st codes).1.length = codes.length := by
  induction codes generalizing st with
  | nil => rfl
  | cons data codes ih =>
      rw [run, List.length_cons, List.length_cons, ih]

theorem run_chars (codes : List UInt8) (st : State) :
    ∀ c ∈ (run st codes).1, 0 ≤ c ∧ c < KEY_SHIFT.toNat := by
  induction codes generalizing st with
  | nil => exact fun c hc => absurd hc List.not_mem_nil
  | cons data codes ih =>
      intro c hc
      rw [run] at hc
      rcases List.mem_cons.mp hc with rfl | hc
      · have hzero : (0 : Int) ≤ 0 ∧ (0 : Int) < KEY_SHIFT.toNat := by decide
        rw [keyboardReadc]
        split
        · exact hzero
        split
        · exact hzero
        · exact ⟨Int.natCast_nonneg _, Int.ofNat_lt.mpr (UInt8.lt_iff_toNat_lt.mp (press_lt _ _))⟩
      · exact ih _ c hc

/-- What CONTROL makes of a letter, and what SHIFT and CAPS LOCK do. -/
structure Letter (evs : List Event) (ch c : UInt8) : Prop where
  control : Down KEY_CONTROL evs → c = ch - 0x60
  upper : ¬ Down KEY_CONTROL evs → ¬ (Down KEY_SHIFT evs ↔ Active KEY_CAPSLOCK evs) → c = ch - 0x20
  same : ¬ Down KEY_CONTROL evs → (Down KEY_SHIFT evs ↔ Active KEY_CAPSLOCK evs) → c = ch

theorem Tells.letter (ht : Tells m evs) (h : 0x61 ≤ ch ∧ ch ≤ 0x7A) :
    Letter evs ch (press m ch).1 := by
  have hcontrol := ht.bits KEY_CONTROL (by decide)
  have hshift := ht.bits KEY_SHIFT (by decide)
  have hcaps : m &&& MOD_CAPSLOCK ≠ 0 ↔ _ := ht.bits KEY_CAPSLOCK (by decide)
  rw [Active, if_pos (by decide)] at hcontrol hshift
  change m &&& MOD_CONTROL ≠ 0 ↔ _ at hcontrol
  change m &&& MOD_SHIFT ≠ 0 ↔ _ at hshift
  rw [press, if_pos h]
  constructor
  · intro hdown
    rw [if_pos (hcontrol.mpr hdown)]
  · intro hup hdiff
    rw [if_neg fun hc => hup (hcontrol.mp hc), if_pos]
    rw [← hshift, ← hcaps] at hdiff
    by_cases hs : m &&& MOD_SHIFT = 0
    · by_cases hl : m &&& MOD_CAPSLOCK = 0
      · exact absurd (by simp [hs, hl]) hdiff
      · simp [hs, hl]
    · by_cases hl : m &&& MOD_CAPSLOCK = 0
      · simp [hs, hl]
      · exact absurd (by simp [hs, hl]) hdiff
  · intro hup hsame
    rw [if_neg fun hc => hup (hcontrol.mp hc), if_neg]
    rw [← hshift, ← hcaps, not_iff_not] at hsame
    by_cases hs : m &&& MOD_SHIFT = 0
    · simp [hs, hsame.mp hs]
    · have hl : m &&& MOD_CAPSLOCK ≠ 0 := fun hl => hs (hsame.mpr hl)
      simp [hs, hl]

/-- **THE MODIFIERS, AFTER ANY SCAN CODES**: SHIFT, CONTROL and ALT are on from
    the press of a key to the release of one, the locks change with every
    press; no modifier key is read as a character, and letters follow the keys
    that are down. -/
theorem run_modifiers (codes : List UInt8) :
    (run start codes).1.length = codes.length
      ∧ (∀ c ∈ (run start codes).1, 0 ≤ c ∧ c < KEY_SHIFT.toNat)
      ∧ Tells (run start codes).2.modifiers (events 0 codes)
      ∧ ∀ data ch, event (run start codes).2.last_escape data = some (.press ch) →
          0x61 ≤ ch ∧ ch ≤ 0x7A → ∃ c : UInt8, Letter (events 0 codes) ch c
            ∧ (keyboardReadc (some data) (run start codes).2).1 = c.toNat := by
  have ht : Tells (run start codes).2.modifiers (events 0 codes) := by
    rw [run_state]
    exact tells_start.foldl (events 0 codes)
  refine ⟨length_run codes start, run_chars codes start, ht, ?_⟩
  intro data ch hevent hch
  exact ⟨_, ht.letter hch, keyboardReadc_press hevent⟩

/-! ## Typing -/

/-- Keys side by side on a US keyboard, by their scan codes: what they write alone
    and with SHIFT. -/
def usRow (code : UInt8) (alone shifted : List UInt8) : List (UInt8 × UInt8 × UInt8) :=
  (alone.zip shifted).mapIdx fun i k => (code + UInt8.ofNat i, k)

/-- The keys of a US keyboard that write (scan code set 1).  This is the keyboard's
    own table: it is not read off `keymap`. -/
def usKeys : List (UInt8 × UInt8 × UInt8) :=
  -- ESC, then the digits, backspace and TAB
  usRow 0x01 [0x1B] [0x1B]
  ++ usRow 0x02 (ascii ['1', '2', '3', '4', '5', '6', '7', '8', '9', '0', '-', '='])
      (ascii ['!', '@', '#', '$', '%', '^', '&', '*', '(', ')', '_', '+'])
  ++ usRow 0x0E [0x08, 0x09] [0x08, 0x09]
  ++ usRow 0x10 (ascii ['q', 'w', 'e', 'r', 't', 'y', 'u', 'i', 'o', 'p', '[', ']'])
      (ascii ['Q', 'W', 'E', 'R', 'T', 'Y', 'U', 'I', 'O', 'P', '{', '}'])
  ++ usRow 0x1C [0x0A] [0x0A]
  -- the last two keys of this row are the apostrophe and the grave accent
  ++ usRow 0x1E (ascii ['a', 's', 'd', 'f', 'g', 'h', 'j', 'k', 'l', ';'] ++ [0x27, 0x60])
      (ascii ['A', 'S', 'D', 'F', 'G', 'H', 'J', 'K', 'L', ':'] ++ [0x22, 0x7E])
  -- the first key of this row is the backslash
  ++ usRow 0x2B (0x5C :: ascii ['z', 'x', 'c', 'v', 'b', 'n', 'm', ',', '.', '/'])
      (0x7C :: ascii ['Z', 'X', 'C', 'V', 'B', 'N', 'M', '<', '>', '?'])
  ++ usRow 0x39 (ascii [' ']) (ascii [' '])

/-- The key that writes a character, and whether SHIFT is held for it. -/
def keyOf (c : UInt8) : Option (Bool × UInt8) :=
  match usKeys.find? fun k => k.2.1 == c with
  | some k => some (false, k.1)
  | none => (usKeys.find? fun k => k.2.2 == c).map fun k => (true, k.1)

/-- The scan codes of a key that is pressed and released. -/
def tap (code : UInt8) : List UInt8 := [code, code ||| 0x80]

/-- The scan code of the left SHIFT key. -/
def SHIFT_CODE : UInt8 := 0x2A

/-- The scan codes of a character. -/
def typeChar (c : UInt8) : List UInt8 :=
  match keyOf c with
  | none => []
  | some (false, code) => tap code
  | some (true, code) => SHIFT_CODE :: tap code ++ [SHIFT_CODE ||| 0x80]

/-- The characters of a US keyboard. -/
def Typable (c : UInt8) : Prop := 0x20 ≤ c ∧ c ≤ 0x7E ∨ c = 0x0A ∨ c = 0x09 ∨ c = 0x08 ∨ c = 0x1B

instance (c : UInt8) : Decidable (Typable c) := by
  unfold Typable
  infer_instance

/-- What CAPS LOCK makes of a character. -/
def capsChar (m c : UInt8) : UInt8 :=
  if m &&& MOD_CAPSLOCK = 0 then c
  else if 0x61 ≤ c ∧ c ≤ 0x7A then c - 0x20
  else if 0x41 ≤ c ∧ c ≤ 0x5A then c + 0x20
  else c

/-- The bit of SHIFT while it is held. -/
def shiftBit (shift : Bool) : UInt8 := if shift then MOD_SHIFT else 0

/-- What is read of the keys of one character. -/
structure Types (c : UInt8) (shift : Bool) (code : UInt8) : Prop where
  down : event 0 code = some (.press (lookup code))
  up : event 0 (code ||| 0x80) = some (.release (lookup code))
  noModifier : lookup code < KEY_SHIFT
  char : ∀ caps ∈ [0, MOD_CAPSLOCK],
    (press (caps ||| shiftBit shift) (lookup code)).1 = capsChar caps c
  pos : ∀ caps ∈ [0, MOD_CAPSLOCK], capsChar caps c ≠ 0

instance (c : UInt8) (shift : Bool) (code : UInt8) : Decidable (Types c shift code) :=
  have : Decidable (∀ caps ∈ [0, MOD_CAPSLOCK],
      (press (caps ||| shiftBit shift) (lookup code)).1 = capsChar caps c) := List.decidableBAll _ _
  have : Decidable (∀ caps ∈ [0, MOD_CAPSLOCK], capsChar caps c ≠ 0) := List.decidableBAll _ _
  decidable_of_iff (_ ∧ _ ∧ _ ∧ _ ∧ _) ⟨fun ⟨h₁, h₂, h₃, h₄, h₅⟩ => ⟨h₁, h₂, h₃, h₄, h₅⟩,
    fun ⟨h₁, h₂, h₃, h₄, h₅⟩ => ⟨h₁, h₂, h₃, h₄, h₅⟩⟩

/-- The key map agrees with the keyboard, for every character it writes. -/
theorem keyOf_types {c : UInt8} (h : Typable c) :
    ∃ shift code, keyOf c = some (shift, code) ∧ Types c shift code := by
  have hall : ∀ c : UInt8, Typable c →
      (keyOf c).elim false (fun k => decide (Types c k.1 k.2)) = true :=
    forall_byte (by decide +kernel)
  have hc := hall c h
  cases hkey : keyOf c with
  | none =>
      rw [hkey] at hc
      cases hc
  | some k =>
      rw [hkey] at hc
      exact ⟨k.1, k.2, rfl, of_decide_eq_true hc⟩

theorem run_append (codes more : List UInt8) (st : State) : run st (codes ++ more) =
    ((run st codes).1 ++ (run (run st codes).2 more).1, (run (run st codes).2 more).2) := by
  induction codes generalizing st with
  | nil => rfl
  | cons data codes ih =>
      rw [List.cons_append, run, run, ih]
      rfl

/-- Nothing but locks is on. -/
structure Idle (st : State) : Prop where
  escape : st.last_escape = 0
  modifiers : st.modifiers &&& 3 = 0

theorem after_other (hkey : ¬ KEY_SHIFT ≤ ch) (m : UInt8) :
    (Event.press ch).after m = m ∧ (Event.release ch).after m = m := by
  have hlock : ¬ KEY_CAPSLOCK ≤ ch := fun h => hkey (UInt8.le_trans (by decide) h)
  constructor
  · show (press m ch).2 = m
    rw [press_modifiers, if_neg hlock, if_neg hkey]
  · show release m ch = m
    rw [release, if_neg fun h => hkey h.1]

/-- A key that is no modifier is pressed and released. -/
theorem run_tap {code : UInt8} (hdown : event 0 code = some (.press ch))
    (hup : event 0 (code ||| 0x80) = some (.release ch)) (hkey : ch < KEY_SHIFT)
    (hescape : st.last_escape = 0) :
    run st (tap code) = ([((press st.modifiers ch).1.toNat : Int), 0], st) := by
  obtain ⟨hpress, hrelease⟩ := after_other (UInt8.not_le.mpr hkey) st.modifiers
  rw [← hescape] at hdown hup
  have hst : (keyboardReadc (some code) st).2 = st := by
    rw [keyboardReadc_event hdown, hpress, ← hescape]
  rw [tap, run, hst, run, keyboardReadc_press hdown, keyboardReadc_release hup,
    keyboardReadc_event hup, hrelease, ← hescape]
  rfl

/-- SHIFT is pressed, and released later. -/
theorem shift_events : event 0 SHIFT_CODE = some (.press KEY_SHIFT)
    ∧ event 0 (SHIFT_CODE ||| 0x80) = some (.release KEY_SHIFT) := by decide

/-- The modifiers of an idle keyboard, alone and with SHIFT. -/
structure Caps (m caps : UInt8) : Prop where
  mem : caps ∈ [0, MOD_CAPSLOCK]
  alone : m &&& 0x0B = caps ||| 0
  shifted : (m ||| modBit KEY_SHIFT) &&& 0x0B = caps ||| MOD_SHIFT
  back : (m ||| modBit KEY_SHIFT) &&& ~~~modBit KEY_SHIFT = m
  caps : m &&& MOD_CAPSLOCK = caps &&& MOD_CAPSLOCK

instance (m caps : UInt8) : Decidable (Caps m caps) :=
  decidable_of_iff (_ ∧ _ ∧ _ ∧ _ ∧ _) ⟨fun ⟨h₁, h₂, h₃, h₄, h₅⟩ => ⟨h₁, h₂, h₃, h₄, h₅⟩,
    fun ⟨h₁, h₂, h₃, h₄, h₅⟩ => ⟨h₁, h₂, h₃, h₄, h₅⟩⟩

theorem caps_of_idle (h : Idle st) : Caps st.modifiers (st.modifiers &&& MOD_CAPSLOCK) := by
  have hall : ∀ m : UInt8, m &&& 3 = 0 → Caps m (m &&& MOD_CAPSLOCK) :=
    forall_byte (by decide +kernel)
  exact hall st.modifiers h.modifiers

theorem capsChar_congr {m' : UInt8} (h : m &&& MOD_CAPSLOCK = m' &&& MOD_CAPSLOCK) (c : UInt8) :
    capsChar m c = capsChar m' c := by
  rw [capsChar, capsChar, h]

/-- One character is read among the zeros of its scan codes. -/
theorem run_typeChar {c : UInt8} (hc : Typable c) (h : Idle st) :
    ((run st (typeChar c)).1.filter (· ≠ 0)) = [((capsChar st.modifiers c).toNat : Int)]
      ∧ (run st (typeChar c)).2 = st := by
  obtain ⟨shift, code, hkeyOf, ht⟩ := keyOf_types hc
  have hm := caps_of_idle h
  have hchar := ht.char _ hm.mem
  have hpos : ((capsChar st.modifiers c).toNat : Int) ≠ 0 := by
    rw [capsChar_congr hm.caps]
    exact fun h0 => ht.pos _ hm.mem (UInt8.toNat_inj.mp (Int.natCast_inj.mp h0))
  rw [capsChar_congr hm.caps] at hpos ⊢
  rw [typeChar, hkeyOf]
  cases shift with
  | false =>
    -- the key alone
    rw [shiftBit, if_neg Bool.false_ne_true, ← hm.alone, ← press_mask] at hchar
    show (List.filter _ (run st (tap code)).1) = _ ∧ (run st (tap code)).2 = _
    rw [run_tap ht.down ht.up ht.noModifier h.escape, hchar]
    exact ⟨List.filter_cons_of_pos (decide_eq_true hpos), rfl⟩
  | true =>
    -- between the press and the release of SHIFT
    obtain ⟨hdown, hup⟩ := shift_events
    rw [shiftBit, if_pos rfl, ← hm.shifted, ← press_mask] at hchar
    rw [← h.escape] at hdown
    let held : State := { modifiers := st.modifiers ||| modBit KEY_SHIFT, last_escape := 0 }
    have hheld : (keyboardReadc (some SHIFT_CODE) st).2 = held := keyboardReadc_event hdown
    have hback : (keyboardReadc (some (SHIFT_CODE ||| 0x80)) held).2 = st := by
      rw [keyboardReadc_event (show event held.last_escape _ = _ from hup)]
      show ({ modifiers := held.modifiers &&& ~~~modBit KEY_SHIFT, last_escape := 0 } : State) = st
      rw [hm.back, ← h.escape]
    show (List.filter _ (run st (SHIFT_CODE :: (tap code ++ [SHIFT_CODE ||| 0x80]))).1) = _
      ∧ (run st (SHIFT_CODE :: (tap code ++ [SHIFT_CODE ||| 0x80]))).2 = _
    have htap : run held (tap code) = (_, held) := run_tap ht.down ht.up ht.noModifier rfl
    have hrelease : (keyboardReadc (some (SHIFT_CODE ||| 0x80)) held).1 = 0 :=
      keyboardReadc_release hup
    rw [run, hheld, run_append, htap, run, run, hback, keyboardReadc_press hdown, hrelease, hchar]
    refine ⟨?_, rfl⟩
    have hshift : (press st.modifiers KEY_SHIFT).1.toNat = 0 := by
      rw [press_mask, hm.alone]
      have hall : ∀ caps ∈ [0, MOD_CAPSLOCK], (press (caps ||| 0) KEY_SHIFT).1.toNat = 0 := by
        decide +kernel
      exact hall _ hm.mem
    rw [hshift]
    have hread : List.filter (fun x => decide (x ≠ 0))
        [(0 : Int), (capsChar (st.modifiers &&& MOD_CAPSLOCK) c).toNat, 0, 0]
        = [((capsChar (st.modifiers &&& MOD_CAPSLOCK) c).toNat : Int)] :=
      (List.filter_cons_of_neg (by decide)).trans (List.filter_cons_of_pos (decide_eq_true hpos))
    exact hread

/-- **A TEXT THAT IS TYPED IS READ**, with CAPS LOCK as it was, and the keyboard
    is left as it was found. -/
theorem run_typed (text : List UInt8) (htext : ∀ c ∈ text, Typable c) (h : Idle st) :
    ((run st (text.flatMap typeChar)).1.filter (· ≠ 0))
        = text.map (fun c => ((capsChar st.modifiers c).toNat : Int))
      ∧ (run st (text.flatMap typeChar)).2 = st := by
  induction text with
  | nil => exact ⟨rfl, rfl⟩
  | cons c text ih =>
      obtain ⟨hread, hstate⟩ := ih fun c hc => htext c (List.mem_cons_of_mem _ hc)
      obtain ⟨hchar, hsame⟩ := run_typeChar (htext c List.mem_cons_self) h
      rw [List.flatMap_cons, run_append, hsame]
      refine ⟨?_, hstate⟩
      rw [List.filter_append, hchar, hread]
      rfl

/-- A text with capitals, under CAPS LOCK. -/
theorem run_typed_caps :
    ((run { modifiers := 8, last_escape := 0 }
        (([0x48, 0x69, 0x21] : List UInt8).flatMap typeChar)).1.filter (· ≠ 0))
      = [0x68, 0x49, 0x21] :=
  (run_typed [0x48, 0x69, 0x21] (by decide +kernel) ⟨rfl, rfl⟩).1

end Keyboard
