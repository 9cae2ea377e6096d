import Cs61.ByteFiles
import Mathlib.Tactic.Ring

/-! # PCI configuration space

    The configuration mechanism has an address register and a data port.  The
    address register selects a dword, its two low bits being ignored, and byte `i`
    of the data port is byte `i` of that dword.  Reads take their byte lanes from
    the port number; writes add the lane to what is written instead
    (`writew_eq`), so only those of an aligned address are read again. -/

namespace PciConfig

open ByteFiles

/-! ## The machine -/

/-- The address register, and configuration space as plain storage. -/
structure Machine where
  addr : Nat
  config : Bytes

/-- A failed assertion. -/
structure Fault where
  text : String
deriving DecidableEq

/-- The port that selects a configuration register. -/
def regHostBridgeConfigAddr : Nat := 0xCF8
/-- The port of the selected register. -/
def regHostBridgeConfigData : Nat := 0xCFC

/-- The first byte of the selected dword; bit 31 of the register enables the port. -/
def Machine.selected (m : Machine) : Nat := m.addr % 2 ^ 31 / 4 * 4

/-- `outl`, `outw` and `outb`, for `n` bytes. -/
def output (n port v : Nat) (m : Machine) : Machine :=
  if port = regHostBridgeConfigAddr then { m with addr := v % 2 ^ 32 }
  else { m with config := put m.config (m.selected + (port - regHostBridgeConfigData)) n v }

/-- `inl`, `inw` and `inb` from the data port. -/
def input (n port : Nat) (m : Machine) : Nat :=
  num m.config (m.selected + (port - regHostBridgeConfigData)) n

/-! ## The functions

    An address is a nonnegative `int`. -/

/-- `outl(reg_host_bridge_config_addr, 0x80000000U | addr)`. -/
def select (addr : Nat) (m : Machine) : Machine :=
  output 4 regHostBridgeConfigAddr (0x80000000 ||| addr) m

/-- `readl(addr)`. -/
def readl (addr : Nat) (m : Machine) : Except Fault (Nat × Machine) :=
  if addr &&& 3 = 0 then
    let m := select addr m
    .ok (input 4 regHostBridgeConfigData m, m)
  else .error ⟨"addr >= 0 && !(addr & 3)"⟩

/-- `readw(addr)`. -/
def readw (addr : Nat) (m : Machine) : Except Fault (Nat × Machine) :=
  if addr &&& 1 = 0 then
    let m := select addr m
    .ok (input 2 (regHostBridgeConfigData + (addr &&& 3)) m, m)
  else .error ⟨"addr >= 0 && !(addr & 1)"⟩

/-- `readb(addr)`. -/
def readb (addr : Nat) (m : Machine) : Except Fault (Nat × Machine) :=
  let m := select addr m
  .ok (input 1 (regHostBridgeConfigData + (addr &&& 3)) m, m)

/-- `writew(addr, data)`. -/
def writew (addr data : Nat) (m : Machine) : Except Fault Machine :=
  if addr &&& 1 = 0 then
    let m := select addr m
    .ok (output 2 regHostBridgeConfigData ((data + (addr &&& 3)) % 2 ^ 16) m)
  else .error ⟨"addr >= 0 && !(addr & 1)"⟩

/-- `writeb(addr, data)`. -/
def writeb (addr data : Nat) (m : Machine) : Except Fault Machine :=
  let m := select addr m
  .ok (output 1 regHostBridgeConfigData ((data + (addr &&& 3)) % 2 ^ 8) m)

/-- `config_command`. -/
def configCommand : Nat := 4

/-- I/O (0x01), memory (0x02), and bus master (0x04). -/
def enable (addr : Nat) (m : Machine) : Except Fault Machine := writew (addr + configCommand) 0x0007 m

variable {m m' : Machine} {addr p n : Nat}

/-! ## Selection -/

theorem and_three (addr : Nat) : addr &&& 3 = addr % 4 := Nat.and_two_pow_sub_one_eq_mod addr 2

theorem and_one (addr : Nat) : addr &&& 1 = addr % 2 := Nat.and_two_pow_sub_one_eq_mod addr 1

/-- The dword of an address is selected. -/
theorem selected_select (h : addr < 2 ^ 31) : (select addr m).selected = addr - addr % 4 := by
  have hor : 0x80000000 ||| addr = 2 ^ 31 + addr := by
    have hadd := Nat.two_pow_add_eq_or_of_lt h 1
    rw [Nat.mul_one] at hadd
    exact hadd.symm
  show (0x80000000 ||| addr) % 2 ^ 32 % 2 ^ 31 / 4 * 4 = addr - addr % 4
  rw [hor]
  omega

/-- Selecting an address changes no byte of the configuration space. -/
theorem config_select (addr : Nat) (m : Machine) : (select addr m).config = m.config := rfl

/-- A read of a lane. -/
theorem input_select (h : addr < 2 ^ 31) :
    input n (regHostBridgeConfigData + (addr &&& 3)) (select addr m) = num m.config addr n := by
  rw [input, selected_select h, config_select, Nat.add_sub_cancel_left, and_three]
  congr 1
  omega

/-- A write goes to the first bytes of the dword. -/
theorem output_select (h : addr < 2 ^ 31) (v : Nat) :
    (output n regHostBridgeConfigData v (select addr m)).config
      = put m.config (addr - addr % 4) n v := by
  have hport : ¬ regHostBridgeConfigData = regHostBridgeConfigAddr := by decide
  rw [output, if_neg hport, selected_select h, config_select, Nat.sub_self, Nat.add_zero]

/-! ## Reading -/

/-- An aligned read of four bytes. -/
theorem readl_eq (h : addr < 2 ^ 31) (halign : addr % 4 = 0) :
    readl addr m = .ok (num m.config addr 4, select addr m) := by
  have hlane := input_select (m := m) (n := 4) h
  rw [and_three, halign, Nat.add_zero] at hlane
  rw [readl, and_three, if_pos halign]
  exact congrArg (fun v => Except.ok (v, select addr m)) hlane

/-- An aligned read of two bytes. -/
theorem readw_eq (h : addr < 2 ^ 31) (heven : addr % 2 = 0) :
    readw addr m = .ok (num m.config addr 2, select addr m) := by
  rw [readw, and_one, if_pos heven]
  exact congrArg (fun v => Except.ok (v, select addr m)) (input_select h)

/-- A read of one byte. -/
theorem readb_eq (h : addr < 2 ^ 31) :
    readb addr m = .ok (num m.config addr 1, select addr m) :=
  congrArg (fun v => Except.ok (v, select addr m)) (input_select h)

/-! ## Writing -/

/-- A word is written to the first bytes of its dword, with the lane added to it. -/
theorem writew_eq (h : addr < 2 ^ 31) (heven : addr % 2 = 0) (d : Nat) :
    ∃ m', writew addr d m = .ok m'
      ∧ m'.config = put m.config (addr - addr % 4) 2 ((d + addr % 4) % 256 ^ 2) := by
  rw [writew, and_one, if_pos heven, and_three]
  exact ⟨_, rfl, output_select h _⟩

/-- A write of one byte puts it at the start of its word, with the lane added to it. -/
theorem writeb_eq (h : addr < 2 ^ 31) (d : Nat) :
    ∃ m', writeb addr d m = .ok m'
      ∧ m'.config = put m.config (addr - addr % 4) 1 ((d + addr % 4) % 256 ^ 1) := by
  rw [writeb, and_three]
  exact ⟨_, rfl, output_select h _⟩

/-- Device enabling writes its command register, which is aligned. -/
theorem enable_eq (h : addr + configCommand < 2 ^ 31) (halign : addr % 4 = 0) :
    ∃ m', enable addr m = .ok m'
      ∧ m'.config = put m.config (addr + configCommand) 2 0x0007 := by
  have hcommand : (addr + configCommand) % 4 = 0 := by
    rw [configCommand, Nat.add_mod_right, halign]
  obtain ⟨m', hwrite, hconfig⟩ := writew_eq (m := m) h (by omega) 7
  refine ⟨m', hwrite, ?_⟩
  rw [hconfig, hcommand]
  rfl

/-! ## What is written is read again -/

/-- `m'` is `m` with the `n` bytes at `addr` set to `d`. -/
structure Stored (n addr d : Nat) (m m' : Machine) : Prop where
  value : num m'.config addr n = d
  others : ∀ p, p < addr ∨ addr + n ≤ p → m'.config p = m.config p

/-- A write that goes `k` bytes too low, with `v` for `d`. -/
theorem stored_put_iff {d k v : Nat} (hconfig : m'.config = put m.config (addr - k) n v)
    (hk : k ≤ addr) (hlane : k = 0 ∨ n ≤ k) (hv : v < 256 ^ n) (hzero : k = 0 → v = d) :
    Stored n addr d m m' ↔ k = 0 ∨ num m.config addr n = d ∧ num m.config (addr - k) n = v := by
  constructor
  · rintro ⟨hvalue, hothers⟩
    by_cases hzero : k = 0
    · exact Or.inl hzero
    · have hle : n ≤ k := hlane.resolve_left hzero
      rw [hconfig, num_put_apart v (by omega)] at hvalue
      -- The bytes below are not to change, but hold `v` now.
      have hbelow : num m'.config (addr - k) n = num m.config (addr - k) n :=
        num_congr fun j hj => hothers _ (by omega)
      rw [hconfig, num_put hv] at hbelow
      exact Or.inr ⟨hvalue, hbelow.symm⟩
  · rintro (rfl | ⟨hvalue, hbelow⟩)
    · rw [Nat.sub_zero, hzero rfl] at hconfig
      refine ⟨?_, ?_⟩
      · rw [hconfig, num_put (hzero rfl ▸ hv)]
      · intro p hp
        rw [hconfig, put_of_not_mem _ hp]
    · -- The write changes nothing.
      rw [← hbelow, put_num] at hconfig
      refine ⟨?_, ?_⟩
      · rw [hconfig, hvalue]
      · intro p _
        rw [hconfig]

/-- `writew(addr, d)` and then `readw(addr)`. -/
def WordKept (addr d : Nat) (m : Machine) : Prop :=
  ∃ m' m'', writew addr d m = .ok m' ∧ readw addr m' = .ok (d, m'')
    ∧ ∀ p, p < addr ∨ addr + 2 ≤ p → m''.config p = m.config p

/-- `writeb(addr, d)` and then `readb(addr)`. -/
def ByteKept (addr d : Nat) (m : Machine) : Prop :=
  ∃ m' m'', writeb addr d m = .ok m' ∧ readb addr m' = .ok (d, m'')
    ∧ ∀ p, p < addr ∨ addr + 1 ≤ p → m''.config p = m.config p

/-- Reading a word back, in terms of the bytes. -/
theorem wordKept_iff_stored {d : Nat} (h : addr < 2 ^ 31) (heven : addr % 2 = 0)
    (hwrite : writew addr d m = .ok m') : WordKept addr d m ↔ Stored 2 addr d m m' := by
  have hread := readw_eq (m := m') h heven
  constructor
  · rintro ⟨m₁, m₂, hwrite₁, hread₁, hothers⟩
    obtain rfl : m₁ = m' := Except.ok.inj (hwrite₁.symm.trans hwrite)
    obtain ⟨hvalue, rfl⟩ := Prod.mk.inj (Except.ok.inj (hread.symm.trans hread₁))
    exact ⟨hvalue, hothers⟩
  · rintro ⟨hvalue, hothers⟩
    rw [hvalue] at hread
    exact ⟨m', _, hwrite, hread, hothers⟩

/-- Reading a byte back, in terms of the bytes. -/
theorem byteKept_iff_stored {d : Nat} (h : addr < 2 ^ 31)
    (hwrite : writeb addr d m = .ok m') : ByteKept addr d m ↔ Stored 1 addr d m m' := by
  have hread := readb_eq (m := m') h
  constructor
  · rintro ⟨m₁, m₂, hwrite₁, hread₁, hothers⟩
    obtain rfl : m₁ = m' := Except.ok.inj (hwrite₁.symm.trans hwrite)
    obtain ⟨hvalue, rfl⟩ := Prod.mk.inj (Except.ok.inj (hread.symm.trans hread₁))
    exact ⟨hvalue, hothers⟩
  · rintro ⟨hvalue, hothers⟩
    rw [hvalue] at hread
    exact ⟨m', _, hwrite, hread, hothers⟩

/-- **WRITE, THEN READ**: a value written is read again, and nothing else changes,
    exactly when the address is that of a dword or storage already holds both the
    value and what is written below it. -/
theorem kept_iff (h : addr < 2 ^ 31) (m : Machine) :
    (addr % 2 = 0 → ∀ d, d < 2 ^ 16 → (WordKept addr d m ↔
      addr % 4 = 0 ∨ num m.config addr 2 = d
        ∧ num m.config (addr - addr % 4) 2 = (d + addr % 4) % 2 ^ 16))
    ∧ ∀ d, d < 2 ^ 8 → (ByteKept addr d m ↔
      addr % 4 = 0 ∨ num m.config addr 1 = d
        ∧ num m.config (addr - addr % 4) 1 = (d + addr % 4) % 2 ^ 8) := by
  have hle : addr % 4 ≤ addr := Nat.mod_le addr 4
  constructor
  · intro heven d hd
    obtain ⟨m', hwrite, hconfig⟩ := writew_eq (m := m) h heven d
    rw [wordKept_iff_stored h heven hwrite]
    refine stored_put_iff hconfig hle (by omega) (Nat.mod_lt _ (by decide)) ?_
    intro hzero
    rw [hzero]
    exact Nat.mod_eq_of_lt hd
  · intro d hd
    obtain ⟨m', hwrite, hconfig⟩ := writeb_eq (m := m) h d
    rw [byteKept_iff_stored h hwrite]
    refine stored_put_iff hconfig hle (by omega) (Nat.mod_lt _ (by decide)) ?_
    intro hzero
    rw [hzero]
    exact Nat.mod_eq_of_lt hd

/-- A byte in lane 1 of a cleared space. -/
theorem kept_iff_lane : ¬ ByteKept 1 0 ⟨0, fun _ => 0⟩ := by
  intro hkept
  rcases ((@kept_iff 1 (by decide) ⟨0, fun _ => 0⟩).2 0 (by decide)).mp hkept with h | h
  · exact absurd h (by decide)
  · exact absurd h.2 (by decide)

/-- The status word of a cleared space is written as the command word. -/
theorem writew_damages :
    ¬ ∀ (m : Machine) (addr d : Nat), addr < 2 ^ 31 → addr % 2 = 0 → d < 2 ^ 16 →
      WordKept addr d m := by
  intro hall
  obtain ⟨m', m'', hwrite, hread, _⟩ := hall ⟨0, fun _ => 0⟩ 6 5 (by decide) (by decide) (by decide)
  obtain ⟨m₁, hwrite₁, hconfig⟩ := @writew_eq ⟨0, fun _ => 0⟩ 6 (by decide) (by decide) 5
  obtain rfl : m₁ = m' := Except.ok.inj (hwrite₁.symm.trans hwrite)
  rw [readw_eq (by decide) (by decide), hconfig] at hread
  exact absurd (Prod.mk.inj (Except.ok.inj hread)).1 (by decide)

end PciConfig
