import Cs61.LoopRules
import Cs61.PciConfig
import Mathlib.Data.Nat.Bitwise

/-! # The enumeration of PCI functions

    `pcistate::next` goes from one function to the next that is present.  Functions
    1 to 7 of a slot are looked at only when its function 0 is present and says that
    the device has several, so what the loop stops at are the `Scannable` addresses
    in ascending order (`scannable_after`, `not_scannable_between`), and what it
    returns are the present ones among them (`next_spec`).  From address 0 on this
    lists the visible functions (`enumerates`), and `find` gives the first that its
    predicate accepts (`find_first`). -/

namespace PciScan

open LoopRules ByteFiles PciConfig

/-! ## Addresses -/

/-- `config_lthb`: the register with the type of the header. -/
def configLthb : Nat := 12

/-- At most 8 PCI buses are supported. -/
def addrEnd : Nat := 0x80000

/-- `make_addr(bus, slot, func)`. -/
def makeAddr (bus slot func : Nat) : Except Fault Nat :=
  if ¬ bus < 256 then .error ⟨"bus >= 0 && bus < 256"⟩
  else if ¬ slot < 32 then .error ⟨"slot >= 0 && slot < 32"⟩
  else if ¬ func < 8 then .error ⟨"func >= 0 && func < 8"⟩
  else .ok ((bus <<< 16) ||| (slot <<< 11) ||| (func <<< 8))

/-- `addr_func(addr)`. -/
def addrFunc (addr : Nat) : Except Fault Nat :=
  if addr < 0x1000000 then .ok ((addr >>> 8) &&& 0x7)
  else .error ⟨"addr >= 0 && addr < 0x1000000"⟩

/-! ## The loop -/

/-- The state at the top of the loop of `next`. -/
structure Scan where
  addr : Nat
  x : Nat
  machine : Machine

/-- The new address of one pass. -/
def advance (addr x : Nat) : Except Fault Nat := do
  if (← addrFunc addr) = 0 ∧ (x = 2 ^ 32 - 1 ∨ ¬ x &&& 0x800000 ≠ 0) then
    return addr + (← makeAddr 0 1 0)
  else
    return addr + (← makeAddr 0 0 1)

/-- One pass; −1 is `none`. -/
def nextBody (s : Scan) : Turn Scan (Except Fault (Option Nat × Machine)) :=
  match advance s.addr s.x with
  | .error e => .leave (.error e)
  | .ok addr =>
    if addrEnd ≤ addr then .leave (.ok (none, s.machine))
    else
      match readl (addr + configLthb) s.machine with
      | .error e => .leave (.error e)
      | .ok (x, m) => if x ≠ 2 ^ 32 - 1 then .leave (.ok (some addr, m)) else .again ⟨addr, x, m⟩

/-- `next(addr)`. -/
def next (addr : Nat) (m : Machine) (fuel : Nat) : Option (Except Fault (Option Nat × Machine)) :=
  match readl (addr + configLthb) m with
  | .error e => some (.error e)
  | .ok (x, m) => run nextBody fuel ⟨addr, x, m⟩

variable {c : Bytes} {a b : Nat} {m m' : Machine}

/-! ## Functions that are looked at -/

/-- The dword at offset 12 is not all ones. -/
def Present (c : Bytes) (a : Nat) : Prop := num c (a + configLthb) 4 ≠ 2 ^ 32 - 1

/-- The multi-function bit of the header type. -/
def Multi (c : Bytes) (a : Nat) : Prop := (num c (a + configLthb) 4).testBit 23 = true

instance : Decidable (Present c a) := instDecidableNot

instance : Decidable (Multi c a) := instDecidableEqBool _ _

/-- The function number in an address. -/
def func (a : Nat) : Nat := a / 256 % 8

/-- Function 0 of the same slot. -/
def first (a : Nat) : Nat := a - a % 2048

/-- A function that the scan stops at. -/
def Scannable (c : Bytes) (a : Nat) : Prop :=
  a % 256 = 0 ∧ (func a = 0 ∨ Present c (first a) ∧ Multi c (first a))

/-- A function that the scan returns. -/
def Visible (c : Bytes) (a : Nat) : Prop := Scannable c a ∧ Present c a

/-- The address that the scan goes to. -/
def after (c : Bytes) (a : Nat) : Nat :=
  if func a = 0 ∧ ¬ (Present c a ∧ Multi c a) then a + 2048 else a + 256

/-- The scan moves forward. -/
theorem lt_after (c : Bytes) (a : Nat) : a < after c a := by
  rw [after]
  split_ifs <;> omega

/-- The scan starts at an address it can start from. -/
theorem scannable_zero (c : Bytes) : Scannable c 0 := ⟨rfl, Or.inl rfl⟩

theorem first_of_func (ha : a % 256 = 0) (hfunc : func a = 0) : first a = a := by
  rw [func] at hfunc
  rw [first]
  omega

/-- The scan goes on to a function that it stops at, -/
theorem scannable_after (h : Scannable c a) : Scannable c (after c a) := by
  obtain ⟨halign, hslot⟩ := h
  rw [after]
  split_ifs with hskip
  · refine ⟨by omega, Or.inl ?_⟩
    have hfunc := hskip.1
    rw [func] at hfunc ⊢
    omega
  · have hmulti : Present c (first a) ∧ Multi c (first a) := by
      by_cases hfunc : func a = 0
      · rw [first_of_func halign hfunc]
        exact not_not.mp fun hnot => hskip ⟨hfunc, hnot⟩
      · exact hslot.resolve_left hfunc
    refine ⟨by omega, ?_⟩
    by_cases hfunc : func (a + 256) = 0
    · exact Or.inl hfunc
    · have hsame : first (a + 256) = first a := by
        rw [func] at hfunc
        rw [first, first]
        omega
      exact Or.inr (hsame ▸ hmulti)

/-- and passes over none. -/
theorem not_scannable_between (h : Scannable c a) (hab : a < b) (hb : b < after c a) :
    ¬ Scannable c b := by
  rintro ⟨halign, hslot⟩
  obtain ⟨hbase, -⟩ := h
  rw [after] at hb
  split_ifs at hb with hskip
  · have hfunc := hskip.1
    have hfirst : first b = a := by
      rw [func] at hfunc
      rw [first]
      omega
    rw [hfirst] at hslot
    refine hslot.elim ?_ hskip.2
    rw [func] at hfunc ⊢
    omega
  · omega

/-! ## One pass -/

/-- `addr_func` on the addresses of the scan. -/
theorem addrFunc_eq (h : a < 0x1000000) : addrFunc a = .ok (func a) := by
  have hand : (a >>> 8) &&& 7 = a >>> 8 % 8 := Nat.and_two_pow_sub_one_eq_mod (a >>> 8) 3
  rw [addrFunc, if_pos h, hand, Nat.shiftRight_eq_div_pow, func]

/-- The test of the header type for further functions. -/
theorem multi_iff : Multi c a ↔ num c (a + configLthb) 4 &&& 0x800000 ≠ 0 := by
  have hand := Nat.and_two_pow (num c (a + configLthb) 4) 23
  rw [Multi, show (0x800000 : Nat) = 2 ^ 23 by norm_num, hand]
  cases (num c (a + configLthb) 4).testBit 23 <;> decide

/-- The address after one that the scan has left. -/
theorem advance_eq (h : a < addrEnd) :
    advance a (num c (a + configLthb) 4) = .ok (after c a) := by
  have hfunc : addrFunc a = .ok (func a) := addrFunc_eq (Nat.lt_trans h (by decide))
  have hcond : (func a = 0 ∧ (num c (a + configLthb) 4 = 2 ^ 32 - 1
        ∨ ¬ num c (a + configLthb) 4 &&& 0x800000 ≠ 0))
      ↔ func a = 0 ∧ ¬ (Present c a ∧ Multi c a) := by
    simp only [multi_iff, Present, not_and_or, ne_eq, not_not]
  rw [advance, hfunc]
  show (if func a = 0 ∧ _ then _ else _) = _
  rw [after]
  by_cases hskip : func a = 0 ∧ ¬ (Present c a ∧ Multi c a)
  · rw [if_pos hskip, if_pos (hcond.mpr hskip)]
    rfl
  · rw [if_neg hskip, if_neg (mt hcond.mp hskip)]
    rfl

theorem readl_lthb (h : a < addrEnd) (halign : a % 256 = 0) :
    readl (a + configLthb) m = .ok (num m.config (a + configLthb) 4, select (a + configLthb) m) := by
  rw [addrEnd] at h
  rw [configLthb]
  exact readl_eq (by omega) (by omega)

/-- What is known at the top of the loop. -/
structure ScanInv (c : Bytes) (s : Scan) : Prop where
  scannable : Scannable c s.addr
  below : s.addr < addrEnd
  header : s.x = num c (s.addr + configLthb) 4
  config : s.machine.config = c

/-- The answer of `next` for the address `a`. -/
inductive Next (c : Bytes) (a : Nat) : Except Fault (Option Nat × Machine) → Prop where
  | none (m : Machine) : m.config = c → (∀ b, a < b → b < addrEnd → ¬ Visible c b) →
      Next c a (.ok (none, m))
  | some (b : Nat) (m : Machine) : m.config = c → a < b → b < addrEnd → Visible c b →
      (∀ d, a < d → d < b → ¬ Visible c d) → Next c a (.ok (some b, m))

/-- An answer from further on, when nothing visible was passed over. -/
theorem Next.mono {r : Except Fault (Option Nat × Machine)} (hlt : a < b)
    (hskip : ∀ d, a < d → d ≤ b → ¬ Visible c d) (h : Next c b r) : Next c a r := by
  cases h with
  | none m hconfig hrest =>
      refine Next.none m hconfig ?_
      intro d hd hend
      by_cases hle : d ≤ b
      · exact hskip d hd hle
      · exact hrest d (by omega) hend
  | some e m hconfig hbe hend hvisible hrest =>
      refine Next.some e m hconfig (by omega) hend hvisible ?_
      intro d hd hde
      by_cases hle : d ≤ b
      · exact hskip d hd hle
      · exact hrest d (by omega) hde

/-- **STEP**: a pass goes to the next function that is looked at, and leaves with it
    when it is present. -/
theorem body_step {s : Scan} (h : ScanInv c s) :
    (∃ r, nextBody s = .leave r ∧ Next c s.addr r) ∨
    (∃ s', nextBody s = .again s' ∧ ScanInv c s' ∧ addrEnd - s'.addr < addrEnd - s.addr
      ∧ ∀ r, Next c s'.addr r → Next c s.addr r) := by
  obtain ⟨addr, x, m⟩ := s
  obtain ⟨hscannable, hbelow, hheader, hconfig⟩ := h
  have hlt := lt_after c addr
  have hafter := scannable_after hscannable
  have hbetween : ∀ d, addr < d → d < after c addr → ¬ Visible c d := fun d hd hend hvisible =>
    not_scannable_between hscannable hd hend hvisible.1
  have hadvance : advance addr x = .ok (after c addr) := by
    rw [show x = num c (addr + configLthb) 4 from hheader]
    exact advance_eq hbelow
  rw [nextBody]
  simp only [hadvance]
  by_cases hend : addrEnd ≤ after c addr
  · refine Or.inl ⟨_, if_pos hend, Next.none m hconfig ?_⟩
    exact fun d hd hdend => hbetween d hd (by omega)
  · have hread := readl_lthb (m := m) (by omega : after c addr < addrEnd) hafter.1
    rw [show m.config = c from hconfig] at hread
    rw [if_neg hend, hread]
    dsimp only
    by_cases hpresent : Present c (after c addr)
    · refine Or.inl ⟨_, if_pos hpresent, Next.some _ _ hconfig hlt (by omega) ⟨hafter, hpresent⟩ ?_⟩
      exact hbetween
    · refine Or.inr ⟨_, if_neg hpresent, ⟨hafter, Nat.lt_of_not_le hend, rfl, hconfig⟩, ?_, ?_⟩
      · show addrEnd - after c addr < addrEnd - addr
        have hbelow : addr < addrEnd := hbelow
        omega
      · intro r hr
        refine hr.mono hlt ?_
        intro d hd hle hvisible
        by_cases heq : d = after c addr
        · exact hpresent (heq ▸ hvisible.2)
        · exact hbetween d hd (by omega) hvisible

/-- **NEXT**: the first visible function above the address, if there is one. -/
theorem next_spec (h : Scannable m.config a) (hend : a < addrEnd) :
    ∃ r, Returns (next a m) r ∧ Next m.config a r := by
  obtain ⟨r, hr, hrun⟩ := run_measure (ScanInv m.config) (fun s => addrEnd - s.addr)
    (fun s r => Next m.config s.addr r) (fun s hs => body_step hs)
    ⟨a, num m.config (a + configLthb) 4, select (a + configLthb) m⟩ ⟨h, hend, rfl, rfl⟩
  refine ⟨r, ⟨addrEnd + 1, ?_⟩, hr⟩
  intro fuel hfuel
  rw [next, readl_lthb hend h.1]
  refine hrun fuel ?_
  show addrEnd - a < fuel
  omega

/-! ## All functions -/

/-- `next`, applied again and again until it returns −1. -/
inductive Enumerates : Nat → Machine → List Nat → Prop where
  | stop (a : Nat) (m m' : Machine) : Returns (next a m) (.ok (none, m')) → Enumerates a m []
  | step (a b : Nat) (m m' : Machine) (L : List Nat) :
      Returns (next a m) (.ok (some b, m')) → Enumerates b m' L → Enumerates a m (b :: L)

/-- From any address of the scan, `next` goes through the visible functions behind it. -/
theorem enumerates_from (n : Nat) : ∀ (a : Nat) (m : Machine), addrEnd - a ≤ n →
    Scannable m.config a → a < addrEnd → ∃ L, Enumerates a m L ∧ (a :: L).Pairwise (· < ·)
      ∧ ∀ b, b ∈ L ↔ a < b ∧ b < addrEnd ∧ Visible m.config b := by
  induction n with
  | zero =>
      intro a m hn _ hend
      omega
  | succ n ih =>
      intro a m hn hscannable hend
      obtain ⟨r, hnext, hr⟩ := next_spec hscannable hend
      cases hr with
      | none m' hconfig hrest =>
          refine ⟨[], Enumerates.stop a m m' hnext, List.pairwise_singleton _ a, ?_⟩
          intro b
          refine iff_of_false List.not_mem_nil ?_
          rintro ⟨hab, hb, hvisible⟩
          exact hrest b hab hb hvisible
      | some b m' hconfig hab hb hvisible hbetween =>
          obtain ⟨L, hL, hsorted, hmem⟩ := ih b m' (by omega) (hconfig ▸ hvisible.1) hb
          refine ⟨b :: L, Enumerates.step a b m m' L hnext hL, ?_, ?_⟩
          · refine List.pairwise_cons.mpr ⟨?_, hsorted⟩
            intro d hd
            rcases List.mem_cons.mp hd with rfl | hd
            · exact hab
            · exact Nat.lt_trans hab ((List.pairwise_cons.mp hsorted).1 d hd)
          · intro d
            rw [List.mem_cons, hmem, hconfig]
            constructor
            · rintro (rfl | ⟨hbd, hd, hv⟩)
              · exact ⟨hab, hb, hvisible⟩
              · exact ⟨by omega, hd, hv⟩
            · rintro ⟨had, hd, hv⟩
              by_cases hle : d ≤ b
              · by_cases heq : d = b
                · exact Or.inl heq
                · exact absurd hv (hbetween d had (by omega))
              · exact Or.inr ⟨by omega, hd, hv⟩

/-- **ENUMERATION**: from address 0 on, `next` gives the visible functions in
    ascending order, and then −1. -/
theorem enumerates (m : Machine) :
    ∃ L, Enumerates 0 m L ∧ L.Pairwise (· < ·)
      ∧ ∀ a, a ∈ L ↔ 0 < a ∧ a < addrEnd ∧ Visible m.config a := by
  obtain ⟨L, hL, hsorted, hmem⟩ := enumerates_from addrEnd 0 m (Nat.le_refl _)
    (scannable_zero m.config) (by decide)
  exact ⟨L, hL, (List.pairwise_cons.mp hsorted).2, hmem⟩

/-- There is only one enumeration. -/
theorem Enumerates.unique {L L' : List Nat} (h : Enumerates a m L) (h' : Enumerates a m L') :
    L = L' := by
  induction h generalizing L' with
  | stop a m m₁ hnext =>
      cases h' with
      | stop _ _ m₂ hnext' => rfl
      | step _ b _ m₂ L' hnext' hL' =>
          exact absurd (Prod.mk.inj (Except.ok.inj (hnext.unique hnext'))).1 (Option.some_ne_none b).symm
  | step a b m m₁ L hnext hL ih =>
      cases h' with
      | stop _ _ m₂ hnext' =>
          exact absurd (Prod.mk.inj (Except.ok.inj (hnext.unique hnext'))).1 (Option.some_ne_none b)
      | step _ b' _ m₂ L' hnext' hL' =>
          obtain ⟨hb, rfl⟩ := Prod.mk.inj (Except.ok.inj (hnext.unique hnext'))
          obtain rfl : b = b' := Option.some.inj hb
          exact congrArg (b :: ·) (ih hL')

/-! ## Searching -/

/-- `find`, with one budget for `next` and one for its own loop. -/
def find (predicate : Nat → Machine → Except Fault (Bool × Machine)) (inner : Nat) :
    Nat → Nat → Machine → Option (Except Fault (Option Nat × Machine))
  | 0, _, _ => none
  | outer + 1, addr, m =>
      match predicate addr m with
      | .error e => some (.error e)
      | .ok (true, m) => some (.ok (some addr, m))
      | .ok (false, m) =>
          match next addr m inner with
          | none => none
          | some (.error e) => some (.error e)
          | some (.ok (none, m)) => some (.ok (none, m))
          | some (.ok (some addr, m)) => find predicate inner outer addr m

/-- The predicate answers by `q`, and changes no configuration space. -/
def Answers (predicate : Nat → Machine → Except Fault (Bool × Machine)) (c : Bytes)
    (q : Nat → Bool) : Prop :=
  ∀ a m, a % 256 = 0 → a < addrEnd → m.config = c →
    ∃ m', predicate a m = .ok (q a, m') ∧ m'.config = c

/-- The start, and the visible functions above it. -/
def Candidate (c : Bytes) (start a : Nat) : Prop :=
  a = start ∨ start < a ∧ a < addrEnd ∧ Visible c a

/-- The first candidate that is accepted, if there is one. -/
def Found (c : Bytes) (q : Nat → Bool) (start : Nat) : Option Nat → Prop
  | none => ∀ a, Candidate c start a → q a = false
  | some b => Candidate c start b ∧ q b = true ∧ ∀ a, a < b → Candidate c start a → q a = false

/-- `find` from any address of the scan. -/
theorem find_from {predicate : Nat → Machine → Except Fault (Bool × Machine)} {q : Nat → Bool}
    (hq : Answers predicate c q) (n : Nat) : ∀ (a : Nat) (m : Machine), addrEnd - a ≤ n →
    m.config = c → Scannable c a → a < addrEnd →
    ∃ r m', Returns₂ (fun inner outer => find predicate inner outer a m) (.ok (r, m'))
      ∧ Found c q a r := by
  induction n with
  | zero =>
      intro a m hn _ _ hend
      omega
  | succ n ih =>
      intro a m hn hm hscannable hend
      obtain ⟨m₁, hasked, hm₁⟩ := hq a m hscannable.1 hend hm
      -- the first candidate meets the predicate
      cases hqa : q a with
      | true =>
          rw [hqa] at hasked
          refine ⟨some a, m₁, ⟨1, fun inner outer _ ho => ?_⟩, Or.inl rfl, hqa, ?_⟩
          · obtain ⟨k, rfl⟩ : ∃ k, outer = k + 1 := ⟨outer - 1, by omega⟩
            simp only [find, hasked]
          · rintro b hb (rfl | ⟨hab, -⟩)
            · exact absurd hb (Nat.lt_irrefl b)
            · omega
      | false =>
          -- it does not, and `next` goes on
          rw [hqa] at hasked
          obtain ⟨r, ⟨k₁, hnext⟩, hr⟩ := next_spec (m := m₁) (hm₁ ▸ hscannable) hend
          rw [hm₁] at hr
          cases hr with
          | none m₂ hm₂ hrest =>
              refine ⟨none, m₂, ⟨k₁ + 1, fun inner outer hi ho => ?_⟩, ?_⟩
              · obtain ⟨k, rfl⟩ : ∃ k, outer = k + 1 := ⟨outer - 1, by omega⟩
                simp only [find, hasked, hnext inner (by omega)]
              · rintro b (rfl | ⟨hab, hb, hvisible⟩)
                · exact hqa
                · exact absurd hvisible (hrest b hab hb)
          | some b m₂ hm₂ hab hb hvisible hbetween =>
              obtain ⟨r, m₃, ⟨k₂, hfind⟩, hfound⟩ := ih b m₂ (by omega) hm₂ hvisible.1 hb
              -- A candidate from `a` on is `a` or one from `b` on.
              have hsplit : ∀ d, Candidate c a d → d = a ∨ Candidate c b d := by
                rintro d (rfl | ⟨had, hd, hv⟩)
                · exact Or.inl rfl
                · by_cases hbd : b < d
                  · exact Or.inr (Or.inr ⟨hbd, hd, hv⟩)
                  · by_cases heq : d = b
                    · exact Or.inr (Or.inl heq)
                    · exact absurd hv (hbetween d had (by omega))
              refine ⟨r, m₃, ⟨k₁ + k₂ + 1, fun inner outer hi ho => ?_⟩, ?_⟩
              · obtain ⟨k, rfl⟩ : ∃ k, outer = k + 1 := ⟨outer - 1, by omega⟩
                simp only [find, hasked, hnext inner (by omega)]
                exact hfind inner k (by omega) (by omega)
              · -- what is found from there on is found from here on
                cases r with
                | none =>
                    intro d hd
                    rcases hsplit d hd with rfl | hd
                    · exact hqa
                    · exact hfound d hd
                | some e =>
                    obtain ⟨hcandidate, hqe, hbelow⟩ := hfound
                    refine ⟨Or.inr ?_, hqe, ?_⟩
                    · rcases hcandidate with rfl | ⟨hbe, he, hv⟩
                      · exact ⟨hab, hb, hvisible⟩
                      · exact ⟨by omega, he, hv⟩
                    · intro d hd hcand
                      rcases hsplit d hcand with rfl | hcand
                      · exact hqa
                      · exact hbelow d hd hcand

/-- **FIND**: from address 0 on, the first function that the predicate accepts,
    address 0 and the visible ones being asked. -/
theorem find_first {predicate : Nat → Machine → Except Fault (Bool × Machine)} {q : Nat → Bool}
    (hq : Answers predicate m.config q) :
    ∃ r m', Returns₂ (fun inner outer => find predicate inner outer 0 m) (.ok (r, m'))
      ∧ Found m.config q 0 r :=
  find_from hq addrEnd 0 m (Nat.le_refl _) rfl (scannable_zero m.config) (by decide)

/-- `config_vendor`. -/
def configVendor : Nat := 0

/-- The test of `poweroff`: a controller that speaks ACPI. -/
def isPowerController (a : Nat) (m : Machine) : Except Fault (Bool × Machine) := do
  let (vd, m) ← readl (a + configVendor) m
  return (vd == 0x71138086 || vd == 0x29188086, m)

/-- The predicate that `find` is called with reads the identification only. -/
theorem isPowerController_answers (c : Bytes) :
    Answers isPowerController c fun a => num c a 4 == 0x71138086 || num c a 4 == 0x29188086 := by
  intro a m halign hend hm
  have hread : readl (a + configVendor) m = .ok (num c a 4, select a m) := by
    rw [addrEnd] at hend
    rw [configVendor, Nat.add_zero, ← hm]
    exact readl_eq (by omega) (by omega)
  exact ⟨select a m, by rw [isPowerController, hread]; rfl, hm⟩

end PciScan
