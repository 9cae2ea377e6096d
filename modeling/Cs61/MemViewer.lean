import Cs61.MemRefresh
import Cs61.PhysPages

/-! # The symbols of the memory viewer

    `memusage::symbol_at` turns the marks of a physical page into a character, and
    complains about pages that should not be marked that way.  After a
    `refresh` each character says who uses the page (`symbol_means`), and there
    are complaints about the pages that are used wrongly and no others
    (`Marks.errors`). -/

namespace MemViewer

open PageTable PostOrder LoopRules PtVisit MemUsage MemRefresh PhysPages

/-! ## `symbol_at` -/

/-- `lsb(x)`: the number of the lowest bit, from 1 on. -/
def lsb (x : BitVec 32) : Nat :=
  match (List.range 32).find? (fun i => x.getLsbD i) with
  | none => 0
  | some i => i + 1

/-- `marked_pid(v)` -/
def markedPid (v : BitVec 32) : Nat := lsb (v >>> 3)

/-- What `symbol_at` reads besides the marks: where the kernel ends, and the
    reference counts. -/
structure View where
  kernelEnd : Nat
  physpages : Nat → UInt8

/-- A call of `page_error`. -/
structure PageError where
  pa : Word
  desc : String
  pid : Int

/-- The address of the console. -/
def console : Word := 0xB8000

/-- A character with its colors. -/
def symbol (c : Char) (color : BitVec 16) : BitVec 16 := BitVec.ofNat 16 c.toNat ||| color

/-- The colours of a symbol, for the processes in turn. -/
def colors : List (BitVec 16) := [0xF, 0xC, 0xA, 0x9, 0xE]

/-- The letters of the processes. -/
def names : List Char := "K123456789ABCDEFGHIJKLMNOPQRST??".toList

/-- `physpages[pn].used()` -/
def View.used (w : View) (pn : Nat) : Bool := w.physpages pn != 0

/-- `physpages[pn].valid()` -/
def View.valid (w : View) (pn : Nat) : Bool := w.physpages pn ≤ 16

/-- `f_process(pid) | f_kernel | f_user | f_nonidentity` -/
def alone (pid : Nat) : BitVec 32 := fProcess pid ||| fKernel ||| fUser ||| fNonidentity

/-- The symbol of a page of process `pid`. -/
def processSymbol (w : View) (v : BitVec 32) (pid : Nat) (pa : Word) (pn : Nat) :
    BitVec 16 × List PageError :=
  let ch := colors.getD (pid % 5) 0 <<< 8
  let ch := if v &&& fKernel ≠ 0 then 0x4000 ||| (if ch = 0x0C00 then 0x0F00 else ch) else ch
  let dangling : Bool := !w.used pn && v &&& fNonidentity != 0
  let errors := if dangling then [⟨pa, "freed page mapped for user", pid⟩] else []
  let ch := if dangling then ch ||| 0xF000 else ch
  if alone pid < v then (symbol 'S' 0x0F00, errors)
  else (symbol (names.getD pid '\x00') ch, errors)

/-- The symbol of a page that can be allocated. -/
def allocatableSymbol (w : View) (u : Usage) (v : BitVec 32) (pa : Word) (pn : Nat) :
    BitVec 16 × List PageError :=
  let vx := v &&& ~~~ fNonidentity
  if vx = 0 then
    if w.used pn then (symbol 'L' 0x0300, []) else (symbol '.' 0x0700, [])
  else if vx = fKernel then (symbol 'K' 0x0D00, [])
  else if vx = fUser then (symbol '.' 0x0700, [])
  else if v &&& fKernel ≠ 0 ∧ v &&& fUser ≠ 0 ∧ u.separateTables = true then
    (symbol '*' 0xF400, [⟨pa, "kernel allocated page mapped for user", markedPid v⟩])
  else processSymbol w v (markedPid v) pa pn

/-- The symbol of a page below `maxpa`. -/
def trackedSymbol (w : View) (u : Usage) (pa : Word) (pn : Nat) : BitVec 16 × List PageError :=
  let isReserved := reservedPhysicalAddress pa.toNat
  let isKernel := !isReserved && !allocatablePhysicalAddress w.kernelEnd pa.toNat
  let v := u.marks pn
  let pid := markedPid v
  if console ≤ pa ∧ pa < console + pageSize then (symbol 'C' 0x0700, [])
  else if isReserved ∧ pid ≠ 0 then
    (symbol 'R' 0x0C00,
      [⟨pa, if pa = 0 then "nullptr physical page mapped for user"
        else "reserved physical page mapped for user", pid⟩])
  else if isReserved then (symbol 'R' 0x0700, [])
  else if isKernel ∧ pid ≠ 0 ∧ u.separateTables = true then
    (symbol 'K' 0xCD00, [⟨pa, "kernel data page mapped for user", pid⟩])
  else if isKernel then (symbol 'K' 0x0D00, [])
  else if memsizePhysical ≤ pa then (symbol ' ' 0x0700, [])
  else allocatableSymbol w u v pa pn

/-- `symbol_at(pa)`, with the calls of `page_error`. -/
def symbolAt (w : View) (u : Usage) (pa : Word) : BitVec 16 × List PageError :=
  let isReserved := reservedPhysicalAddress pa.toNat
  let isKernel := !isReserved && !allocatablePhysicalAddress w.kernelEnd pa.toNat
  let pn := ((pa / pageSize).setWidth 32).toNat
  let errors := if pn < NPAGES ∧ !w.valid pn then [⟨pa, "invalid reference count", -1⟩] else []
  if maxPa ≤ pa then
    (if isKernel then symbol 'K' 0x4000 else if isReserved then symbol '?' 0x4000
      else symbol '?' 0xF000, errors)
  else
    let r := trackedSymbol w u pa pn
    (r.1, errors ++ r.2)

/-! ## The marks of a page -/

section Bits

variable {v : BitVec 32} {n : Nat}

/-- No flag is set. -/
theorem lsb_eq_zero (h : ∀ i < 32, v.getLsbD i = false) : lsb v = 0 := by
  have hnone : (List.range 32).find? (fun i => v.getLsbD i) = none := by
    rw [List.find?_range_eq_none]
    intro i hi
    rw [h i hi]
    rfl
  rw [lsb, hnone]

/-- The lowest flag that is set. -/
theorem lsb_eq (hn : v.getLsbD n = true) (hlow : ∀ i < n, v.getLsbD i = false) :
    lsb v = n + 1 := by
  have hlt : n < 32 := BitVec.lt_of_getLsbD hn
  have hsome : (List.range 32).find? (fun i => v.getLsbD i) = some n := by
    rw [List.find?_range_eq_some]
    refine ⟨hn, List.mem_range.mpr hlt, ?_⟩
    intro i hi
    rw [hlow i hi]
    rfl
  rw [lsb, hsome]

/-- No process is marked. -/
theorem markedPid_eq_zero (h : ∀ i, 3 ≤ i → v.getLsbD i = false) : markedPid v = 0 := by
  refine lsb_eq_zero ?_
  intro i _
  rw [BitVec.getLsbD_ushiftRight]
  exact h (3 + i) (by omega)

/-- The least process that is marked. -/
theorem markedPid_eq {pid : Nat} (h1 : 1 ≤ pid) (h : v.getLsbD (pid + 2) = true)
    (hlow : ∀ p, 1 ≤ p → p < pid → v.getLsbD (p + 2) = false) : markedPid v = pid := by
  have hbit : (v >>> 3).getLsbD (pid - 1) = true := by
    rw [BitVec.getLsbD_ushiftRight, show 3 + (pid - 1) = pid + 2 by omega]
    exact h
  have hrest : ∀ i < pid - 1, (v >>> 3).getLsbD i = false := by
    intro i hi
    rw [BitVec.getLsbD_ushiftRight, show 3 + i = i + 1 + 2 by omega]
    exact hlow (i + 1) (by omega) (by omega)
  rw [markedPid, lsb_eq hbit hrest]
  omega

/-- A page with one owner may have the three flags of all pages. -/
theorem alone_low {pid i : Nat} (hi : i < 3) : (alone pid).getLsbD i = true := by
  rw [alone, BitVec.getLsbD_or, BitVec.getLsbD_or, BitVec.getLsbD_or]
  have hflag : (fKernel.getLsbD i || fUser.getLsbD i || fNonidentity.getLsbD i) = true := by
    interval_cases i <;> decide
  rw [Bool.or_assoc, Bool.or_assoc, ← Bool.or_assoc (fKernel.getLsbD i), hflag, Bool.or_true]

/-- A page with one owner has the flag of its process. -/
theorem alone_process {pid : Nat} (h1 : 1 ≤ pid) (h2 : pid < maxNProc) :
    (alone pid).getLsbD (pid + 2) = true := by
  have hlt : pid < 16 := h2
  have hbit : (BitVec.twoPow 32 (pid + 2)).getLsbD (pid + 2) = true :=
    (getLsbD_twoPow_iff (by omega)).mpr rfl
  rw [alone, BitVec.getLsbD_or, BitVec.getLsbD_or, BitVec.getLsbD_or, fProcess_eq h1 h2, hbit]
  simp

/-- They are below those of the next process. -/
theorem alone_lt {pid : Nat} (h2 : pid < maxNProc) : (alone pid).toNat < 2 ^ (pid + 3) := by
  have hlt : pid < 16 := h2
  interval_cases pid <;> decide

/-- The comparison that finds a second process. -/
theorem shared_iff {pid : Nat} (h2 : pid < maxNProc)
    (hlow : ∀ p, 1 ≤ p → p < pid → v.getLsbD (p + 2) = false) :
    alone pid < v ↔ ∃ p, pid < p ∧ v.getLsbD (p + 2) = true := by
  rw [BitVec.lt_def]
  constructor
  · intro hlt
    by_contra hnone
    -- all marks are those of one process
    have hsub : ∀ i, v.toNat.testBit i = true → (alone pid).toNat.testBit i = true := by
      intro i hi
      by_cases h3 : i < 3
      · exact alone_low h3
      · obtain ⟨p, rfl⟩ : ∃ p, i = p + 2 := ⟨i - 2, by omega⟩
        rcases Nat.lt_trichotomy p pid with hp | rfl | hp
        · exact absurd hi (by rw [← BitVec.getLsbD, hlow p (by omega) hp]; exact Bool.false_ne_true)
        · exact alone_process (by omega) h2
        · exact absurd ⟨p, hp, hi⟩ hnone
    have hand : v.toNat &&& (alone pid).toNat = v.toNat := by
      refine Nat.eq_of_testBit_eq fun i => ?_
      rw [Nat.testBit_and]
      cases hi : v.toNat.testBit i with
      | false => rfl
      | true => rw [hsub i hi, Bool.and_self]
    have hle := Nat.and_le_right (n := v.toNat) (m := (alone pid).toNat)
    omega
  · rintro ⟨p, hp, hbit⟩
    have hge : 2 ^ (p + 2) ≤ v.toNat := Nat.ge_two_pow_of_testBit hbit
    have hpow : 2 ^ (pid + 3) ≤ 2 ^ (p + 2) := Nat.pow_le_pow_right (by decide) (by omega)
    have hone := alone_lt h2
    omega

end Bits

/-! ## What a symbol says -/

/-- The character of a symbol, without its colors. -/
def letter (c : BitVec 16) : BitVec 8 := c.setWidth 8

/-- The code of a character on the console. -/
def code (c : Char) : BitVec 8 := BitVec.ofNat 8 c.toNat

/-- The letter of a symbol. -/
theorem letter_symbol {c : Char} {color : BitVec 16} (h : letter color = 0) :
    letter (symbol c color) = code c := by
  rw [letter] at h
  rw [letter, symbol, BitVec.setWidth_or, h, BitVec.setWidth_ofNat_of_le (by decide), code]
  exact BitVec.or_zero

/-- The marks of a page: kernel page, user page, mapped to another address, and the
    processes. -/
structure Marks (v : BitVec 32) (K U N : Prop) (P : Nat → Prop) : Prop where
  kernel : v.getLsbD 0 = true ↔ K
  user : v.getLsbD 1 = true ↔ U
  nonidentity : v.getLsbD 2 = true ↔ N
  process : ∀ p, 1 ≤ p → (v.getLsbD (p + 2) = true ↔ P p)
  range : ∀ p, P p → 1 ≤ p ∧ p < maxNProc
  owner : N → ∃ p, P p

/-- What each character stands for. -/
inductive Says (K U : Prop) (P : Nat → Prop) (used separate : Prop) : Char → Prop
  | leaked (hk : ¬ K) (hu : ¬ U) (hp : ∀ p, ¬ P p) (h : used) : Says K U P used separate 'L'
  | free (hk : ¬ K) (hu : ¬ U) (hp : ∀ p, ¬ P p) (h : ¬ used) : Says K U P used separate '.'
  | kernel (hk : K) (hu : ¬ U) (hp : ∀ p, ¬ P p) : Says K U P used separate 'K'
  | user (hk : ¬ K) (hu : U) (hp : ∀ p, ¬ P p) : Says K U P used separate '.'
  | both (hk : K) (hu : U) (hp : ∀ p, ¬ P p) (hs : ¬ separate) : Says K U P used separate 'K'
  | clash (hk : K) (hu : U) (hs : separate) : Says K U P used separate '*'
  | shared {p q : Nat} (hno : ¬ (K ∧ U ∧ separate)) (hp : P p) (hq : P q) (hne : p ≠ q) :
      Says K U P used separate 'S'
  | process {p : Nat} (hno : ¬ (K ∧ U ∧ separate)) (hp : P p) (hone : ∀ q, P q → q = p) :
      Says K U P used separate (names.getD p '\x00')

section Symbols

variable {v : BitVec 32} {K U N : Prop} {P : Nat → Prop} {w : View} {u : Usage} {pa : Word}
variable {pn : Nat}

/-- Three flags, and the processes from bit 3 on. -/
theorem bits_cases {i : Nat} : i = 0 ∨ i = 1 ∨ i = 2 ∨ ∃ p, 1 ≤ p ∧ i = p + 2 := by
  by_cases h : i < 3
  · omega
  · exact .inr (.inr (.inr ⟨i - 2, by omega, by omega⟩))

/-- No process has the page. -/
theorem Marks.noProcess (h : Marks v K U N P) (hp : ∀ p, ¬ P p) : markedPid v = 0 := by
  refine markedPid_eq_zero ?_
  intro i hi
  obtain ⟨p, rfl⟩ : ∃ p, i = p + 2 := ⟨i - 2, by omega⟩
  rw [← Bool.not_eq_true, h.process p (by omega)]
  exact hp p

/-- The least process. -/
theorem Marks.least (h : Marks v K U N P) {p : Nat} (hp : P p) (hlow : ∀ q, P q → p ≤ q) :
    markedPid v = p := by
  have h1 := (h.range p hp).1
  refine markedPid_eq h1 ((h.process p h1).mpr hp) ?_
  intro q hq hlt
  rw [← Bool.not_eq_true, h.process q hq]
  intro hPq
  exact absurd (hlow q hPq) (Nat.not_le.mpr hlt)

/-- The process with the lowest number has it. -/
theorem Marks.exists_least (h : Marks v K U N P) (hsome : ∃ p, P p) :
    ∃ p, P p ∧ (∀ q, P q → p ≤ q) ∧ markedPid v = p := by
  classical
  have hfind := Nat.find_spec hsome
  have hmin : ∀ q, P q → Nat.find hsome ≤ q := fun q hq => Nat.find_min' hsome hq
  exact ⟨Nat.find hsome, hfind, hmin, h.least hfind hmin⟩

/-- Some process has it. -/
theorem Marks.markedPid_iff (h : Marks v K U N P) : markedPid v ≠ 0 ↔ ∃ p, P p := by
  constructor
  · intro hne
    by_contra hnone
    exact hne (h.noProcess fun p hp => hnone ⟨p, hp⟩)
  · intro hsome
    obtain ⟨p, hp, -, heq⟩ := h.exists_least hsome
    rw [heq]
    exact Nat.one_le_iff_ne_zero.mp (h.range p hp).1

/-- A flag is tested. -/
theorem and_kernel : v &&& fKernel ≠ 0 ↔ v.getLsbD 0 = true := by
  rw [show fKernel = BitVec.twoPow 32 0 by decide]
  exact and_ne_zero_iff (by omega)

/-- The test of the flag for user mode. -/
theorem and_user : v &&& fUser ≠ 0 ↔ v.getLsbD 1 = true := by
  rw [show fUser = BitVec.twoPow 32 1 by decide]
  exact and_ne_zero_iff (by omega)

/-- The test of the flag for other addresses. -/
theorem and_nonidentity : v &&& fNonidentity ≠ 0 ↔ v.getLsbD 2 = true := by
  rw [show fNonidentity = BitVec.twoPow 32 2 by decide]
  exact and_ne_zero_iff (by omega)

/-- The marks without `f_nonidentity`, compared with those of a kernel page or of
    a user page, or with none. -/
theorem Marks.plain (h : Marks v K U N P) (m : BitVec 32) (hm : ∀ i, 2 ≤ i → m.getLsbD i = false) :
    v &&& ~~~ fNonidentity = m
      ↔ (K ↔ m.getLsbD 0 = true) ∧ (U ↔ m.getLsbD 1 = true) ∧ ∀ p, ¬ P p := by
  have hmask : ∀ i, (v &&& ~~~ fNonidentity).getLsbD i = true ↔ v.getLsbD i = true ∧ i ≠ 2 := by
    intro i
    rw [BitVec.getLsbD_and, Bool.and_eq_true]
    refine and_congr_right fun hi => ?_
    have hlt : i < 32 := BitVec.lt_of_getLsbD hi
    rw [show fNonidentity = BitVec.twoPow 32 2 by decide, BitVec.getLsbD_not, Bool.and_eq_true,
      decide_eq_true_iff, and_iff_right hlt, Bool.not_eq_true', ← Bool.not_eq_true,
      getLsbD_twoPow_iff (by omega)]
  constructor
  · intro heq
    refine ⟨?_, ?_, ?_⟩
    · rw [← h.kernel, ← heq, hmask]
      exact (and_iff_left (by decide)).symm
    · rw [← h.user, ← heq, hmask]
      exact (and_iff_left (by decide)).symm
    · intro p hp
      have h1 := (h.range p hp).1
      have hbit := (hmask (p + 2)).mpr ⟨(h.process p h1).mpr hp, by omega⟩
      rw [heq, hm (p + 2) (by omega)] at hbit
      cases hbit
  · rintro ⟨hk, hu, hp⟩
    refine BitVec.eq_of_getLsbD_eq fun i _ => ?_
    rw [Bool.eq_iff_iff, hmask]
    rcases bits_cases (i := i) with rfl | rfl | rfl | ⟨p, h1, rfl⟩
    · rw [h.kernel, hk]
      exact and_iff_left (by decide)
    · rw [h.user, hu]
      exact and_iff_left (by decide)
    · rw [hm 2 (by omega)]
      exact iff_of_false (fun hne => hne.2 rfl) Bool.false_ne_true
    · rw [hm (p + 2) (by omega), h.process p h1]
      exact iff_of_false (fun hP => hp p hP.1) Bool.false_ne_true

/-- A colour does not change the letter. -/
theorem letter_or (a b : BitVec 16) : letter (a ||| b) = letter a ||| letter b :=
  BitVec.setWidth_or

/-- The colors are no part of the character. -/
theorem letter_color (k : Nat) : letter (colors.getD k 0 <<< 8) = 0 := by
  have hall : ∀ k < 5, letter (colors.getD k 0 <<< 8) = 0 := by decide
  by_cases hk : k < 5
  · exact hall k hk
  · rw [List.getD_eq_default _ _ (Nat.not_lt.mp hk)]
    rfl

/-- The letter of a page of processes. -/
theorem processSymbol_letter (w : View) (v : BitVec 32) (pid : Nat) (pa : Word) (pn : Nat) :
    letter (processSymbol w v pid pa pn).1
      = code (if alone pid < v then 'S' else names.getD pid '\x00') := by
  have hback : ∀ ch : BitVec 16, letter ch = 0 → letter (if v &&& fKernel ≠ 0 then
      0x4000 ||| (if ch = 0x0C00 then 0x0F00 else ch) else ch) = 0 := by
    intro ch hch
    split
    · rw [letter_or]
      split
      · rfl
      · rw [hch]
        rfl
    · exact hch
  have hdangling : ∀ (d : Bool) (ch : BitVec 16), letter ch = 0 →
      letter (if d = true then ch ||| 0xF000 else ch) = 0 := by
    intro d ch hch
    split
    · rw [letter_or, hch]
      rfl
    · exact hch
  rw [processSymbol]
  by_cases hshared : alone pid < v
  · rw [if_pos hshared, if_pos hshared]
    exact letter_symbol rfl
  · rw [if_neg hshared, if_neg hshared]
    exact letter_symbol (hdangling _ _ (hback _ (letter_color _)))

/-- When such a page is complained about. -/
theorem processSymbol_errors (w : View) (v : BitVec 32) (pid : Nat) (pa : Word) (pn : Nat) :
    (processSymbol w v pid pa pn).2 = [] ↔ (v &&& fNonidentity ≠ 0 → w.used pn = true) := by
  have herrors : (processSymbol w v pid pa pn).2 = if (!w.used pn && v &&& fNonidentity != 0) = true
      then [⟨pa, "freed page mapped for user", pid⟩] else [] := by
    rw [processSymbol]
    by_cases hshared : alone pid < v
    · rw [if_pos hshared]
    · rw [if_neg hshared]
  rw [herrors]
  cases hused : w.used pn with
  | true => simp
  | false => simp

/-- Nobody refers to the page. -/
theorem Marks.plain_none (h : Marks v K U N P) :
    v &&& ~~~ fNonidentity = 0 ↔ ¬ K ∧ ¬ U ∧ ∀ p, ¬ P p := by
  refine (h.plain 0 fun i _ => BitVec.getLsbD_zero).trans ?_
  simp

/-- Only the kernel does. -/
theorem Marks.plain_kernel (h : Marks v K U N P) :
    v &&& ~~~ fNonidentity = fKernel ↔ K ∧ ¬ U ∧ ∀ p, ¬ P p := by
  rw [h.plain fKernel, show fKernel.getLsbD 0 = true by decide, show fKernel.getLsbD 1 = false by decide]
  · simp
  · intro i hi
    rw [show fKernel = BitVec.twoPow 32 0 by decide, ← Bool.not_eq_true, getLsbD_twoPow_iff (by omega)]
    omega

/-- Only user mode does, and no process. -/
theorem Marks.plain_user (h : Marks v K U N P) :
    v &&& ~~~ fNonidentity = fUser ↔ ¬ K ∧ U ∧ ∀ p, ¬ P p := by
  rw [h.plain fUser, show fUser.getLsbD 0 = false by decide, show fUser.getLsbD 1 = true by decide]
  · simp
  · intro i hi
    rw [show fUser = BitVec.twoPow 32 1 by decide, ← Bool.not_eq_true, getLsbD_twoPow_iff (by omega)]
    omega

/-- The symbol of a page with a process. -/
theorem Marks.process_says (h : Marks v K U N P) {used separate : Prop}
    (hno : ¬ (K ∧ U ∧ separate)) (hsome : ∃ p, P p) :
    Says K U P used separate
      (if alone (markedPid v) < v then 'S' else names.getD (markedPid v) '\x00') := by
  obtain ⟨p, hp, hmin, heq⟩ := h.exists_least hsome
  have hlow : ∀ q, 1 ≤ q → q < p → v.getLsbD (q + 2) = false := by
    intro q hq hlt
    rw [← Bool.not_eq_true, h.process q hq]
    intro hPq
    exact absurd (hmin q hPq) (Nat.not_le.mpr hlt)
  have hiff := shared_iff (h.range p hp).2 hlow
  have h1 := (h.range p hp).1
  rw [heq]
  by_cases hshared : alone p < v
  · obtain ⟨q, hlt, hbit⟩ := hiff.mp hshared
    rw [if_pos hshared]
    exact .shared hno hp ((h.process q (by omega)).mp hbit) (Nat.ne_of_lt hlt)
  · rw [if_neg hshared]
    refine .process hno hp ?_
    intro q hq
    by_contra hne
    have hlt : p < q := Nat.lt_of_le_of_ne (hmin q hq) fun heq => hne heq.symm
    exact hshared (hiff.mpr ⟨q, hlt, (h.process q (by omega)).mpr hq⟩)

/-- **A PAGE THAT CAN BE ALLOCATED** shows who uses it. -/
theorem Marks.says (h : Marks v K U N P) (w : View) (u : Usage) (pa : Word) (pn : Nat) :
    ∃ c, Says K U P (w.used pn = true) (u.separateTables = true) c
      ∧ letter (allocatableSymbol w u v pa pn).1 = code c := by
  have hclash : v &&& fKernel ≠ 0 ∧ v &&& fUser ≠ 0 ∧ u.separateTables = true
      ↔ K ∧ U ∧ u.separateTables = true := by
    rw [and_kernel, and_user, h.kernel, h.user]
  rw [allocatableSymbol]
  -- no mark at all
  by_cases hnone : v &&& ~~~ fNonidentity = 0
  · obtain ⟨hk, hu, hp⟩ := h.plain_none.mp hnone
    rw [if_pos hnone]
    by_cases hused : w.used pn = true
    · rw [if_pos hused]
      exact ⟨'L', .leaked hk hu hp hused, letter_symbol rfl⟩
    · rw [if_neg hused]
      exact ⟨'.', .free hk hu hp hused, letter_symbol rfl⟩
  rw [if_neg hnone]
  -- the kernel's mark alone
  by_cases hkernel : v &&& ~~~ fNonidentity = fKernel
  · obtain ⟨hk, hu, hp⟩ := h.plain_kernel.mp hkernel
    rw [if_pos hkernel]
    exact ⟨'K', .kernel hk hu hp, letter_symbol rfl⟩
  rw [if_neg hkernel]
  -- the users' mark alone
  by_cases huser : v &&& ~~~ fNonidentity = fUser
  · obtain ⟨hk, hu, hp⟩ := h.plain_user.mp huser
    rw [if_pos huser]
    exact ⟨'.', .user hk hu hp, letter_symbol rfl⟩
  rw [if_neg huser]
  -- two marks that exclude each other
  by_cases hno : K ∧ U ∧ u.separateTables = true
  · rw [if_pos (hclash.mpr hno)]
    exact ⟨'*', .clash hno.1 hno.2.1 hno.2.2, letter_symbol rfl⟩
  rw [if_neg fun hc => hno (hclash.mp hc)]
  refine ⟨_, ?_, processSymbol_letter _ _ _ _ _⟩
  -- otherwise the letter of the least process
  by_cases hsome : ∃ p, P p
  · exact h.process_says hno hsome
  · -- both marks of a page that the kernel gave to nobody
    have hp : ∀ p, ¬ P p := fun p hp => hsome ⟨p, hp⟩
    have hk : K := by
      by_contra hk
      by_cases hu : U
      · exact huser (h.plain_user.mpr ⟨hk, hu, hp⟩)
      · exact hnone (h.plain_none.mpr ⟨hk, hu, hp⟩)
    have hu : U := by
      by_contra hu
      exact hkernel (h.plain_kernel.mpr ⟨hk, hu, hp⟩)
    have hlow : ∀ q, 1 ≤ q → q < 0 → v.getLsbD (q + 2) = false := fun q _ hq => absurd hq (by omega)
    have hshared : ¬ alone 0 < v := by
      rw [shared_iff (by decide) hlow]
      rintro ⟨p, hlt, hbit⟩
      exact hp p ((h.process p (by omega)).mp hbit)
    rw [h.noProcess hp, if_neg hshared]
    exact .both hk hu hp fun hs => hno ⟨hk, hu, hs⟩

/-- It is used wrongly if the kernel and a process share it, or if it is free but
    mapped. -/
theorem Marks.complains (h : Marks v K U N P) (w : View) (u : Usage) (pa : Word) (pn : Nat) :
    (allocatableSymbol w u v pa pn).2 = []
      ↔ ¬ (K ∧ U ∧ u.separateTables = true) ∧ (N → w.used pn = true) := by
  have hclash : v &&& fKernel ≠ 0 ∧ v &&& fUser ≠ 0 ∧ u.separateTables = true
      ↔ K ∧ U ∧ u.separateTables = true := by
    rw [and_kernel, and_user, h.kernel, h.user]
  -- without a process nothing is mapped to another address
  have hmoved : (∀ p, ¬ P p) → N → w.used pn = true := by
    intro hp hN
    obtain ⟨p, hPp⟩ := h.owner hN
    exact absurd hPp (hp p)
  rw [allocatableSymbol]
  by_cases hnone : v &&& ~~~ fNonidentity = 0
  · obtain ⟨hk, -, hp⟩ := h.plain_none.mp hnone
    rw [if_pos hnone]
    refine iff_of_true ?_ ⟨fun hc => hk hc.1, hmoved hp⟩
    split <;> rfl
  rw [if_neg hnone]
  by_cases hkernel : v &&& ~~~ fNonidentity = fKernel
  · obtain ⟨-, hu, hp⟩ := h.plain_kernel.mp hkernel
    rw [if_pos hkernel]
    exact iff_of_true rfl ⟨fun hc => hu hc.2.1, hmoved hp⟩
  rw [if_neg hkernel]
  by_cases huser : v &&& ~~~ fNonidentity = fUser
  · obtain ⟨hk, -, hp⟩ := h.plain_user.mp huser
    rw [if_pos huser]
    exact iff_of_true rfl ⟨fun hc => hk hc.1, hmoved hp⟩
  rw [if_neg huser]
  by_cases hno : K ∧ U ∧ u.separateTables = true
  · rw [if_pos (hclash.mpr hno)]
    exact iff_of_false (List.cons_ne_nil _ _) fun hc => hc.1 hno
  · rw [if_neg fun hc => hno (hclash.mp hc), processSymbol_errors, and_nonidentity, h.nonidentity]
    exact (and_iff_right hno).symm

/-- A page is in one of these cases only. -/
theorem Says.unique {used separate : Prop} {c c' : Char} (h : Says K U P used separate c)
    (h' : Says K U P used separate c') : c = c' := by
  cases h <;> cases h' <;> grind

/-- The address of a physical page. -/
def pageAddress (i : Nat) : Word := BitVec.ofNat 64 (4096 * i)

variable {i : Nat}

/-- Where a page is. -/
theorem toNat_pageAddress (hi : i < 1024) : (pageAddress i).toNat = 4096 * i := by
  rw [pageAddress, BitVec.toNat_ofNat]
  omega

/-- `symbol_at` for a page that is tracked. -/
theorem symbolAt_page (w : View) (u : Usage) (hi : i < 1024) :
    symbolAt w u (pageAddress i)
      = ((trackedSymbol w u (pageAddress i) i).1,
        (if i < NPAGES ∧ !w.valid i then [⟨pageAddress i, "invalid reference count", -1⟩] else [])
          ++ (trackedSymbol w u (pageAddress i) i).2) := by
  have hpn : ((pageAddress i / pageSize).setWidth 32).toNat = i := by
    rw [BitVec.toNat_setWidth, BitVec.toNat_udiv, toNat_pageAddress hi]
    show 4096 * i / 4096 % 2 ^ 32 = i
    omega
  have hlow : ¬ maxPa ≤ pageAddress i := by
    rw [BitVec.le_def, toNat_pageAddress hi]
    show ¬ 0x400000 ≤ 4096 * i
    omega
  rw [symbolAt]
  simp only [hpn, if_neg hlow]

/-- The page of the console. -/
theorem console_iff (hi : i < 1024) :
    console ≤ pageAddress i ∧ pageAddress i < console + pageSize ↔ i = 0xB8 := by
  rw [BitVec.le_def, BitVec.lt_def, toNat_pageAddress hi]
  show 0xB8000 ≤ 4096 * i ∧ 4096 * i < 0xB9000 ↔ i = 0xB8
  omega

/-- Which pages are reserved. -/
theorem reserved_iff : reservedPhysicalAddress (4096 * i) = true ↔ i = 0 ∨ 0xA0 ≤ i ∧ i < 0x100 := by
  rw [reservedPhysicalAddress, Bool.or_eq_true, Bool.and_eq_true, decide_eq_true_iff,
    decide_eq_true_iff, decide_eq_true_iff]
  show 4096 * i < 4096 ∨ 0xA0000 ≤ 4096 * i ∧ 4096 * i < 0x100000 ↔ _
  omega

/-- A page that `kalloc` may return. -/
def Allocatable (w : View) (i : Nat) : Prop :=
  allocatablePhysicalAddress w.kernelEnd (4096 * i) = true

/-- Pages that can be allocated are not reserved. -/
theorem Allocatable.range (h : Allocatable w i) : i < 512 ∧ ¬ (i = 0 ∨ 0xA0 ≤ i ∧ i < 0x100) := by
  obtain ⟨hres, -, -, hlt⟩ := allocatable_iff.mp h
  refine ⟨?_, ?_⟩
  · have hbound : 4096 * i < 0x200000 := hlt
    omega
  · rw [← reserved_iff, hres]
    exact Bool.false_ne_true

/-- Allocatable pages show what their marks say. -/
theorem trackedSymbol_allocatable (h : Allocatable w i) (u : Usage) :
    trackedSymbol w u (pageAddress i) i
      = allocatableSymbol w u (u.marks i) (pageAddress i) i := by
  obtain ⟨hlt, hres⟩ := h.range
  have hnot : reservedPhysicalAddress (4096 * i) = false := by
    rw [← Bool.not_eq_true, reserved_iff]
    exact hres
  have hconsole : ¬ (console ≤ pageAddress i ∧ pageAddress i < console + pageSize) := by
    rw [console_iff (by omega)]
    omega
  have hmem : ¬ memsizePhysical ≤ pageAddress i := by
    rw [BitVec.le_def, toNat_pageAddress (by omega)]
    show ¬ 0x200000 ≤ 4096 * i
    omega
  have halloc : allocatablePhysicalAddress w.kernelEnd (4096 * i) = true := h
  rw [trackedSymbol]
  simp only [if_neg hconsole, toNat_pageAddress (show i < 1024 by omega), hnot, halloc, if_neg hmem]
  simp

/-- Kernel data: neither reserved nor allocatable. -/
def KernelData (w : View) (i : Nat) : Prop :=
  ¬ reservedPhysicalAddress (4096 * i) = true ∧ ¬ Allocatable w i

/-- What `symbol_at` does not complain about. -/
structure Fine (w : View) (K U N : Prop) (P : Nat → Prop) (separate : Prop) (i : Nat) : Prop where
  valid : w.physpages i ≤ 16
  reserved : reservedPhysicalAddress (4096 * i) = true → i ≠ 0xB8 → ∀ p, ¬ P p
  data : KernelData w i → separate → ∀ p, ¬ P p
  clash : Allocatable w i → ¬ (K ∧ U ∧ separate)
  freed : Allocatable w i → N → w.used i = true

/-- When a reserved page is complained about. -/
theorem reserved_errors (hi : i < 512) (hres : reservedPhysicalAddress (4096 * i) = true) :
    (trackedSymbol w u (pageAddress i) i).2 = [] ↔ (i ≠ 0xB8 → markedPid (u.marks i) = 0) := by
  rw [trackedSymbol]
  simp only [toNat_pageAddress (show i < 1024 by omega), hres, console_iff (show i < 1024 by omega)]
  by_cases hconsole : i = 0xB8
  · rw [if_pos hconsole]
    exact iff_of_true rfl fun hne => absurd hconsole hne
  rw [if_neg hconsole]
  by_cases hpid : markedPid (u.marks i) = 0
  · rw [if_neg fun hc => hc.2 hpid, if_pos trivial]
    exact iff_of_true rfl fun _ => hpid
  · rw [if_pos ⟨trivial, hpid⟩]
    exact iff_of_false (List.cons_ne_nil _ _) fun hc => hpid (hc hconsole)

/-- When a page of the kernel's data is complained about. -/
theorem data_errors (hi : i < 512) (hdata : KernelData w i) :
    (trackedSymbol w u (pageAddress i) i).2 = []
      ↔ (u.separateTables = true → markedPid (u.marks i) = 0) := by
  obtain ⟨hres, halloc⟩ := hdata
  have hconsole : i ≠ 0xB8 := by
    rintro rfl
    exact hres (reserved_iff.mpr (by omega))
  rw [Bool.not_eq_true] at hres
  rw [Allocatable, Bool.not_eq_true] at halloc
  rw [trackedSymbol]
  simp only [toNat_pageAddress (show i < 1024 by omega), hres, halloc,
    console_iff (show i < 1024 by omega), if_neg hconsole, Bool.false_eq_true, false_and, if_false,
    Bool.not_false, Bool.and_self]
  by_cases hbad : markedPid (u.marks i) ≠ 0 ∧ u.separateTables = true
  · rw [if_pos ⟨trivial, hbad⟩]
    exact iff_of_false (List.cons_ne_nil _ _) fun hc => hbad.1 (hc hbad.2)
  · rw [if_neg fun hc => hbad hc.2, if_pos trivial]
    exact iff_of_true rfl fun hs => not_not.mp fun hne => hbad ⟨hne, hs⟩

/-- When a page is complained about. -/
theorem Marks.tracked_errors (h : Marks (u.marks i) K U N P) (hi : i < 512) :
    (trackedSymbol w u (pageAddress i) i).2 = []
      ↔ (reservedPhysicalAddress (4096 * i) = true → i ≠ 0xB8 → ∀ p, ¬ P p)
        ∧ (KernelData w i → u.separateTables = true → ∀ p, ¬ P p)
        ∧ (Allocatable w i → ¬ (K ∧ U ∧ u.separateTables = true))
        ∧ (Allocatable w i → N → w.used i = true) := by
  have hnone : markedPid (u.marks i) = 0 ↔ ∀ p, ¬ P p := by
    rw [← not_exists, ← h.markedPid_iff, not_not]
  by_cases halloc : Allocatable w i
  · have hres : ¬ reservedPhysicalAddress (4096 * i) = true := by
      rw [reserved_iff]
      exact halloc.range.2
    rw [trackedSymbol_allocatable halloc, h.complains]
    exact ⟨fun hc => ⟨fun hr => absurd hr hres, fun hd => absurd halloc hd.2, fun _ => hc.1,
      fun _ => hc.2⟩, fun hc => ⟨hc.2.2.1 halloc, hc.2.2.2 halloc⟩⟩
  by_cases hres : reservedPhysicalAddress (4096 * i) = true
  · rw [reserved_errors hi hres, hnone]
    exact ⟨fun hc => ⟨fun _ => hc, fun hd => absurd hres hd.1, fun ha => absurd ha halloc,
      fun ha => absurd ha halloc⟩, fun hc => hc.1 hres⟩
  · rw [data_errors hi ⟨hres, halloc⟩, hnone]
    exact ⟨fun hc => ⟨fun hr => absurd hr hres, fun _ => hc, fun ha => absurd ha halloc,
      fun ha => absurd ha halloc⟩, fun hc => hc.2.1 ⟨hres, halloc⟩⟩

/-- **THE COMPLAINTS** are about pages that are used wrongly. -/
theorem Marks.errors (h : Marks (u.marks i) K U N P) (w : View) (hi : i < 512) :
    (symbolAt w u (pageAddress i)).2 = [] ↔ Fine w K U N P (u.separateTables = true) i := by
  have hvalid : (if i < NPAGES ∧ !w.valid i then
      [(⟨pageAddress i, "invalid reference count", -1⟩ : PageError)] else []) = []
      ↔ w.physpages i ≤ 16 := by
    by_cases hle : w.physpages i ≤ 16
    · simp [View.valid, hle]
    · have hpages : i < NPAGES := hi
      simp [View.valid, hle, hpages]
  rw [symbolAt_page w u (by omega), List.append_eq_nil_iff, hvalid, h.tracked_errors hi]
  exact ⟨fun hc => ⟨hc.1, hc.2.1, hc.2.2.1, hc.2.2.2.1, hc.2.2.2.2⟩,
    fun hc => ⟨hc.valid, hc.reserved, hc.data, hc.clash, hc.freed⟩⟩

/-- **THE LETTERS** are those of `Says`. -/
theorem Marks.letter_iff (h : Marks (u.marks i) K U N P) (halloc : Allocatable w i) {c : Char}
    (hc : Says K U P (w.used i = true) (u.separateTables = true) c) :
    letter (symbolAt w u (pageAddress i)).1 = code c := by
  obtain ⟨c', hc', hletter⟩ := h.says w u (pageAddress i) i
  rw [symbolAt_page w u (by have := halloc.range; omega), trackedSymbol_allocatable halloc, hletter,
    hc'.unique hc]

end Symbols

/-! ## After a `refresh` -/

section Refreshed

variable {k : Kernel} {u u' : Usage} {i : Nat} {w : View}

/-- Process `pid` uses page `i`, as a page-table page or through a user mapping. -/
def Uses (k : Kernel) (i pid : Nat) : Prop :=
  Separate k pid ∧ (LowTablePage k.mem (k.ptable pid).pagetable i
    ∨ ∃ va pa, UserMaps k.mem (k.ptable pid).pagetable va pa i)

/-- Some process maps page `i`. -/
def Mapped (k : Kernel) (i : Nat) : Prop :=
  ∃ pid va pa, Separate k pid ∧ UserMaps k.mem (k.ptable pid).pagetable va pa i

/-- Some process maps page `i` at another address than its own. -/
def Moved (k : Kernel) (i : Nat) : Prop :=
  ∃ pid va pa, Separate k pid ∧ UserMaps k.mem (k.ptable pid).pagetable va pa i ∧ va ≠ pa

/-- Page `i` belongs to a page table, or it is the page of the marks. -/
def KernelPage (k : Kernel) (u : Usage) (i : Nat) : Prop :=
  TablePage k.mem k.kernelPagetable i
    ∨ (∃ pid, Separate k pid ∧ LowTablePage k.mem (k.ptable pid).pagetable i)
    ∨ u.v.toNat / 4096 = i

/-- The marks that `refresh` has made when it has seen all processes. -/
structure Seen (k : Kernel) (v : Word) (u : Usage) : Prop where
  array : u.v = v
  separate : u.separateTables = true ↔ ∃ pid, Separate k pid
  flags : ∀ i < 1024, ∀ b, Flagged u i b
    ↔ ((TablePage k.mem k.kernelPagetable i ∨ v.toNat / 4096 = i) ∧ b = 0)
      ∨ ∃ pid, Separate k pid ∧ ProcMark k pid i b

/-- Then it may have to go by physical addresses. -/
theorem refresh_seen {page : Word} (hkernel : PageTree k.mem k.kernelPagetable)
    (hwf : ∀ pid, Separate k pid → WellFormed k.mem (k.ptable pid).pagetable)
    (hv : u.v ≠ 0#64 ∨ page ≠ 0#64) :
    ∃ u₁, Seen k (if u.v = 0#64 then page else u.v) u₁
      ∧ ∀ u', Returns₂ (fun _ outer => k.refreshByOwner outer u₁) u'
        → Returns₂ (k.refresh page u) u' := by
  have hne : (if u.v = 0#64 then page else u.v) ≠ 0#64 := by
    by_cases h0 : u.v = 0#64
    · rw [if_pos h0]
      exact hv.resolve_left fun h => h h0
    · rw [if_neg h0]
      exact h0
  -- the four steps of `refresh`
  have hdef : ∀ inner outer, k.refresh page u inner outer
      = (visit k.mem (fun it => !it.done) k.kernelPagetable inner outer).bind fun L =>
        (k.refreshProcs inner outer (List.range' 1 (maxNProc - 1))
          (k.markKernelTables (if u.v = 0#64 then page else u.v) L
            (.cleared (if u.v = 0#64 then page else u.v)))).bind (k.refreshByOwner outer) :=
    fun _ _ => if_neg hne
  -- the kernel's tables, then the processes
  generalize (if u.v = 0#64 then page else u.v) = v at hdef ⊢
  obtain ⟨L, hL, htables⟩ := visit_all hkernel
  have hadds := adds_markKernelTables v htables (.cleared v)
  obtain ⟨u₁, hret, hsep, hprocs⟩ := refreshProcs_spec (fun pid h => mem_pids.mp h) hwf
    (k.markKernelTables v L (.cleared v))
  have hstart : ¬ (k.markKernelTables v L (.cleared v)).separateTables = true := by
    rw [Kernel.markKernelTables, mark_separateTables, mark_separateTables,
      foldl_keeps Usage.separateTables (fun u it => mark_separateTables u _ _)]
    exact Bool.false_ne_true
  refine ⟨u₁, ⟨hprocs.v.trans hadds.v, ?_, ?_⟩, ?_⟩
  · rw [hsep, or_iff_right hstart]
    constructor
    · rintro ⟨pid, -, hs⟩
      exact ⟨pid, hs⟩
    · rintro ⟨pid, hs⟩
      exact ⟨pid, mem_pids.mpr ⟨hs.1, hs.2.1⟩, hs⟩
  · -- flag by flag: there was none before
    intro i hi b
    have hzero : ¬ Flagged (.cleared v) i b := by
      rw [Flagged, Usage.cleared, BitVec.getLsbD_zero]
      exact Bool.false_ne_true
    rw [hprocs.flags i hi, hadds.flags i hi, or_iff_right hzero]
    refine or_congr Iff.rfl ?_
    constructor
    · rintro ⟨pid, -, h⟩
      exact ⟨pid, h⟩
    · rintro ⟨pid, hs, hm⟩
      exact ⟨pid, mem_pids.mpr ⟨hs.1, hs.2.1⟩, hs, hm⟩
  · intro u' hlast
    exact (hL.bind (g := fun inner outer L => (k.refreshProcs inner outer
      (List.range' 1 (maxNProc - 1)) (k.markKernelTables v L (.cleared v))).bind
        (k.refreshByOwner outer)) (hret.bind hlast)).congr hdef

/-- The marks of processes with page tables of their own. -/
theorem Seen.marks {v : Word} (h : Seen k v u) (hi : i < 1024) :
    Marks (u.marks i) (KernelPage k u i) (Mapped k i) (Moved k i) (Uses k i) where
  -- marked by the kernel's table, the viewer or a process's table
  kernel := by
    refine (h.flags i hi 0).trans ?_
    rw [KernelPage, h.array]
    constructor
    · rintro (⟨hpage | hpage, -⟩ | ⟨pid, hsep, hm⟩)
      · exact .inl hpage
      · exact .inr (.inr hpage)
      · exact .inr (.inl ⟨pid, hsep, procMark_kernel.mp hm⟩)
    · rintro (hpage | ⟨pid, hsep, hpage⟩ | hpage)
      · exact .inl ⟨.inl hpage, rfl⟩
      · exact .inr ⟨pid, hsep, procMark_kernel.mpr hpage⟩
      · exact .inl ⟨.inr hpage, rfl⟩
  user := by
    refine (h.flags i hi 1).trans ?_
    constructor
    · rintro (⟨-, hb⟩ | ⟨pid, hsep, hm⟩)
      · cases hb
      · obtain ⟨va, pa, hmap⟩ := procMark_user.mp hm
        exact ⟨pid, va, pa, hsep, hmap⟩
    · rintro ⟨pid, va, pa, hsep, hmap⟩
      exact .inr ⟨pid, hsep, procMark_user.mpr ⟨va, pa, hmap⟩⟩
  nonidentity := by
    refine (h.flags i hi 2).trans ?_
    constructor
    · rintro (⟨-, hb⟩ | ⟨pid, hsep, hm⟩)
      · cases hb
      · obtain ⟨va, pa, hmap, hne⟩ := (procMark_nonidentity hsep.1).mp hm
        exact ⟨pid, va, pa, hsep, hmap, hne⟩
    · rintro ⟨pid, va, pa, hsep, hmap, hne⟩
      exact .inr ⟨pid, hsep, (procMark_nonidentity hsep.1).mpr ⟨va, pa, hmap, hne⟩⟩
  process := by
    intro p h1
    refine (h.flags i hi (p + 2)).trans ?_
    constructor
    · rintro (⟨-, hb⟩ | ⟨pid, hsep, hm⟩)
      · cases hb
      · obtain ⟨rfl, hpage⟩ := (procMark_process h1).mp hm
        exact ⟨hsep, hpage⟩
    · rintro ⟨hsep, hpage⟩
      exact .inr ⟨p, hsep, (procMark_process h1).mpr ⟨rfl, hpage⟩⟩
  range := fun p hp => ⟨hp.1.1, hp.1.2.1⟩
  owner := by
    rintro ⟨pid, va, pa, hsep, hmap, -⟩
    exact ⟨pid, hsep, .inr ⟨va, pa, hmap⟩⟩

/-- **THE MEMORY VIEWER TELLS THE TRUTH**: when processes have page tables of their
    own, each page that can be allocated shows the letter of its users, and there
    is a complaint if and only if a page is used wrongly. -/
theorem symbol_means {page : Word} (hkernel : PageTree k.mem k.kernelPagetable)
    (hwf : ∀ pid, Separate k pid → WellFormed k.mem (k.ptable pid).pagetable)
    (hsome : ∃ pid, Separate k pid) (hv : u.v ≠ 0#64 ∨ page ≠ 0#64) :
    ∃ u', Returns₂ (k.refresh page u) u' ∧ ∀ i < 512,
      ((symbolAt w u' (pageAddress i)).2 = []
        ↔ Fine w (KernelPage k u' i) (Mapped k i) (Moved k i) (Uses k i) True i)
      ∧ (Allocatable w i →
        (∃ c, Says (KernelPage k u' i) (Mapped k i) (Uses k i) (w.used i = true) True c)
        ∧ ∀ c, Says (KernelPage k u' i) (Mapped k i) (Uses k i) (w.used i = true) True c →
          letter (symbolAt w u' (pageAddress i)).1 = code c) := by
  obtain ⟨u', hseen, hlast⟩ := refresh_seen hkernel hwf hv
  have hsep := hseen.separate.mpr hsome
  have htrue : (u'.separateTables = true) = True := eq_true hsep
  refine ⟨u', hlast u' ((Returns₂.pure u').congr fun _ _ => ?_), ?_⟩
  · rw [Kernel.refreshByOwner, if_pos hsep]
  intro i hi
  have hmarks := hseen.marks (show i < 1024 by omega)
  refine ⟨?_, fun halloc => ⟨?_, ?_⟩⟩
  · rw [hmarks.errors w hi, htrue]
  · obtain ⟨c, hc, -⟩ := hmarks.says w u' (pageAddress i) i
    rw [htrue] at hc
    exact ⟨c, hc⟩
  · intro c hc
    refine hmarks.letter_iff halloc ?_
    rw [htrue]
    exact hc

/-- Nothing is allocated. -/
def smallView : View where
  kernelEnd := 0x60000
  physpages := fun _ => 0

theorem symbol_means_small :
    ∃ u', Returns₂ (smallKernel.refresh 0x7000#64 (.cleared 0#64)) u' ∧ ∀ i < 512,
      ((symbolAt smallView u' (pageAddress i)).2 = []
        ↔ Fine smallView (KernelPage smallKernel u' i) (Mapped smallKernel i) (Moved smallKernel i)
          (Uses smallKernel i) True i)
      ∧ (Allocatable smallView i →
        (∃ c, Says (KernelPage smallKernel u' i) (Mapped smallKernel i) (Uses smallKernel i)
          (smallView.used i = true) True c)
        ∧ ∀ c, Says (KernelPage smallKernel u' i) (Mapped smallKernel i) (Uses smallKernel i)
            (smallView.used i = true) True c →
          letter (symbolAt smallView u' (pageAddress i)).1 = code c) := by
  refine symbol_means emptyTable_pageTree ?_
    ⟨1, by decide, by decide, by decide, by decide, by decide⟩ (.inr (by decide))
  intro pid h
  rw [smallKernel_separate h]
  exact smallTable_wellFormed

end Refreshed

end MemViewer
