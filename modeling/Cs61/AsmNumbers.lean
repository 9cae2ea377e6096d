import Cs61.X86Code
import Mathlib.Data.Nat.Prime.Basic

/-! # The assembly puzzles on numbers

    `fun10` and `fun07` of `asmfun` read a number with `strtol`.  `fun10` accepts
    the powers of two from 256 on.  `fun07` looks for a divisor among the numbers
    below: it accepts the primes up to 46341 and rejects composite numbers
    (`fun07_returns`), but close to the greatest `int` its inner loop may go on for
    ever (`fun07_forever`). -/

namespace AsmNumbers

open X86Stack (Word Mem Reg read64 write64)
open X86Code

variable {ext : Ext} {parse : List (BitVec 8) → Word} {s : State} {L : List (BitVec 8)}

/-- What `strtol(s, nullptr, 0)` does. -/
structure IsStrtol (parse : List (BitVec 8) → Word) (f : State → State) : Prop where
  value : ∀ s L, CString s.mem (s.regs .rdi) L → s.regs .rsi = 0 → s.regs .rdx = 0 →
    (f s).regs .rax = parse L
  saved : ∀ s, Saved s (f s)

/-- The number that a string stands for, as `int`. -/
def number (parse : List (BitVec 8) → Word) (L : List (BitVec 8)) : BitVec 32 :=
  (parse L).setWidth 32

/-- How both functions start. -/
def strtolFirst : List Instr :=
  [.endbr64,
   .push .rcx,
   .alu .xor .l (.reg .rdx) .rdx,
   .alu .xor .l (.reg .rsi) .rsi,
   .call "strtol"]

/-- The instructions before the call of `strtol`. -/
theorem strtolFirst_pushes {code : List Instr} (hs : s.pc = 0) :
    Eventually (step ext (strtolFirst ++ code)) (fun t => t.pc = 4
      ∧ t.mem = write64 s.mem (s.rsp - 8) (s.regs .rcx) ∧ t.rsp = s.rsp - 8
      ∧ t.regs .rdi = s.regs .rdi ∧ t.regs .rdx = 0#64 ∧ t.regs .rsi = 0#64) s := by
  obtain ⟨pc, regs, rsp, flags, mem⟩ := s
  obtain rfl : pc = 0 := hs
  refine .next rfl (.next rfl (.next rfl (.next rfl (.here ?_))))
  simp

/-- The call gives the number. -/
theorem strtolFirst_calls (code : List Instr) (hext : IsStrtol parse (ext "strtol")) (hs : s.pc = 0)
    (hstr : CString s.mem (s.regs .rdi) L) (hclear : Clear s.rsp (s.regs .rdi) L) :
    Eventually (step ext (strtolFirst ++ code))
      (fun t => t.pc = 5 ∧ t.regs .rax = parse L ∧ t.rsp + 8 = s.rsp) s := by
  refine (strtolFirst_pushes hs).bind ?_
  rintro t ⟨hpc, hmem, hrsp, hrdi, hrdx, hrsi⟩
  have hpushed : CString t.mem (t.regs .rdi) L := by
    rw [hmem, hrdi]
    exact push_string hstr hclear
  have hcall : step ext (strtolFirst ++ code) t = some { ext "strtol" t with pc := 5 } := by
    have hfetch : (strtolFirst ++ code)[t.pc]? = some (.call "strtol") := by
      rw [hpc]
      rfl
    rw [step, hfetch]
    simp only [exec, hpc]
  refine .next hcall (.here ⟨rfl, hext.value t L hpushed hrsi hrdx, ?_⟩)
  rw [(hext.saved t).rsp, hrsp, BitVec.sub_add_cancel]

/-- No callee-saved register is used. -/
theorem returned {code : List Instr} {P : State → Prop} (hext : IsStrtol parse (ext "strtol"))
    (hcode : ∀ i ∈ code, ∀ r ∈ calleeSaved, i.dst ≠ some r)
    (hcall : ∀ f, .call f ∈ code → f = "strtol")
    (h : Eventually (step ext code) (fun t => P t ∧ t.rsp = s.rsp) s) :
    Eventually (step ext code) (fun t => P t ∧ Saved s t) s := by
  refine (h.keeps hcode ?_).mono ?_
  · intro f hf t
    rw [hcall f hf]
    exact (hext.saved t).regs
  · rintro t ⟨⟨hp, hrsp⟩, hregs⟩
    exact ⟨hp, hrsp, hregs⟩

/-! ## `fun10` -/

/-- `fun10.s` -/
def fun10 : List Instr :=
  [.endbr64,
   .push .rcx,
   .alu .xor .l (.reg .rdx) .rdx,
   .alu .xor .l (.reg .rsi) .rsi,
   .call "strtol",
   .mov .b (.imm 1) .rdx,
   .mov .l (.reg .rax) .rcx,
   .shr .l 8 .rcx,
   .jcc .e 2,
   .lea .l ⟨-1, .rax, none⟩ .rdx,
   .test .l .rax .rdx,
   .set .ne .rdx,
   .label 2,
   .movzbl .rdx .rax,
   .pop .rdx,
   .ret]

/-- A number of at most eight bits goes to the end. -/
theorem fun10_high (hs : s.pc = 5) : Eventually (step ext fun10)
    (fun t => t.pc = (if eax s >>> 8 = 0 then 12 else 9) ∧ t.rsp = s.rsp
      ∧ t.regs .rax = s.regs .rax ∧ (t.regs .rdx).setWidth 8 = 1) s := by
  obtain ⟨pc, regs, rsp, flags, mem⟩ := s
  obtain rfl : pc = 5 := hs
  refine .next rfl (.next rfl (.next rfl (.next rfl (.here ?_))))
  simp
  exact if_congr beq_iff_eq rfl rfl

/-- One less. -/
theorem fun10_mask (hs : s.pc = 9) : Eventually (step ext fun10)
    (fun t => t.pc = 12 ∧ t.rsp = s.rsp ∧ ((t.regs .rdx).setWidth 8 = 0
      ↔ (eax s - 1) &&& eax s = 0)) s := by
  obtain ⟨pc, regs, rsp, flags, mem⟩ := s
  obtain rfl : pc = 9 := hs
  have hless : (regs .rax + 18446744073709551615#64).setWidth 32
      = (regs .rax).setWidth 32 - 1 := by
    rw [BitVec.setWidth_add _ _ (by decide), sub_eq_add_neg]
    rfl
  refine .next rfl (.next rfl (.next rfl (.here ⟨rfl, rfl, ?_⟩)))
  simp [eax, hless]
  exact not_holds_ne _

/-- The result of `fun10`, from `%rdx`. -/
theorem fun10_result (hs : s.pc = 12) : Eventually (step ext fun10)
    (fun t => AtRet fun10 t ∧ t.rsp = s.rsp + 8
      ∧ (eax t = 0 ↔ (s.regs .rdx).setWidth 8 = 0)) s := by
  obtain ⟨pc, regs, rsp, flags, mem⟩ := s
  obtain rfl : pc = 12 := hs
  refine .next rfl (.next rfl (.next rfl (.here ⟨rfl, rfl, ?_⟩)))
  simp [eax]
  have hlow : ((regs .rdx).setWidth 8).toNat < 2 ^ 8 := BitVec.isLt _
  rw [← BitVec.toNat_inj, ← BitVec.toNat_inj, BitVec.toNat_setWidth (32), Nat.mod_eq_of_lt (by omega)]
  rfl

/-- A power of two of more than eight bits. -/
theorem isPower_iff {v : BitVec 32} :
    v >>> 8 ≠ 0 ∧ (v - 1) &&& v = 0 ↔ ∃ k, 8 ≤ k ∧ v.toNat = 2 ^ k := by
  have hhigh : v >>> 8 ≠ 0 ↔ 2 ^ 8 ≤ v.toNat := by
    rw [ne_eq, ← BitVec.toNat_inj, BitVec.toNat_ushiftRight, Nat.shiftRight_eq_div_pow]
    show ¬ v.toNat / 2 ^ 8 = 0 ↔ 2 ^ 8 ≤ v.toNat
    omega
  have hand : 2 ^ 8 ≤ v.toNat → ((v - 1) &&& v = 0 ↔ v.toNat.isPowerOfTwo) := by
    intro hle
    have hpred : (v - 1).toNat = v.toNat - 1 := BitVec.toNat_sub_of_le (Nat.le_trans (by decide) hle)
    rw [← Nat.and_sub_one_eq_zero_iff_isPowerOfTwo (by omega), Nat.and_comm, ← hpred,
      ← BitVec.toNat_and, ← BitVec.toNat_inj]
    rfl
  rw [hhigh]
  constructor
  · rintro ⟨hle, hzero⟩
    obtain ⟨k, hk⟩ := (hand hle).mp hzero
    rw [hk] at hle
    exact ⟨k, (Nat.pow_le_pow_iff_right (by decide)).mp hle, hk⟩
  · rintro ⟨k, hle, hk⟩
    have hlow : 2 ^ 8 ≤ v.toNat := hk ▸ Nat.pow_le_pow_right (by decide) hle
    exact ⟨hlow, (hand hlow).mpr ⟨k, hk⟩⟩

/-- **`fun10`** accepts the powers of two from 256 on; `-2147483648` is one of them. -/
theorem fun10_returns (hext : IsStrtol parse (ext "strtol")) (hs : s.pc = 0)
    (hstr : CString s.mem (s.regs .rdi) L) (hclear : Clear s.rsp (s.regs .rdi) L) :
    Eventually (step ext fun10) (fun t => AtRet fun10 t ∧ Saved s t
      ∧ (eax t = 0 ↔ ∃ k, 8 ≤ k ∧ (number parse L).toNat = 2 ^ k)) s := by
  have hmain : Eventually (step ext fun10) (fun t => (AtRet fun10 t
      ∧ (eax t = 0 ↔ ∃ k, 8 ≤ k ∧ (number parse L).toNat = 2 ^ k)) ∧ t.rsp = s.rsp) s := by
    refine (strtolFirst_calls (fun10.drop 5) hext hs hstr hclear).bind ?_
    rintro t ⟨hpc, hrax, hrsp⟩
    have heax : eax t = number parse L := by rw [eax, hrax, number]
    refine (fun10_high hpc).bind ?_
    rintro u ⟨hpc, hrsp₂, hrax₂, hdl⟩
    rw [heax] at hpc
    rw [← isPower_iff]
    by_cases hhigh : number parse L >>> 8 = 0
    · -- too small
      rw [if_pos hhigh] at hpc
      refine (fun10_result hpc).mono ?_
      rintro v ⟨hret, hrsp₃, hiff⟩
      refine ⟨⟨hret, hiff.trans (iff_of_false ?_ fun h => h.1 hhigh)⟩, by rw [hrsp₃, hrsp₂, hrsp]⟩
      rw [hdl]
      decide
    · rw [if_neg hhigh] at hpc
      have heax₂ : eax u = number parse L := by rw [eax, hrax₂, hrax, number]
      refine (fun10_mask hpc).bind ?_
      rintro v ⟨hpc, hrsp₃, hmask⟩
      refine (fun10_result hpc).mono ?_
      rintro w ⟨hret, hrsp₄, hiff⟩
      refine ⟨⟨hret, ?_⟩, by rw [hrsp₄, hrsp₃, hrsp₂, hrsp]⟩
      rw [hiff, hmask, heax₂]
      exact (and_iff_right hhigh).symm
  refine (returned hext (by decide) ?_ hmain).mono ?_
  · intro f hf
    simpa [fun10] using hf
  · rintro t ⟨⟨hret, hiff⟩, hsaved⟩
    exact ⟨hret, hsaved, hiff⟩

/-! ## `fun07` -/

/-- `fun07.s` -/
def fun07 : List Instr :=
  [.endbr64,
   .push .rcx,
   .alu .xor .l (.reg .rdx) .rdx,
   .alu .xor .l (.reg .rsi) .rsi,
   .call "strtol",
   .mov .l (.imm 2) .rdx,
   .mov .l (.reg .rax) .rsi,
   .label 2,
   .cmp .l (.reg .rsi) (.reg .rdx),
   .jcc .ge 5,
   .mov .l (.reg .rdx) .rcx,
   .alu .imul .l (.reg .rdx) .rcx,
   .label 6,
   .cmp .l (.reg .rsi) (.reg .rcx),
   .jcc .ge 10,
   .alu .add .l (.reg .rdx) .rcx,
   .jmp 6,
   .label 10,
   .jcc .e 7,
   .unary .inc .l .rdx,
   .jmp 2,
   .label 5,
   .unary .dec .l .rax,
   .set .le .rax,
   .movzbl .rax .rax,
   .jmp 1,
   .label 7,
   .mov .l (.imm 1) .rax,
   .label 1,
   .pop .rdx,
   .ret]

/-- The registers of the search, as `int`. -/
def esi (t : State) : BitVec 32 := (t.regs .rsi).setWidth 32

/-- The low half of `%rdx`, as an instruction with suffix `l` sees it. -/
def edx (t : State) : BitVec 32 := (t.regs .rdx).setWidth 32

/-- The low half of `%rcx`. -/
def ecx (t : State) : BitVec 32 := (t.regs .rcx).setWidth 32

/-- `fun07` starts the search with two. -/
theorem fun07_start (hs : s.pc = 5) : Eventually (step ext fun07)
    (fun t => t.pc = 7 ∧ t.rsp = s.rsp ∧ eax t = eax s ∧ esi t = eax s ∧ edx t = 2#32) s := by
  obtain ⟨pc, regs, rsp, flags, mem⟩ := s
  obtain rfl : pc = 5 := hs
  refine .next rfl (.next rfl (.here ?_))
  simp [eax, esi, edx]

/-- The next divisor is compared with the number. -/
theorem fun07_test (hs : s.pc = 7) : Eventually (step ext fun07)
    (fun t => t.pc = (if (esi s).toInt ≤ (edx s).toInt then 21 else 10) ∧ t.rsp = s.rsp
      ∧ t.regs = s.regs) s := by
  obtain ⟨pc, regs, rsp, flags, mem⟩ := s
  obtain rfl : pc = 7 := hs
  refine .next rfl (.next rfl (.next rfl (.here ⟨?_, rfl, rfl⟩)))
  exact if_congr (Cond.ge.cmp _ _) rfl rfl

/-- The multiples start with the square. -/
theorem fun07_square (hs : s.pc = 10) : Eventually (step ext fun07)
    (fun t => t.pc = 12 ∧ t.rsp = s.rsp ∧ eax t = eax s ∧ esi t = esi s ∧ edx t = edx s
      ∧ ecx t = edx s * edx s) s := by
  obtain ⟨pc, regs, rsp, flags, mem⟩ := s
  obtain rfl : pc = 10 := hs
  refine .next rfl (.next rfl (.here ?_))
  simp [eax, esi, edx, ecx]

/-- The multiple is compared with the number. -/
theorem fun07_less (hs : s.pc = 12) : Eventually (step ext fun07)
    (fun t => t.pc = (if (esi s).toInt ≤ (ecx s).toInt then 17 else 15) ∧ t.rsp = s.rsp
      ∧ t.regs = s.regs ∧ t.flags = flagsOfSub (esi s) (ecx s)) s := by
  obtain ⟨pc, regs, rsp, flags, mem⟩ := s
  obtain rfl : pc = 12 := hs
  refine .next rfl (.next rfl (.next rfl (.here ⟨?_, rfl, rfl, rfl⟩)))
  exact if_congr (Cond.ge.cmp _ _) rfl rfl

/-- A multiple that is the number ends the search. -/
theorem fun07_equal (hs : s.pc = 17) (hflags : s.flags = flagsOfSub (esi s) (ecx s)) :
    Eventually (step ext fun07) (fun t => t.pc = (if ecx s = esi s then 26 else 19)
      ∧ t.rsp = s.rsp ∧ t.regs = s.regs) s := by
  have hjump : Cond.e.holds s.flags = true ↔ ecx s = esi s := by
    rw [hflags]
    exact Cond.e.cmp _ _
  obtain ⟨pc, regs, rsp, flags, mem⟩ := s
  obtain rfl : pc = 17 := hs
  refine .next rfl (.next rfl (.here ⟨?_, rfl, rfl⟩))
  exact if_congr hjump rfl rfl

/-- A multiple is compared with the number, and an equal one is found. -/
theorem fun07_cmp (hs : s.pc = 12) : Eventually (step ext fun07)
    (fun t => t.pc = (if (esi s).toInt ≤ (ecx s).toInt then if ecx s = esi s then 26 else 19
        else 15) ∧ t.rsp = s.rsp ∧ t.regs = s.regs) s := by
  refine (fun07_less hs).bind ?_
  rintro t ⟨hpc, hrsp, hregs, hflags⟩
  have hesi : esi t = esi s := by rw [esi, hregs, esi]
  have hecx : ecx t = ecx s := by rw [ecx, hregs, ecx]
  by_cases hle : (esi s).toInt ≤ (ecx s).toInt
  · rw [if_pos hle] at hpc
    rw [if_pos hle]
    refine (fun07_equal hpc (by rw [hflags, hesi, hecx])).mono ?_
    rintro u ⟨hpc, hrsp₂, hregs₂⟩
    rw [hesi, hecx] at hpc
    exact ⟨hpc, hrsp₂.trans hrsp, hregs₂.trans hregs⟩
  · rw [if_neg hle] at hpc
    rw [if_neg hle]
    exact .here ⟨hpc, hrsp, hregs⟩

/-- The next multiple. -/
theorem fun07_add (hs : s.pc = 15) : Eventually (step ext fun07)
    (fun t => t.pc = 12 ∧ t.rsp = s.rsp ∧ eax t = eax s ∧ esi t = esi s ∧ edx t = edx s
      ∧ ecx t = ecx s + edx s) s := by
  obtain ⟨pc, regs, rsp, flags, mem⟩ := s
  obtain rfl : pc = 15 := hs
  refine .next rfl (.next rfl (.here ?_))
  simp [eax, esi, edx, ecx]
  rfl

/-- The next divisor. -/
theorem fun07_incl (hs : s.pc = 19) : Eventually (step ext fun07)
    (fun t => t.pc = 7 ∧ t.rsp = s.rsp ∧ eax t = eax s ∧ esi t = esi s ∧ edx t = edx s + 1) s := by
  obtain ⟨pc, regs, rsp, flags, mem⟩ := s
  obtain rfl : pc = 19 := hs
  refine .next rfl (.next rfl (.here ?_))
  simp [eax, esi, edx]
  rfl

/-- No divisor is found. -/
theorem fun07_none (hs : s.pc = 21) : Eventually (step ext fun07)
    (fun t => AtRet fun07 t ∧ t.rsp = s.rsp + 8 ∧ (eax t = 0 ↔ 1 < (eax s).toInt)) s := by
  obtain ⟨pc, regs, rsp, flags, mem⟩ := s
  obtain rfl : pc = 21 := hs
  have hle : Cond.le.holds { flagsOfSub 1#32 ((regs .rax).setWidth 32) with cf := flags.cf } = false
      ↔ 1 < ((regs .rax).setWidth 32).toInt := by
    rw [← Bool.not_eq_true]
    exact (not_congr (Cond.le.cmp _ _)).trans not_le
  refine .next rfl (.next rfl (.next rfl (.next rfl (.next rfl (.next rfl (.next rfl
    (.here ⟨rfl, rfl, ?_⟩)))))))
  refine Iff.trans ?_ hle
  simp [eax]
  exact set_zero _

/-- The number is composite. -/
theorem fun07_found (hs : s.pc = 26) : Eventually (step ext fun07)
    (fun t => AtRet fun07 t ∧ t.rsp = s.rsp + 8 ∧ eax t ≠ 0) s := by
  obtain ⟨pc, regs, rsp, flags, mem⟩ := s
  obtain rfl : pc = 26 := hs
  refine .next rfl (.next rfl (.next rfl (.next rfl (.here ⟨rfl, rfl, ?_⟩))))
  simp [eax]

/-- The registers while `d` is tried as a divisor of `n`. -/
structure Trial (n d : Nat) (rsp : Word) (t : State) : Prop where
  rsp : t.rsp = rsp
  eax : eax t = BitVec.ofNat 32 n
  esi : esi t = BitVec.ofNat 32 n
  edx : edx t = BitVec.ofNat 32 d

section Search

variable {n d m c : Nat} {rsp : Word} {t : State}

/-- Flags and memory do not matter for the search. -/
theorem Trial.regs (h : Trial n d rsp s) (hrsp : t.rsp = s.rsp) (hregs : t.regs = s.regs) :
    Trial n d rsp t where
  rsp := hrsp.trans h.rsp
  eax := by
    rw [X86Code.eax, hregs]
    exact h.eax
  esi := by
    rw [AsmNumbers.esi, hregs]
    exact h.esi
  edx := by
    rw [AsmNumbers.edx, hregs]
    exact h.edx

/-- Neither the square of `d` nor the first multiple that is not below `n` is too
    large for an `int`. -/
def Fits (n d : Nat) : Prop := d * d < 2 ^ 31 ∧ ∃ m, d ∣ m ∧ n ≤ m ∧ m < 2 ^ 31

/-- A multiple that `%ecx` goes through, below the multiple `m`. -/
structure Multiple (n d m c : Nat) : Prop where
  dvd : d ∣ c
  low : d * d ≤ c
  high : c = d * d ∨ c ≤ m ∧ c < n + d

/-- The next multiple is one. -/
theorem Multiple.next (h : Multiple n d m c) (hm : d ∣ m) (hle : n ≤ m) (hlt : c < n) :
    Multiple n d m (c + d) := by
  have hstep : d ≤ m - c := Nat.le_of_dvd (by omega) (Nat.dvd_sub hm h.dvd)
  exact ⟨Nat.dvd_add h.dvd (Nat.dvd_refl d), Nat.le_add_right_of_le h.low, .inr ⟨by omega, by omega⟩⟩

/-- The first multiple that is not below the number is the number, or none is. -/
theorem Multiple.found (h : Multiple n d m c) (hle : n ≤ c) : c = n ↔ d * d ≤ n ∧ d ∣ n := by
  constructor
  · rintro rfl
    exact ⟨h.low, h.dvd⟩
  · rintro ⟨hlow, hdvd⟩
    rcases h.high with hsq | ⟨-, hlt⟩
    · exact Nat.le_antisymm (hsq ▸ hlow) hle
    · -- there is no multiple between `n` and `n + d`
      have hzero : c - n = 0 := Nat.eq_zero_of_dvd_of_lt (Nat.dvd_sub h.dvd hdvd) (by omega)
      omega

/-- No multiple that is reached leaves the range of `int`. -/
theorem Multiple.int (h : Multiple n d m c) (hsq : d * d < 2 ^ 31) (hm : m < 2 ^ 31) :
    c < 2 ^ 31 := by
  rcases h.high with heq | ⟨hle, -⟩
  · exact heq ▸ hsq
  · exact Nat.lt_of_le_of_lt hle hm

/-- **THE INNER LOOP** finds `n` among the multiples of `d` from its square on. -/
theorem fun07_multiples (hn : n < 2 ^ 31) (hd : 0 < d) (hfits : Fits n d) (hs : s.pc = 12)
    (ht : Trial n d rsp s) (hecx : ecx s = BitVec.ofNat 32 (d * d)) :
    Eventually (step ext fun07)
      (fun t => t.pc = (if d * d ≤ n ∧ d ∣ n then 26 else 19) ∧ Trial n d rsp t) s := by
  obtain ⟨hsq, m, hm, hle, hint⟩ := hfits
  refine Eventually.loop (I := fun t => t.pc = 12 ∧ Trial n d rsp t
    ∧ ∃ c, ecx t = BitVec.ofNat 32 c ∧ Multiple n d m c) (fun t => n - (ecx t).toNat) ?_
    ⟨hs, ht, d * d, hecx, ⟨Nat.dvd_mul_right d d, Nat.le_refl _, .inl rfl⟩⟩
  rintro t ⟨hpc, ht, c, hecx, hc⟩
  have hclt := hc.int hsq hint
  refine (fun07_cmp hpc).bind ?_
  rintro u ⟨hpc, hrsp, hregs⟩
  have hu := ht.regs hrsp hregs
  rw [ht.esi, hecx, toInt_small hn, toInt_small hclt] at hpc
  by_cases hnc : n ≤ c
  · have hsame : BitVec.ofNat 32 c = BitVec.ofNat 32 n ↔ d * d ≤ n ∧ d ∣ n := by
      rw [← hc.found hnc, ← BitVec.toInt_inj, toInt_small hn, toInt_small hclt, Int.natCast_inj]
    rw [if_pos (Int.ofNat_le.mpr hnc)] at hpc
    exact .here (.inl ⟨hpc.trans (if_congr hsame rfl rfl), hu⟩)
  · -- the next multiple
    rw [if_neg fun h => hnc (Int.ofNat_le.mp h)] at hpc
    have hnext := hc.next hm hle (Nat.not_le.mp hnc)
    have hnlt := hnext.int hsq hint
    refine (fun07_add hpc).mono ?_
    rintro v ⟨hpc, hrsp₂, heax, hesi, hedx, hecx₂⟩
    have hecxu : ecx u = ecx t := by rw [ecx, hregs, ecx]
    rw [hecxu, hecx, hu.edx, ← BitVec.ofNat_add] at hecx₂
    refine .inr ⟨⟨hpc, ⟨hrsp₂.trans hu.rsp, heax.trans hu.eax, hesi.trans hu.esi, hedx.trans hu.edx⟩,
      c + d, hecx₂, hnext⟩, ?_⟩
    rw [hecx₂, hecx, BitVec.toNat_ofNat, BitVec.toNat_ofNat, Nat.mod_eq_of_lt (by omega),
      Nat.mod_eq_of_lt (by omega)]
    omega

/-- One divisor is tried. -/
theorem fun07_try (hn : n < 2 ^ 31) (hd : 0 < d) (hlt : d < n) (hfits : Fits n d) (hs : s.pc = 7)
    (ht : Trial n d rsp s) : Eventually (step ext fun07)
      (fun t => t.pc = (if d * d ≤ n ∧ d ∣ n then 26 else 19) ∧ Trial n d rsp t) s := by
  refine (fun07_test hs).bind ?_
  rintro t ⟨hpc, hrsp, hregs⟩
  have ht₂ := ht.regs hrsp hregs
  have hless : ¬ (n : Int) ≤ d := by omega
  rw [ht.esi, ht.edx, toInt_small hn, toInt_small (by omega), if_neg hless] at hpc
  refine (fun07_square hpc).bind ?_
  rintro u ⟨hpc, hrsp₂, heax, hesi, hedx, hecx⟩
  rw [ht₂.edx, ← BitVec.ofNat_mul] at hecx
  exact fun07_multiples hn hd hfits hpc ⟨hrsp₂.trans ht₂.rsp, heax.trans ht₂.eax,
    hesi.trans ht₂.esi, hedx.trans ht₂.edx⟩ hecx

/-- **THE OUTER LOOP** goes over the numbers that are not found. -/
theorem fun07_skips (hn : n < 2 ^ 31) (hd : 2 ≤ d)
    (hskip : ∀ e, 2 ≤ e → e < d → e < n ∧ Fits n e ∧ ¬ (e * e ≤ n ∧ e ∣ n)) (hs : s.pc = 7)
    (ht : Trial n 2 rsp s) :
    Eventually (step ext fun07) (fun t => t.pc = 7 ∧ Trial n d rsp t) s := by
  induction d, hd using Nat.le_induction with
  | base => exact .here ⟨hs, ht⟩
  | succ d hd ih =>
      refine (ih fun e he hlt => hskip e he (Nat.lt_succ_of_lt hlt)).bind ?_
      rintro t ⟨hpc, ht⟩
      obtain ⟨hlt, hfits, hnone⟩ := hskip d hd (Nat.lt_succ_self d)
      refine (fun07_try hn (by omega) hlt hfits hpc ht).bind ?_
      rintro u ⟨hpc, hu⟩
      rw [if_neg hnone] at hpc
      refine (fun07_incl hpc).mono ?_
      rintro v ⟨hpc, hrsp, heax, hesi, hedx⟩
      rw [hu.edx] at hedx
      refine ⟨hpc, hrsp.trans hu.rsp, heax.trans hu.eax, hesi.trans hu.esi, hedx.trans ?_⟩
      rw [BitVec.ofNat_add]
      rfl

/-- The search ends at the least factor. -/
theorem fun07_search (hn : n < 2 ^ 31) (htwo : 2 ≤ n) (hs : s.pc = 7)
    (hfits : ∀ e, 2 ≤ e → e < n → e ≤ n.minFac → Fits n e) (ht : Trial n 2 rsp s) :
    Eventually (step ext fun07)
      (fun t => AtRet fun07 t ∧ t.rsp = rsp + 8 ∧ (eax t = 0 ↔ n.Prime)) s := by
  have hmin : 2 ≤ n.minFac := (Nat.minFac_prime (by omega)).two_le
  have hle : n.minFac ≤ n := Nat.minFac_le (by omega)
  refine (fun07_skips hn hmin ?_ hs ht).bind ?_
  · intro e he hlt
    refine ⟨by omega, hfits e he (by omega) (Nat.le_of_lt hlt), ?_⟩
    rintro ⟨-, hdvd⟩
    exact absurd (Nat.minFac_le_of_dvd he hdvd) (Nat.not_le.mpr hlt)
  rintro t ⟨hpc, ht⟩
  by_cases hprime : n.Prime
  · -- all numbers below `n` were tried
    rw [hprime.minFac_eq] at ht
    refine (fun07_test hpc).bind ?_
    rintro u ⟨hpc, hrsp, hregs⟩
    rw [ht.esi, ht.edx, if_pos (le_refl _)] at hpc
    have hu := ht.regs hrsp hregs
    refine (fun07_none hpc).mono ?_
    rintro v ⟨hret, hrsp, hiff⟩
    rw [hu.eax, toInt_small hn] at hiff
    rw [hu.rsp] at hrsp
    exact ⟨hret, hrsp, hiff.trans (iff_of_true (by omega) hprime)⟩
  · have hlt : n.minFac < n := (Nat.not_prime_iff_minFac_lt htwo).mp hprime
    have hsq : n.minFac * n.minFac ≤ n := by
      rw [← sq]
      exact Nat.minFac_sq_le_self (by omega) hprime
    refine (fun07_try hn (by omega) hlt (hfits _ hmin hlt (Nat.le_refl _)) hpc ht).bind ?_
    rintro u ⟨hpc, hu⟩
    rw [if_pos ⟨hsq, Nat.minFac_dvd n⟩] at hpc
    refine (fun07_found hpc).mono ?_
    rintro v ⟨hret, hrsp, hne⟩
    rw [hu.rsp] at hrsp
    exact ⟨hret, hrsp, iff_of_false hne hprime⟩

/-- The number is parsed, and the search starts with 2. -/
theorem fun07_begins (hext : IsStrtol parse (ext "strtol")) (hs : s.pc = 0)
    (hstr : CString s.mem (s.regs .rdi) L) (hclear : Clear s.rsp (s.regs .rdi) L) :
    Eventually (step ext fun07) (fun t => t.pc = 7 ∧ t.rsp + 8 = s.rsp
      ∧ eax t = number parse L ∧ esi t = number parse L ∧ edx t = 2#32) s := by
  refine (strtolFirst_calls (fun07.drop 5) hext hs hstr hclear).bind ?_
  rintro t ⟨hpc, hrax, hrsp⟩
  have heax : eax t = number parse L := by rw [eax, hrax, number]
  refine (fun07_start hpc).mono ?_
  rintro u ⟨hpc, hrsp₂, heax₂, hesi, hedx⟩
  exact ⟨hpc, hrsp₂ ▸ hrsp, heax₂.trans heax, hesi.trans heax, hedx⟩

/-- No number gets too large up to 46341, and for a composite number that leaves
    room for its least factor. -/
theorem fits_small (hn : n ≤ 46341 ∨ ¬ n.Prime ∧ n + n.minFac ≤ 2 ^ 31) (hd : 2 ≤ d) (hlt : d < n)
    (hle : d ≤ n.minFac) : Fits n d := by
  have hbounds : d * d < 2 ^ 31 ∧ n + d ≤ 2 ^ 31 := by
    rcases hn with hn | ⟨hprime, hroom⟩
    · have hsq : d * d ≤ 46340 * 46340 := Nat.mul_le_mul (by omega) (by omega)
      omega
    · have hsq : n.minFac ^ 2 ≤ n := Nat.minFac_sq_le_self (by omega) hprime
      have hmul : d * d ≤ n.minFac * n.minFac := Nat.mul_le_mul hle hle
      rw [sq] at hsq
      omega
  have hmod : n % d < d := Nat.mod_lt _ (by omega)
  have hsplit := Nat.div_add_mod n d
  refine ⟨hbounds.1, d * ((n + d - 1) / d), Nat.dvd_mul_right _ _, ?_, ?_⟩
  · have hceil := Nat.lt_div_mul_add (a := n + d - 1) (b := d) (by omega)
    rw [Nat.mul_comm]
    omega
  · have hceil := Nat.mul_div_le (n + d - 1) d
    omega

/-- **`fun07`** accepts the primes, as long as no number is too large for an
    `int`. -/
theorem fun07_returns {N : Int} (hext : IsStrtol parse (ext "strtol")) (hs : s.pc = 0)
    (hstr : CString s.mem (s.regs .rdi) L) (hclear : Clear s.rsp (s.regs .rdi) L)
    (hN : (number parse L).toInt = N)
    (hfits : N.toNat ≤ 46341 ∨ ¬ N.toNat.Prime ∧ N.toNat + N.toNat.minFac ≤ 2 ^ 31) :
    Eventually (step ext fun07) (fun t => AtRet fun07 t ∧ Saved s t
      ∧ (eax t = 0 ↔ N.toNat.Prime)) s := by
  have hmain : Eventually (step ext fun07) (fun t => (AtRet fun07 t
      ∧ (eax t = 0 ↔ N.toNat.Prime)) ∧ t.rsp = s.rsp) s := by
    refine (fun07_begins hext hs hstr hclear).bind ?_
    rintro t ⟨hpc, hrsp, heax, hesi, hedx⟩
    by_cases htwo : 2 ≤ N
    · -- the search
      obtain ⟨n, rfl⟩ := Int.eq_ofNat_of_zero_le (Int.le_trans (by decide) htwo)
      -- the number as an `int`
      have hn : n < 2 ^ 31 := by
        have hlt := BitVec.toInt_lt (x := number parse L)
        rw [hN] at hlt
        omega
      have hnum : number parse L = BitVec.ofNat 32 n := by
        rw [← BitVec.toInt_inj, hN, toInt_small hn]
      rw [hnum] at heax hesi
      refine (fun07_search hn (by omega) hpc (fun e he hlt hle => fits_small hfits he hlt hle)
        ⟨rfl, heax, hesi, hedx⟩).mono ?_
      rintro u ⟨hret, hrsp₂, hiff⟩
      exact ⟨⟨hret, hiff⟩, hrsp₂.trans hrsp⟩
    · -- too small to be a prime
      refine (fun07_test hpc).bind ?_
      rintro u ⟨hpc, hrsp₂, hregs⟩
      have hle : N ≤ (2#32).toInt := by
        have heval : (2#32).toInt = 2 := by decide
        omega
      rw [hesi, hedx, hN, if_pos hle] at hpc
      refine (fun07_none hpc).mono ?_
      rintro v ⟨hret, hrsp₃, hiff⟩
      have heax₂ : eax u = number parse L := by rw [eax, hregs, ← heax, eax]
      rw [heax₂, hN] at hiff
      refine ⟨⟨hret, hiff.trans (iff_of_false (by omega) ?_)⟩, ?_⟩
      · intro hprime
        have hge := hprime.two_le
        omega
      · rw [hrsp₃, hrsp₂, hrsp]
  -- the code around the call keeps the registers
  refine (returned hext (by decide) ?_ hmain).mono ?_
  · intro f hf
    simpa [fun07] using hf
  · rintro t ⟨⟨hret, hiff⟩, hsaved⟩
    exact ⟨hret, hsaved, hiff⟩

/-- The multiples of a power of two wrap around below `n`. -/
theorem below_wrap {k : Nat} {v : BitVec 32} (hk : k ≤ 31) (hv : 2 ^ k ∣ v.toNat)
    (hn : 2 ^ 31 < n + 2 ^ k) : v.toInt < n := by
  have hmsb := BitVec.toInt_eq_toNat_cond v
  have hlt := v.isLt
  by_cases hhigh : 2 * v.toNat < 2 ^ 32
  · rw [if_pos hhigh] at hmsb
    have hdvd : 2 ^ k ∣ 2 ^ 31 - v.toNat := Nat.dvd_sub (Nat.pow_dvd_pow 2 hk) hv
    have hroom := Nat.le_of_dvd (by omega) hdvd
    omega
  · rw [if_neg hhigh] at hmsb
    omega

/-- The inner loop, when no multiple of `2 ^ k` is as large as `n`. -/
structure Wraps (n k : Nat) (t : State) : Prop where
  pc : t.pc = 12
  trial : ∃ rsp, Trial n (2 ^ k) rsp t
  multiple : 2 ^ k ∣ (ecx t).toNat

/-- It goes on and on. -/
theorem Wraps.turn {k : Nat} (h : Wraps n k t) (hint : n < 2 ^ 31) (hk : k ≤ 31)
    (hn : 2 ^ 31 < n + 2 ^ k) :
    ∃ t', step ext fun07 t = some t' ∧ Eventually (step ext fun07) (Wraps n k) t' := by
  obtain ⟨rsp, ht⟩ := h.trial
  have hmod : 2 ^ k ∣ 2 ^ 32 := Nat.pow_dvd_pow 2 (by omega)
  have hless : ¬ (n : Int) ≤ (ecx t).toInt := Int.not_le.mpr (below_wrap hk h.multiple hn)
  have hcmp : Eventually (step ext fun07) _ t := fun07_cmp h.pc
  obtain ⟨t', hstep, hnext⟩ := hcmp.moves (by
    rintro ⟨hpc, -⟩
    rw [ht.esi, toInt_small hint, if_neg hless, h.pc] at hpc
    exact absurd hpc (by decide))
  refine ⟨t', hstep, hnext.bind ?_⟩
  rintro u ⟨hpc, hrsp, hregs⟩
  have hu := ht.regs hrsp hregs
  rw [ht.esi, toInt_small hint, if_neg hless] at hpc
  refine (fun07_add hpc).mono ?_
  rintro v ⟨hpc, hrsp₂, heax, hesi, hedx, hecx⟩
  have hecxu : ecx u = ecx t := by rw [ecx, hregs, ecx]
  refine ⟨hpc, ⟨rsp, hrsp₂.trans hu.rsp, heax.trans hu.eax, hesi.trans hu.esi,
    hedx.trans hu.edx⟩, ?_⟩
  rw [hecx, hecxu, hu.edx, BitVec.toNat_add, BitVec.toNat_ofNat, Nat.dvd_mod_iff hmod]
  exact Nat.dvd_add h.multiple ((Nat.dvd_mod_iff hmod).mpr (Nat.dvd_refl _))

/-- **`fun07` DOES NOT ALWAYS RETURN**: it does not if the search comes to a power of
    two and no multiple of that is both an `int` and as large as the number. -/
theorem fun07_forever {k : Nat} (hext : IsStrtol parse (ext "strtol")) (hs : s.pc = 0)
    (hstr : CString s.mem (s.regs .rdi) L) (hclear : Clear s.rsp (s.regs .rdi) L)
    (hN : (number parse L).toInt = n) (hk : 1 ≤ k) (hn : 2 ^ 31 < n + 2 ^ k)
    (hskip : ∀ e, 2 ≤ e → e < 2 ^ k → Fits n e ∧ ¬ e ∣ n) :
    ¬ Eventually (step ext fun07) (AtRet fun07) s := by
  have hint : n < 2 ^ 31 := by
    have hlt := BitVec.toInt_lt (x := number parse L)
    rw [hN] at hlt
    omega
  have hsmall : k ≤ 15 := by
    by_contra hlarge
    have hpow : 2 ^ 16 ≤ 2 ^ k := Nat.pow_le_pow_right (n := 2) (by decide) (by omega)
    have hsq := (hskip 46341 (by decide) (by omega)).1.1
    omega
  have hpow : 2 ^ k ≤ 2 ^ 15 := Nat.pow_le_pow_right (n := 2) (by decide) hsmall
  have htwo : 2 ^ 1 ≤ 2 ^ k := Nat.pow_le_pow_right (n := 2) (by decide) hk
  have hnum : number parse L = BitVec.ofNat 32 n := by
    rw [← BitVec.toInt_inj, hN, toInt_small hint]
  refine Eventually.forever (I := Wraps n k) (fun t ht => ht.turn hint (by omega) hn)
    (fun t ht => step_ret ht) ?_
  -- the search comes to `2 ^ k`
  refine (fun07_begins hext hs hstr hclear).bind ?_
  rintro t ⟨hpc, -, heax, hesi, hedx⟩
  rw [hnum] at heax hesi
  refine (fun07_skips hint htwo ?_ hpc ⟨rfl, heax, hesi, hedx⟩).bind ?_
  · intro e he hlt
    obtain ⟨hfits, hnone⟩ := hskip e he hlt
    exact ⟨by omega, hfits, fun h => hnone h.2⟩
  rintro u ⟨hpc, hu⟩
  refine (fun07_test hpc).bind ?_
  rintro v ⟨hpc, hrsp, hregs⟩
  have hv := hu.regs hrsp hregs
  rw [hu.esi, hu.edx, toInt_small hint, toInt_small (by omega), if_neg (by omega)] at hpc
  refine (fun07_square hpc).mono ?_
  rintro w ⟨hpc, hrsp₂, heax, hesi, hedx, hecx⟩
  refine ⟨hpc, ⟨t.rsp, hrsp₂.trans hv.rsp, heax.trans hv.eax, hesi.trans hv.esi,
    hedx.trans hv.edx⟩, ?_⟩
  rw [hecx, hv.edx, ← BitVec.ofNat_mul, BitVec.toNat_ofNat,
    Nat.dvd_mod_iff (Nat.pow_dvd_pow 2 (by omega))]
  exact Nat.dvd_mul_right _ _

end Search

/-! ## Small numbers -/

/-- A number in decimal digits. -/
def smallParse (L : List (BitVec 8)) : Word :=
  BitVec.ofNat 64 (L.foldl (fun v c => 10 * v + (c.toNat - 48)) 0)

/-- A `strtol` for the small examples: it reads decimal digits, and leaves the other
    registers alone. -/
noncomputable def smallStrtol (s : State) : State :=
  { s with regs := Function.update s.regs .rax (smallParse (chars s.mem (s.regs .rdi))) }

/-- The small `strtol` is one. -/
theorem smallStrtol_isStrtol : IsStrtol smallParse smallStrtol where
  value := by
    intro s L h _ _
    show smallParse (chars s.mem (s.regs .rdi)) = smallParse L
    rw [h.chars_eq]
  saved := by
    intro s
    refine ⟨rfl, fun r hr => ?_⟩
    have hne : r ≠ .rax := by
      rintro rfl
      exact absurd hr (by decide)
    exact Function.update_of_ne hne _ s.regs

/-- The text "256". -/
def small256 : List (BitVec 8) := [0x32, 0x35, 0x36]

theorem fun10_returns_small : Eventually (step (fun _ => smallStrtol) fun10)
    (fun t => AtRet fun10 t ∧ Saved (smallCall small256) t
      ∧ (eax t = 0 ↔ ∃ k, 8 ≤ k ∧ (number smallParse small256).toNat = 2 ^ k))
    (smallCall small256) :=
  fun10_returns smallStrtol_isStrtol rfl (smallCall_string small256 (by decide) (by decide))
    (smallCall_clear small256 (by decide))

/-- The text "97". -/
def small97 : List (BitVec 8) := [0x39, 0x37]

theorem fun07_returns_small : Eventually (step (fun _ => smallStrtol) fun07)
    (fun t => AtRet fun07 t ∧ Saved (smallCall small97) t ∧ (eax t = 0 ↔ Nat.Prime 97))
    (smallCall small97) :=
  fun07_returns (N := 97) smallStrtol_isStrtol rfl
    (smallCall_string small97 (by decide) (by decide)) (smallCall_clear small97 (by decide))
    (by decide) (.inl (by decide))

/-- 2147483645, which is a multiple of 5. -/
def smallLarge : List (BitVec 8) := [0x32, 0x31, 0x34, 0x37, 0x34, 0x38, 0x33, 0x36, 0x34, 0x35]

theorem fun07_forever_small : ¬ Eventually (step (fun _ => smallStrtol) fun07) (AtRet fun07)
    (smallCall smallLarge) := by
  refine fun07_forever (n := 2147483645) (k := 2) smallStrtol_isStrtol rfl
    (smallCall_string smallLarge (by decide) (by decide)) (smallCall_clear smallLarge (by decide))
    (by decide) (by decide) (by decide) ?_
  intro e he hlt
  obtain rfl | rfl : e = 2 ∨ e = 3 := by omega
  · exact ⟨⟨by decide, 2147483646, by decide, by decide, by decide⟩, by decide⟩
  · exact ⟨⟨by decide, 2147483646, by decide, by decide, by decide⟩, by decide⟩

end AsmNumbers
