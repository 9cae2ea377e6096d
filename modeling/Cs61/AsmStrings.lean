import Cs61.X86Code
import Mathlib.Data.List.TakeWhile
import Mathlib.Tactic.LinearCombination

/-! # The assembly puzzles on strings

    `fun15`, `fun11` and `fun12` of `asmfun`, each with the strings on which it
    returns 0. -/

namespace AsmStrings

open X86Stack (Word Mem Reg read64 write64 read64_write64_same)
open X86Code

variable {ext : Ext} {s : State} {c : BitVec 8} {L : List (BitVec 8)}

/-! ## `fun15` -/

/-- `fun15.s` -/
def fun15 : List Instr :=
  [.endbr64,
   .label 2,
   .mov .b (.mem ⟨0, .rdi, none⟩) .rax,
   .test .b .rax .rax,
   .jcc .e 7,
   .cmp .b (.mem ⟨1, .rdi, none⟩) (.reg .rax),
   .jcc .b 5,
   .unary .inc .q .rdi,
   .jmp 2,
   .label 7,
   .alu .xor .l (.reg .rax) .rax,
   .ret,
   .label 5,
   .alu .or .l (.imm (-1)) .rax,
   .ret]

/-- The end of the string is tested. -/
theorem fun15_test (hs : s.pc = 1) : Eventually (step ext fun15)
    (fun t => t.pc = (if s.mem (s.regs .rdi) = 0 then 9 else 5) ∧ t.mem = s.mem
      ∧ t.regs .rdi = s.regs .rdi ∧ (t.regs .rax).setWidth 8 = s.mem (s.regs .rdi)) s := by
  obtain ⟨pc, regs, rsp, flags, mem⟩ := s
  obtain rfl : pc = 1 := hs
  refine .next rfl (.next rfl (.next rfl (.next rfl (.here ?_))))
  simp
  exact if_congr (holds_zero (mem (regs .rdi))) rfl rfl

/-- A character is compared with the next one. -/
theorem fun15_cmp (hs : s.pc = 5) : Eventually (step ext fun15)
    (fun t => t.pc = (if ((s.regs .rax).setWidth 8).toNat < (s.mem (s.regs .rdi + 1)).toNat
        then 12 else 7) ∧ t.mem = s.mem ∧ t.regs .rdi = s.regs .rdi) s := by
  obtain ⟨pc, regs, rsp, flags, mem⟩ := s
  obtain rfl : pc = 5 := hs
  refine .next rfl (.next rfl (.here ⟨?_, rfl, rfl⟩))
  exact if_congr (Cond.b.cmp (mem (regs .rdi + 1)) ((regs .rax).setWidth 8)) rfl rfl

/-- The next character. -/
theorem fun15_next (hs : s.pc = 7) : Eventually (step ext fun15)
    (fun t => t.pc = 1 ∧ t.mem = s.mem ∧ t.regs .rdi = s.regs .rdi + 1) s := by
  obtain ⟨pc, regs, rsp, flags, mem⟩ := s
  obtain rfl : pc = 7 := hs
  exact .next rfl (.next rfl (.here ⟨rfl, rfl, BitVec.setWidth_eq _ ▸ rfl⟩))

/-- The characters did not grow. -/
theorem fun15_zero (hs : s.pc = 9) : Eventually (step ext fun15)
    (fun t => AtRet fun15 t ∧ eax t = 0) s := by
  obtain ⟨pc, regs, rsp, flags, mem⟩ := s
  obtain rfl : pc = 9 := hs
  refine .next rfl (.next rfl (.here ⟨rfl, ?_⟩))
  show (merge (regs .rax) .l ((regs .rax).setWidth 32 ^^^ (regs .rax).setWidth 32)).setWidth 32 = 0
  rw [merge_l, BitVec.xor_self]
  rfl

/-- One was larger than the one before. -/
theorem fun15_fail (hs : s.pc = 12) : Eventually (step ext fun15)
    (fun t => AtRet fun15 t ∧ eax t ≠ 0) s := by
  obtain ⟨pc, regs, rsp, flags, mem⟩ := s
  obtain rfl : pc = 12 := hs
  refine .next rfl (.next rfl (.here ⟨rfl, ?_⟩))
  show (merge (regs .rax) .l ((regs .rax).setWidth 32 ||| BitVec.ofInt 32 (-1))).setWidth 32 ≠ 0
  rw [merge_l]
  have hones : BitVec.ofInt 32 (-1) = BitVec.allOnes 32 := by decide
  rw [hones, BitVec.or_allOnes]
  decide

/-- The loop of `fun15`, by induction on the string. -/
theorem fun15_loop (hs : s.pc = 1) (hstr : CString s.mem (s.regs .rdi) L) :
    Eventually (step ext fun15) (fun t => AtRet fun15 t
      ∧ (eax t = 0 ↔ L.IsChain fun c d => d.toNat ≤ c.toNat)) s := by
  induction L generalizing s with
  | nil =>
      refine (fun15_test hs).bind ?_
      rintro t ⟨hpc, -⟩
      rw [hstr.head, List.headD_nil, if_pos rfl] at hpc
      refine (fun15_zero hpc).mono ?_
      rintro u ⟨hret, hzero⟩
      exact ⟨hret, iff_of_true hzero .nil⟩
  | cons c L ih =>
      -- the byte and the one behind it are compared
      have hc : c ≠ 0 := hstr.nonzero c List.mem_cons_self
      refine (fun15_test hs).bind ?_
      rintro t ⟨hpc, hmem, hrdi, hal⟩
      rw [hstr.head, List.headD_cons, if_neg hc] at hpc
      rw [hstr.head, List.headD_cons] at hal
      refine (fun15_cmp hpc).bind ?_
      rintro u ⟨hpc, hmem', hrdi'⟩
      rw [hmem, hrdi, hal, hstr.tail.head] at hpc
      by_cases hlt : c.toNat < (L.headD 0).toNat
      · -- the next character is greater
        rw [if_pos hlt] at hpc
        refine (fun15_fail hpc).mono ?_
        rintro v ⟨hret, hne⟩
        refine ⟨hret, iff_of_false hne ?_⟩
        intro hchain
        cases L with
        | nil => exact absurd hlt (Nat.not_lt_zero _)
        | cons d L =>
            have hle := (List.isChain_cons_cons.mp hchain).1
            exact absurd hlt (Nat.not_lt.mpr hle)
      · -- the loop goes on behind the byte
        rw [if_neg hlt] at hpc
        refine (fun15_next hpc).bind ?_
        rintro v ⟨hpc, hmem'', hrdi''⟩
        have hstr' : CString v.mem (v.regs .rdi) L := by
          rw [hmem'', hmem', hmem, hrdi'', hrdi', hrdi]
          exact hstr.tail
        refine (ih hpc hstr').mono ?_
        rintro w ⟨hret, hiff⟩
        refine ⟨hret, hiff.trans ?_⟩
        cases L with
        | nil => exact iff_of_true .nil (.singleton c)
        | cons d L =>
            rw [List.isChain_cons_cons]
            exact (and_iff_right (Nat.not_lt.mp hlt)).symm

/-- **`fun15`** accepts the strings whose characters, as unsigned numbers, never
    grow. -/
theorem fun15_returns (hs : s.pc = 0) (hstr : CString s.mem (s.regs .rdi) L) :
    Eventually (step ext fun15) (fun t => AtRet fun15 t ∧ Saved s t ∧ t.mem = s.mem
      ∧ (eax t = 0 ↔ L.IsChain fun c d => d.toNat ≤ c.toNat)) s := by
  have hstart : Eventually (step ext fun15) (fun t => AtRet fun15 t
      ∧ (eax t = 0 ↔ L.IsChain fun c d => d.toNat ≤ c.toNat)) s := by
    obtain ⟨pc, regs, rsp, flags, mem⟩ := s
    obtain rfl : pc = 0 := hs
    exact .next rfl (fun15_loop rfl hstr)
  refine ((hstart.keeps (R := calleeSaved) (by decide) ?_).stack (by decide)).mono ?_
  · intro f hf
    simp [fun15] at hf
  · rintro t ⟨⟨⟨hret, hiff⟩, hregs⟩, hrsp, hmem⟩
    exact ⟨hret, ⟨hrsp, hregs⟩, hmem, hiff⟩

/-- The text "cbb", whose characters do not grow. -/
def smallFalling : List (BitVec 8) := [0x63, 0x62, 0x62]

theorem fun15_returns_small : Eventually (step (fun _ s => s) fun15)
    (fun t => AtRet fun15 t ∧ Saved (smallCall smallFalling) t ∧ t.mem = (smallCall smallFalling).mem
      ∧ (eax t = 0 ↔ smallFalling.IsChain fun c d => d.toNat ≤ c.toNat)) (smallCall smallFalling) :=
  fun15_returns rfl (smallCall_string smallFalling (by decide) (by decide))

/-! ## `fun11` -/

/-- `fun11.s` -/
def fun11 : List Instr :=
  [.endbr64,
   .alu .xor .l (.reg .rax) .rax,
   .label 2,
   .mov .b (.mem ⟨0, .rdi, some .rax⟩) .rdx,
   .mov .l (.reg .rax) .rcx,
   .unary .inc .q .rax,
   .lea .l ⟨-65, .rdx, none⟩ .rsi,
   .cmp .b (.imm 25) (.reg .rsi),
   .jcc .be 2,
   .cmp .l (.imm 5) (.reg .rcx),
   .set .le .rax,
   .test .b .rdx .rdx,
   .set .ne .rdx,
   .alu .or .l (.reg .rdx) .rax,
   .movzbl .rax .rax,
   .ret]

/-- A capital letter, as it is tested. -/
def isUpper (c : BitVec 8) : Bool := (c - 65).toNat ≤ 25

/-- `fun11` starts to count. -/
theorem fun11_start (hs : s.pc = 0) : Eventually (step ext fun11)
    (fun t => t.pc = 2 ∧ t.mem = s.mem ∧ t.regs .rdi = s.regs .rdi ∧ t.regs .rax = 0#64) s := by
  obtain ⟨pc, regs, rsp, flags, mem⟩ := s
  obtain rfl : pc = 0 := hs
  refine .next rfl (.next rfl (.here ?_))
  simp

/-- A character is read, and its number is kept. -/
theorem fun11_read (hs : s.pc = 2) : Eventually (step ext fun11)
    (fun t => t.pc = 6 ∧ t.mem = s.mem ∧ t.regs .rdi = s.regs .rdi ∧ t.regs .rax = s.regs .rax + 1
      ∧ (t.regs .rcx).setWidth 32 = (s.regs .rax).setWidth 32
      ∧ (t.regs .rdx).setWidth 8 = s.mem (s.regs .rdi + s.regs .rax)) s := by
  obtain ⟨pc, regs, rsp, flags, mem⟩ := s
  obtain rfl : pc = 2 := hs
  refine .next rfl (.next rfl (.next rfl (.next rfl (.here ?_))))
  simp

/-- It is tested. -/
theorem fun11_test (hs : s.pc = 6) : Eventually (step ext fun11)
    (fun t => t.pc = (if isUpper ((s.regs .rdx).setWidth 8) then 2 else 9) ∧ t.mem = s.mem
      ∧ t.regs .rdi = s.regs .rdi ∧ t.regs .rax = s.regs .rax ∧ t.regs .rcx = s.regs .rcx
      ∧ t.regs .rdx = s.regs .rdx) s := by
  obtain ⟨pc, regs, rsp, flags, mem⟩ := s
  obtain rfl : pc = 6 := hs
  have hsil : (merge (regs .rsi) .l ((regs .rdx + 18446744073709551551#64).setWidth 32)).setWidth 8
      = (regs .rdx).setWidth 8 - 65 := by
    rw [merge_l_low, BitVec.setWidth_add _ _ (by decide), sub_eq_add_neg]
    rfl
  refine .next rfl (.next rfl (.next rfl (.here ?_)))
  simp
  refine if_congr ?_ rfl rfl
  rw [Cond.cmp, hsil, isUpper, decide_eq_true_iff]
  rfl

/-- What is returned. -/
theorem fun11_result (hs : s.pc = 9) : Eventually (step ext fun11)
    (fun t => AtRet fun11 t ∧ (eax t = 0 ↔ 5 < ((s.regs .rcx).setWidth 32).toInt
      ∧ (s.regs .rdx).setWidth 8 = 0)) s := by
  obtain ⟨pc, regs, rsp, flags, mem⟩ := s
  obtain rfl : pc = 9 := hs
  refine .next rfl (.next rfl (.next rfl (.next rfl (.next rfl (.next rfl (.here ⟨rfl, ?_⟩))))))
  have hle : Cond.le.holds (flagsOfSub 5#32 ((regs .rcx).setWidth 32)) = false
      ↔ 5 < ((regs .rcx).setWidth 32).toInt := by
    rw [← Bool.not_eq_true, Cond.cmp]
    exact not_le
  have hresult := (either_zero (regs .rax) (regs .rdx) _ _).trans (and_congr hle
    (not_holds_ne ((regs .rdx).setWidth 8)))
  refine Iff.trans ?_ hresult
  simp [eax]
  exact Iff.rfl

/-- The loop goes over the capital letters. -/
theorem fun11_loop (hs : s.pc = 2) (hstr : CString s.mem (s.regs .rdi + s.regs .rax) L) :
    Eventually (step ext fun11) (fun t => t.pc = 9
      ∧ (t.regs .rcx).setWidth 32
        = (s.regs .rax + BitVec.ofNat 64 (L.takeWhile isUpper).length).setWidth 32
      ∧ (t.regs .rdx).setWidth 8 = (L.dropWhile isUpper).headD 0) s := by
  induction L generalizing s with
  | nil =>
      -- the end of the string is no capital letter
      refine (fun11_read hs).bind ?_
      rintro t ⟨hpc, -, -, -, hecx, hdl⟩
      rw [hstr.head] at hdl
      refine (fun11_test hpc).mono ?_
      rintro u ⟨hpc, -, -, -, hrcx, hrdx⟩
      rw [hdl] at hpc
      refine ⟨hpc, ?_, ?_⟩
      · rw [hrcx, hecx]
        exact congrArg _ (BitVec.add_zero _).symm
      · rw [hrdx]
        exact hdl
  | cons c L ih =>
      refine (fun11_read hs).bind ?_
      rintro t ⟨hpc, hmem, hrdi, hrax, hecx, hdl⟩
      rw [hstr.head] at hdl
      refine (fun11_test hpc).bind ?_
      rintro u ⟨hpc, hmem', hrdi', hrax', hrcx, hrdx⟩
      rw [hdl] at hpc
      by_cases hc : isUpper c = true
      · -- one more letter
        have hpc : u.pc = 2 := hpc.trans (if_pos hc)
        have hstr' : CString u.mem (u.regs .rdi + u.regs .rax) L := by
          rw [hmem', hmem, hrdi', hrdi, hrax', hrax, ← BitVec.add_assoc]
          exact hstr.tail
        refine (ih hpc hstr').mono ?_
        rintro v ⟨hpc, hecx', hdl'⟩
        refine ⟨hpc, ?_, ?_⟩
        · rw [hecx', hrax', hrax, List.takeWhile_cons_of_pos hc, List.length_cons,
            BitVec.add_assoc, BitVec.add_comm 1, BitVec.ofNat_add]
          rfl
        · rw [hdl', List.dropWhile_cons_of_pos hc]
      · -- the first byte that is none
        have hpc : u.pc = 9 := hpc.trans (if_neg hc)
        refine .here ⟨hpc, ?_, ?_⟩
        · rw [hrcx, hecx, List.takeWhile_cons_of_neg hc]
          exact congrArg _ (BitVec.add_zero _).symm
        · rw [hrdx, hdl, List.dropWhile_cons_of_neg hc]

/-- No letter is left if all are capital. -/
theorem rest_zero (hstr : ∀ c ∈ L, c ≠ 0) :
    (L.dropWhile isUpper).headD 0 = 0 ↔ ∀ c ∈ L, isUpper c = true := by
  induction L with
  | nil => exact iff_of_true rfl fun c hc => absurd hc List.not_mem_nil
  | cons c L ih =>
      by_cases hc : isUpper c = true
      · rw [List.dropWhile_cons_of_pos hc, ih fun d hd => hstr d (List.mem_cons_of_mem _ hd),
          List.forall_mem_cons]
        exact (and_iff_right hc).symm
      · rw [List.dropWhile_cons_of_neg hc]
        refine iff_of_false (hstr c List.mem_cons_self) ?_
        intro hall
        exact hc (hall c List.mem_cons_self)

/-- **`fun11`** accepts the strings of capital letters with a length, as an `int`,
    above 5. -/
theorem fun11_returns (hs : s.pc = 0) (hstr : CString s.mem (s.regs .rdi) L) :
    Eventually (step ext fun11) (fun t => AtRet fun11 t ∧ Saved s t ∧ t.mem = s.mem
      ∧ (eax t = 0 ↔ (∀ c ∈ L, isUpper c = true) ∧ 5 < (BitVec.ofNat 32 L.length).toInt)) s := by
  have hstart : Eventually (step ext fun11) (fun t => AtRet fun11 t
      ∧ (eax t = 0 ↔ (∀ c ∈ L, isUpper c = true) ∧ 5 < (BitVec.ofNat 32 L.length).toInt)) s := by
    refine (fun11_start hs).bind ?_
    rintro t ⟨hpc, hmem, hrdi, hrax⟩
    have hstr' : CString t.mem (t.regs .rdi + t.regs .rax) L := by
      rw [hmem, hrdi, hrax]
      exact (BitVec.add_zero (s.regs .rdi)).symm ▸ hstr
    refine (fun11_loop hpc hstr').bind ?_
    rintro u ⟨hpc, hecx, hdl⟩
    refine (fun11_result hpc).mono ?_
    rintro v ⟨hret, hiff⟩
    refine ⟨hret, hiff.trans ?_⟩
    rw [hdl, rest_zero hstr.nonzero, and_comm]
    refine and_congr_right fun hall => ?_
    have htake : L.takeWhile isUpper = L := List.takeWhile_eq_self_iff.mpr hall
    rw [hecx, htake, hrax, BitVec.zero_add, BitVec.setWidth_ofNat_of_le (by decide)]
  refine ((hstart.keeps (R := calleeSaved) (by decide) ?_).stack (by decide)).mono ?_
  · intro f hf
    simp [fun11] at hf
  · rintro t ⟨⟨⟨hret, hiff⟩, hregs⟩, hrsp, hmem⟩
    exact ⟨hret, ⟨hrsp, hregs⟩, hmem, hiff⟩

/-- The text "AZ!", with a character that is no capital letter. -/
def smallCapital : List (BitVec 8) := [0x41, 0x5A, 0x21]

theorem fun11_returns_small : Eventually (step (fun _ s => s) fun11)
    (fun t => AtRet fun11 t ∧ Saved (smallCall smallCapital) t ∧ t.mem = (smallCall smallCapital).mem
      ∧ (eax t = 0 ↔ (∀ c ∈ smallCapital, isUpper c = true)
        ∧ 5 < (BitVec.ofNat 32 smallCapital.length).toInt)) (smallCall smallCapital) :=
  fun11_returns rfl (smallCall_string smallCapital (by decide) (by decide))

/-! ## `fun12` -/

/-- `fun12.s` -/
def fun12 : List Instr :=
  [.endbr64,
   .push .rbx,
   .mov .q (.reg .rdi) .rbx,
   .call "strlen",
   .alu .xor .l (.reg .rdx) .rdx,
   .mov .q (.reg .rax) .rcx,
   .cltq,
   .alu .add .q (.reg .rbx) .rax,
   .label 3,
   .mov .b (.mem ⟨0, .rbx, some .rdx⟩) .rsi,
   .mov .l (.reg .rdx) .rdi,
   .test .b .rsi .rsi,
   .jcc .e 4,
   .lea .q ⟨1, .rdx, none⟩ .r8,
   .unary .not .q .rdx,
   .cmp .b (.mem ⟨0, .rax, some .rdx⟩) (.reg .rsi),
   .jcc .ne 4,
   .mov .q (.reg .r8) .rdx,
   .jmp 3,
   .label 4,
   .cmp .l (.imm 4) (.reg .rcx),
   .pop .rbx,
   .set .le .rax,
   .cmp .l (.reg .rcx) (.reg .rdi),
   .set .ne .rdx,
   .alu .or .l (.reg .rdx) .rax,
   .movzbl .rax .rax,
   .ret]

/-- What `strlen` does: it counts, and it leaves the string, the registers of its
    caller and the top of the stack alone. -/
structure IsStrlen (f : State → State) : Prop where
  length : ∀ s L, CString s.mem (s.regs .rdi) L → (f s).regs .rax = BitVec.ofNat 64 L.length
  string : ∀ s L, CString s.mem (s.regs .rdi) L → CString (f s).mem (s.regs .rdi) L
  saved : ∀ s, Saved s (f s)
  top : ∀ s, read64 (f s).mem s.rsp = read64 s.mem s.rsp

/-- `fun12` saves `%rbx` and calls `strlen`. -/
theorem fun12_start (hs : s.pc = 0) : Eventually (step ext fun12)
    (fun t => t.pc = 3 ∧ t.mem = write64 s.mem (s.rsp - 8) (s.regs .rbx) ∧ t.rsp = s.rsp - 8
      ∧ t.regs .rdi = s.regs .rdi ∧ t.regs .rbx = s.regs .rdi) s := by
  obtain ⟨pc, regs, rsp, flags, mem⟩ := s
  obtain rfl : pc = 0 := hs
  refine .next rfl (.next rfl (.next rfl (.here ?_)))
  simp

/-- The end of the string, as `int`. -/
theorem fun12_ends (hs : s.pc = 4) : Eventually (step ext fun12)
    (fun t => t.pc = 8 ∧ t.mem = s.mem ∧ t.rsp = s.rsp ∧ t.regs .rbx = s.regs .rbx
      ∧ t.regs .rcx = s.regs .rax ∧ t.regs .rdx = 0#64
      ∧ t.regs .rax = ((s.regs .rax).setWidth 32).signExtend 64 + s.regs .rbx) s := by
  obtain ⟨pc, regs, rsp, flags, mem⟩ := s
  obtain rfl : pc = 4 := hs
  refine .next rfl (.next rfl (.next rfl (.next rfl (.here ?_))))
  simp

/-- A character is read. -/
theorem fun12_read (hs : s.pc = 8) : Eventually (step ext fun12)
    (fun t => t.pc = (if s.mem (s.regs .rbx + s.regs .rdx) = 0 then 19 else 13) ∧ t.mem = s.mem
      ∧ t.rsp = s.rsp ∧ t.regs .rbx = s.regs .rbx ∧ t.regs .rcx = s.regs .rcx
      ∧ t.regs .rax = s.regs .rax ∧ t.regs .rdx = s.regs .rdx
      ∧ (t.regs .rdi).setWidth 32 = (s.regs .rdx).setWidth 32
      ∧ (t.regs .rsi).setWidth 8 = s.mem (s.regs .rbx + s.regs .rdx)) s := by
  obtain ⟨pc, regs, rsp, flags, mem⟩ := s
  obtain rfl : pc = 8 := hs
  refine .next rfl (.next rfl (.next rfl (.next rfl (.next rfl (.here ?_)))))
  simp
  exact if_congr (holds_zero _) rfl rfl

/-- It is compared with its mirror image. -/
theorem fun12_cmp (hs : s.pc = 13) : Eventually (step ext fun12)
    (fun t => t.pc = (if (s.regs .rsi).setWidth 8 = s.mem (s.regs .rax + ~~~ s.regs .rdx)
        then 17 else 19) ∧ t.mem = s.mem ∧ t.rsp = s.rsp ∧ t.regs .rbx = s.regs .rbx
      ∧ t.regs .rcx = s.regs .rcx ∧ t.regs .rax = s.regs .rax ∧ t.regs .r8 = s.regs .rdx + 1
      ∧ t.regs .rdi = s.regs .rdi) s := by
  obtain ⟨pc, regs, rsp, flags, mem⟩ := s
  obtain rfl : pc = 13 := hs
  refine .next rfl (.next rfl (.next rfl (.next rfl (.here ?_))))
  simp
  by_cases heq : (regs .rsi).setWidth 8 = mem (regs .rax + ~~~regs .rdx)
  · have hno : ¬ Cond.ne.holds (flagsOfSub (mem (regs .rax + ~~~regs .rdx))
        ((regs .rsi).setWidth 8)) = true := fun h => (Cond.cmp _ _ _).mp h heq
    exact (if_neg hno).trans (if_pos heq).symm
  · exact (if_pos ((Cond.cmp .ne _ _).mpr heq)).trans (if_neg heq).symm

/-- The next pair of characters. -/
theorem fun12_next (hs : s.pc = 17) : Eventually (step ext fun12)
    (fun t => t.pc = 8 ∧ t.mem = s.mem ∧ t.rsp = s.rsp ∧ t.regs .rbx = s.regs .rbx
      ∧ t.regs .rcx = s.regs .rcx ∧ t.regs .rax = s.regs .rax ∧ t.regs .rdx = s.regs .r8) s := by
  obtain ⟨pc, regs, rsp, flags, mem⟩ := s
  obtain rfl : pc = 17 := hs
  refine .next rfl (.next rfl (.here ?_))
  simp
  rfl

/-- The result of `fun12`, from the length and how far the loop has come. -/
theorem fun12_result (hs : s.pc = 19) : Eventually (step ext fun12)
    (fun t => AtRet fun12 t ∧ t.mem = s.mem ∧ t.rsp = s.rsp + 8
      ∧ t.regs .rbx = read64 s.mem s.rsp ∧ (eax t = 0 ↔ 4 < ((s.regs .rcx).setWidth 32).toInt
        ∧ (s.regs .rdi).setWidth 32 = (s.regs .rcx).setWidth 32)) s := by
  obtain ⟨pc, regs, rsp, flags, mem⟩ := s
  obtain rfl : pc = 19 := hs
  have hle : Cond.le.holds (flagsOfSub 4#32 ((regs .rcx).setWidth 32)) = false
      ↔ 4 < ((regs .rcx).setWidth 32).toInt := by
    rw [← Bool.not_eq_true, Cond.cmp]
    exact not_le
  have hne : Cond.ne.holds (flagsOfSub ((regs .rcx).setWidth 32) ((regs .rdi).setWidth 32)) = false
      ↔ (regs .rdi).setWidth 32 = (regs .rcx).setWidth 32 := by
    rw [← Bool.not_eq_true, Cond.cmp]
    exact not_not
  have hresult := (either_zero (regs .rax) (regs .rdx) _ _).trans (and_congr hle hne)
  refine .next rfl (.next rfl (.next rfl (.next rfl (.next rfl (.next rfl (.next rfl (.next rfl
    (.here ⟨rfl, rfl, rfl, ?_, ?_⟩))))))))
  · simp
  refine Iff.trans ?_ hresult
  simp [eax]
  exact Iff.rfl

/-- The mirror image of a position. -/
theorem mirror {a : Word} {i n : Nat} (hi : i < n) :
    BitVec.ofNat 64 n + a + ~~~ BitVec.ofNat 64 i = a + BitVec.ofNat 64 (n - 1 - i) := by
  have hnot : BitVec.ofNat 64 i + ~~~ BitVec.ofNat 64 i = -1 := by
    rw [BitVec.add_not_self]
    rfl
  have hn : BitVec.ofNat 64 n = BitVec.ofNat 64 (n - 1 - i) + BitVec.ofNat 64 i + 1 := by
    rw [← BitVec.ofNat_add]
    show BitVec.ofNat 64 n = BitVec.ofNat 64 (n - 1 - i + i) + BitVec.ofNat 64 1
    rw [← BitVec.ofNat_add]
    congr 1
    omega
  rw [hn]
  linear_combination hnot

/-- A palindrome, character by character. -/
theorem reverse_iff : L.reverse = L
    ↔ ∀ i (hi : i < L.length), L[i] = L[L.length - 1 - i] := by
  constructor
  · intro h i hi
    have hi' : i < L.reverse.length := by rwa [List.length_reverse]
    have hget : L.reverse[i] = L[i] := by
      simp only [h]
    rw [← hget, List.getElem_reverse]
  · intro h
    refine List.ext_getElem List.length_reverse ?_
    intro i hi hi'
    rw [List.getElem_reverse]
    exact (h i hi').symm

/-- The loop stops at the end of a palindrome, and before it otherwise. -/
theorem fun12_loop {a : Word} {i : Nat} (hs : s.pc = 8) (hstr : CString s.mem a L)
    (hrbx : s.regs .rbx = a) (hrax : s.regs .rax = BitVec.ofNat 64 L.length + a)
    (hrdx : s.regs .rdx = BitVec.ofNat 64 i) (hi : i ≤ L.length)
    (hsame : ∀ j (hj : j < i), L[j] = L[L.length - 1 - j]) :
    Eventually (step ext fun12) (fun t => t.pc = 19 ∧ t.mem = s.mem ∧ t.rsp = s.rsp
      ∧ t.regs .rcx = s.regs .rcx ∧ ∃ k ≤ L.length, (t.regs .rdi).setWidth 32 = BitVec.ofNat 32 k
        ∧ (k = L.length ↔ L.reverse = L)) s := by
  induction hn : L.length - i generalizing s i with
  | zero =>
      -- all bytes have been compared, and the loop meets the end of the string
      obtain rfl : i = L.length := by omega
      refine (fun12_read hs).mono ?_
      rintro t ⟨hpc, hmem, hrsp, -, hrcx, -, -, hedi, -⟩
      rw [hrbx, hrdx, hstr.stop, if_pos rfl] at hpc
      refine ⟨hpc, hmem, hrsp, hrcx, L.length, Nat.le_refl _, ?_, ?_⟩
      · rw [hedi, hrdx, BitVec.setWidth_ofNat_of_le (by decide)]
      · exact iff_of_true rfl (reverse_iff.mpr hsame)
  | succ n ih =>
      -- the byte from the front, and the one from the back
      have hlt : i < L.length := by omega
      refine (fun12_read hs).bind ?_
      rintro t ⟨hpc, hmem, hrsp, hrbx₁, hrcx, hrax₁, hrdx₁, hedi, hsil⟩
      rw [hrbx, hrdx, hstr.chars i hlt] at hpc hsil
      rw [if_neg (hstr.nonzero _ (List.getElem_mem hlt))] at hpc
      refine (fun12_cmp hpc).bind ?_
      rintro u ⟨hpc, hmem₂, hrsp₂, hrbx₂, hrcx₂, hrax₂, hr8, hrdi⟩
      rw [hsil, hmem, hrax₁, hrax, hrdx₁, hrdx, mirror hlt, hstr.chars _ (by omega)] at hpc
      by_cases heq : L[i] = L[L.length - 1 - i]
      · rw [if_pos heq] at hpc
        refine (fun12_next hpc).bind ?_
        rintro v ⟨hpc, hmem₃, hrsp₃, hrbx₃, hrcx₃, hrax₃, hrdx₃⟩
        have hmem₀ : v.mem = s.mem := hmem₃.trans (hmem₂.trans hmem)
        have hstr₃ : CString v.mem a L := hmem₀ ▸ hstr
        have hnext : v.regs .rdx = BitVec.ofNat 64 (i + 1) := by
          rw [hrdx₃, hr8, hrdx₁, hrdx, BitVec.ofNat_add]
          rfl
        have hsame₃ : ∀ j (hj : j < i + 1), L[j] = L[L.length - 1 - j] := by
          intro j hj
          rcases Nat.lt_succ_iff_lt_or_eq.mp hj with hj | rfl
          · exact hsame j hj
          · exact heq
        refine (ih hpc hstr₃ (by rw [hrbx₃, hrbx₂, hrbx₁, hrbx])
          (by rw [hrax₃, hrax₂, hrax₁, hrax]) hnext hlt hsame₃ (by omega)).mono ?_
        rintro w ⟨hpc, hw, hw₂, hw₃, hk⟩
        exact ⟨hpc, hw.trans hmem₀, by rw [hw₂, hrsp₃, hrsp₂, hrsp],
          by rw [hw₃, hrcx₃, hrcx₂, hrcx], hk⟩
      · -- the bytes differ: the loop is left before the end
        rw [if_neg heq] at hpc
        refine .here ⟨hpc, hmem₂.trans hmem, hrsp₂.trans hrsp, hrcx₂.trans hrcx, i, hi, ?_, ?_⟩
        · rw [hrdi, hedi, hrdx, BitVec.setWidth_ofNat_of_le (by decide)]
        · refine iff_of_false (Nat.ne_of_lt hlt) ?_
          intro hrev
          exact heq (reverse_iff.mp hrev i hlt)

/-- `cltq` -/
theorem cltq_length {n : Nat} (hn : n < 2 ^ 31) :
    ((BitVec.ofNat 64 n).setWidth 32).signExtend 64 = BitVec.ofNat 64 n := by
  rw [BitVec.setWidth_ofNat_of_le (by decide)]
  refine BitVec.eq_of_toInt_eq ?_
  rw [BitVec.toInt_signExtend_of_le (by decide), toInt_small hn, BitVec.toInt_eq_toNat_of_lt]
  · rw [BitVec.toNat_ofNat, Nat.mod_eq_of_lt (by omega)]
  · rw [BitVec.toNat_ofNat, Nat.mod_eq_of_lt (by omega)]
    omega

/-- **`fun12`** accepts the palindromes of more than four characters. -/
theorem fun12_returns (hext : IsStrlen (ext "strlen")) (hs : s.pc = 0)
    (hstr : CString s.mem (s.regs .rdi) L) (hlen : L.length < 2 ^ 31)
    (hclear : Clear s.rsp (s.regs .rdi) L) :
    Eventually (step ext fun12) (fun t => AtRet fun12 t ∧ Saved s t
      ∧ (eax t = 0 ↔ 4 < L.length ∧ L.reverse = L)) s := by
  have hmain : Eventually (step ext fun12) (fun t => AtRet fun12 t ∧ t.rsp = s.rsp
      ∧ t.regs .rbx = s.regs .rbx ∧ (eax t = 0 ↔ 4 < L.length ∧ L.reverse = L)) s := by
    refine (fun12_start hs).bind ?_
    rintro t ⟨hpc, hmem, hrsp, hrdi, hrbx⟩
    have hpushed : CString t.mem (t.regs .rdi) L := by
      rw [hmem, hrdi]
      exact push_string hstr hclear
    -- the call, and what it leaves alone
    have hcall : step ext fun12 t = some { ext "strlen" t with pc := 4 } := by
      have hfetch : fun12[t.pc]? = some (.call "strlen") := by
        rw [hpc]
        rfl
      rw [step, hfetch]
      simp only [exec, hpc]
    have hsaved := hext.saved t
    have htop : read64 (ext "strlen" t).mem (ext "strlen" t).rsp = s.regs .rbx := by
      rw [hsaved.rsp, hext.top, hrsp, hmem, read64_write64_same]
    refine .next hcall ((fun12_ends rfl).bind ?_)
    rintro u ⟨hpc₂, hmem₂, hrsp₂, hrbx₂, hrcx₂, hrdx₂, hrax₂⟩
    have hlength : (ext "strlen" t).regs .rax = BitVec.ofNat 64 L.length := hext.length t L hpushed
    have hbase : (ext "strlen" t).regs .rbx = s.regs .rdi :=
      (hsaved.regs .rbx (by decide)).trans hrbx
    -- the call does not write the string
    have hstr₂ : CString u.mem (s.regs .rdi) L := by
      rw [hmem₂, ← hrdi]
      exact hext.string t L hpushed
    have hend : u.regs .rax = BitVec.ofNat 64 L.length + s.regs .rdi := by
      rw [hrax₂, hbase, hlength, cltq_length hlen]
    refine (fun12_loop hpc₂ hstr₂ (hrbx₂.trans hbase) hend hrdx₂ (Nat.zero_le _)
      fun j hj => absurd hj (Nat.not_lt_zero j)).bind ?_
    rintro v ⟨hpc₃, hmem₃, hrsp₃, hrcx₃, k, hk, hedi, hpal⟩
    refine (fun12_result hpc₃).mono ?_
    rintro w ⟨hret, -, hrspw, hrbxw, hiff⟩
    refine ⟨hret, ?_, ?_, hiff.trans ?_⟩
    · rw [hrspw, hrsp₃, hrsp₂, hsaved.rsp, hrsp, BitVec.sub_add_cancel]
    · rw [hrbxw, hmem₃, hrsp₃, hmem₂, hrsp₂]
      exact htop
    · -- the position where the loop has stopped is compared as an `int`
      have hecx : (v.regs .rcx).setWidth 32 = BitVec.ofNat 32 L.length := by
        rw [hrcx₃, hrcx₂, hlength, BitVec.setWidth_ofNat_of_le (by decide)]
      have hsame : BitVec.ofNat 32 k = BitVec.ofNat 32 L.length ↔ k = L.length := by
        refine ⟨fun h => ?_, fun h => by rw [h]⟩
        have hint := congrArg BitVec.toInt h
        rw [toInt_small hlen, toInt_small (by omega)] at hint
        omega
      rw [hecx, hedi, toInt_small hlen, hsame, hpal]
      refine and_congr_left fun _ => ?_
      omega
  -- the other registers are not touched by any instruction
  refine (hmain.keeps (R := [.rbp, .r12, .r13, .r14, .r15]) (by decide) ?_).mono ?_
  · intro f hf t r hr
    have hname : f = "strlen" := by simpa [fun12] using hf
    rw [hname]
    exact (hext.saved t).regs r (List.mem_cons_of_mem _ hr)
  · rintro t ⟨⟨hret, hrsp, hrbx, hiff⟩, hregs⟩
    refine ⟨hret, ⟨hrsp, ?_⟩, hiff⟩
    intro r hr
    rcases List.mem_cons.mp hr with rfl | hr
    · exact hrbx
    · exact hregs r hr

/-- A `strlen` for the small examples; it leaves the other registers alone. -/
noncomputable def smallStrlen (s : State) : State :=
  { s with regs := Function.update s.regs .rax (BitVec.ofNat 64 (count s.mem (s.regs .rdi))) }

/-- The small `strlen` is one. -/
theorem smallStrlen_isStrlen : IsStrlen smallStrlen where
  length := by
    intro s L h
    show BitVec.ofNat 64 (count s.mem (s.regs .rdi)) = BitVec.ofNat 64 L.length
    rw [h.count]
  string := fun _ _ h => h
  saved := by
    intro s
    refine ⟨rfl, fun r hr => ?_⟩
    have hne : r ≠ .rax := by
      rintro rfl
      exact absurd hr (by decide)
    exact Function.update_of_ne hne _ s.regs
  top := fun _ => rfl

/-- The text "level", a palindrome. -/
def smallLevel : List (BitVec 8) := [0x6C, 0x65, 0x76, 0x65, 0x6C]

theorem fun12_returns_small : Eventually (step (fun _ => smallStrlen) fun12)
    (fun t => AtRet fun12 t ∧ Saved (smallCall smallLevel) t
      ∧ (eax t = 0 ↔ 4 < smallLevel.length ∧ smallLevel.reverse = smallLevel))
    (smallCall smallLevel) :=
  fun12_returns smallStrlen_isStrlen rfl (smallCall_string smallLevel (by decide) (by decide))
    (by decide) (smallCall_clear smallLevel (by decide))

end AsmStrings
