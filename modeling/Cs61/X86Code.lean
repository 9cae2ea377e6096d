import Cs61.X86Stack
import Mathlib.Data.BitVec

/-! # Programs of an x86-64 machine

    Instructions on registers of 8, 32 and 64 bits with the flags that they set,
    jumps to labels, and calls of functions that are given from outside.  A
    program takes one step at a time until it stands at a `ret`.

    `Eventually step P s` is total correctness: from `s` the steps come to a state
    with `P`.  A loop has an invariant and a measure (`Eventually.loop`), and a
    loop that is never left has an invariant too (`Eventually.forever`).  What a
    condition says after a comparison is read off by `Cond.cmp`. -/

namespace X86Code

open X86Stack (Word Mem Reg read64 write64 read64_write64_same)

/-! ## Total correctness -/

section Eventually

variable {σ : Type} {step : σ → Option σ} {P Q : σ → Prop} {s s' : σ}

/-- The steps from `s` come to a state with `P`. -/
inductive Eventually (step : σ → Option σ) (P : σ → Prop) : σ → Prop where
  | here {s : σ} (h : P s) : Eventually step P s
  | next {s s' : σ} (hs : step s = some s') (h : Eventually step P s') : Eventually step P s

/-- What is reached in two stages. -/
theorem Eventually.bind (h : Eventually step P s)
    (hnext : ∀ s, P s → Eventually step Q s) : Eventually step Q s := by
  induction h with
  | here hp => exact hnext _ hp
  | next hs _ ih => exact .next hs ih

/-- What is reached, weakened. -/
theorem Eventually.mono (h : Eventually step P s) (hpq : ∀ s, P s → Q s) : Eventually step Q s :=
  h.bind fun s hp => .here (hpq s hp)

/-- A run that is not there yet takes a step. -/
theorem Eventually.moves (h : Eventually step P s) (hp : ¬ P s) :
    ∃ s', step s = some s' ∧ Eventually step P s' := by
  cases h with
  | here hps => exact absurd hps hp
  | next hs h => exact ⟨_, hs, h⟩

/-- **LOOPS**: with an invariant, and a measure that every turn makes smaller. -/
theorem Eventually.loop {I : σ → Prop} (μ : σ → Nat)
    (hturn : ∀ s, I s → Eventually step (fun s' => Q s' ∨ I s' ∧ μ s' < μ s) s) (h : I s) :
    Eventually step Q s := by
  induction hn : μ s using Nat.strongRecOn generalizing s with
  | ind n ih =>
      refine (hturn s h).bind ?_
      intro s' hs'
      rcases hs' with hq | ⟨hi, hlt⟩
      · exact .here hq
      · exact ih (μ s') (hn ▸ hlt) hi rfl

/-- An invariant that always comes back keeps the program going. -/
theorem Eventually.goes_on {I : σ → Prop}
    (hturn : ∀ s, I s → ∃ s', step s = some s' ∧ Eventually step I s')
    (h : Eventually step I s) : ∃ s', step s = some s' ∧ Eventually step I s' := by
  cases h with
  | here hi => exact hturn _ hi
  | next hs h => exact ⟨_, hs, h⟩

/-- **LOOPS THAT ARE NEVER LEFT**: the steps come back to the invariant again and
    again, and so they never come to where they end. -/
theorem Eventually.forever {I : σ → Prop}
    (hturn : ∀ s, I s → ∃ s', step s = some s' ∧ Eventually step I s')
    (hp : ∀ s, P s → step s = none) (h : Eventually step I s) : ¬ Eventually step P s := by
  intro he
  induction he with
  | here hps =>
      obtain ⟨s', hs', -⟩ := h.goes_on hturn
      rw [hp _ hps] at hs'
      cases hs'
  | next hs _ ih =>
      obtain ⟨s', hs', hback⟩ := h.goes_on hturn
      rw [hs] at hs'
      exact ih (Option.some.inj hs' ▸ hback)

end Eventually

/-! ## Instructions -/

/-- The suffix of an instruction: `b`, `l` or `q`. -/
inductive Width
  | b | l | q

/-- How many bits it stands for. -/
abbrev Width.bits : Width → Nat
  | .b => 8
  | .l => 32
  | .q => 64

/-- `disp(%base,%index)` -/
structure Addr where
  disp : Int
  base : Reg
  index : Option Reg

/-- The source of an instruction: a register, or a number. -/
inductive Src
  | reg (r : Reg)
  | imm (v : Int)
  | mem (a : Addr)

/-- Instructions with two operands. -/
inductive Alu
  | add | sub | and | or | xor | imul

/-- Instructions with one operand. -/
inductive Unary
  | inc | dec | not

/-- The conditions of `jcc` and `setcc`. -/
inductive Cond
  | e | ne | l | ge | le | g | b | ae | be | a

/-- The instructions that the functions use, and the labels between them. -/
inductive Instr
  | label (n : Nat)
  | mov (w : Width) (src : Src) (dst : Reg)
  /-- `movzbl` -/
  | movzbl (src dst : Reg)
  /-- `cltq` -/
  | cltq
  | alu (op : Alu) (w : Width) (src : Src) (dst : Reg)
  | unary (op : Unary) (w : Width) (dst : Reg)
  | shr (w : Width) (n : Nat) (dst : Reg)
  | lea (w : Width) (a : Addr) (dst : Reg)
  /-- `cmp src, dst` compares `dst` with `src`. -/
  | cmp (w : Width) (src dst : Src)
  | test (w : Width) (src dst : Reg)
  | set (c : Cond) (dst : Reg)
  | jmp (n : Nat)
  | jcc (c : Cond) (n : Nat)
  | push (r : Reg)
  | pop (r : Reg)
  | call (f : String)
  | endbr64
  | ret

/-- The flags: zero, sign, carry and overflow. -/
structure Flags where
  zf : Bool
  sf : Bool
  cf : Bool
  of : Bool

/-- A processor: the place in the code, registers, flags and memory. -/
structure State where
  pc : Nat
  regs : Reg → Word
  rsp : Word
  flags : Flags
  mem : Mem

/-- The functions that a program may call. -/
abbrev Ext := String → State → State

/-- What a conditional instruction looks at. -/
def Cond.holds (f : Flags) : Cond → Bool
  | .e => f.zf
  | .ne => !f.zf
  | .l => f.sf != f.of
  | .ge => f.sf == f.of
  | .le => f.zf || f.sf != f.of
  | .g => !f.zf && f.sf == f.of
  | .b => f.cf
  | .ae => !f.cf
  | .be => f.cf || f.zf
  | .a => !f.cf && !f.zf

/-- A value in memory. -/
def load (m : Mem) (a : Word) : (w : Width) → BitVec w.bits
  | .b => m a
  | .l => X86Stack.read32 m a
  | .q => read64 m a

/-- The address that an operand stands for. -/
def Addr.eval (a : Addr) (s : State) : Word :=
  match a.index with
  | none => s.regs a.base + BitVec.ofInt 64 a.disp
  | some r => s.regs a.base + s.regs r + BitVec.ofInt 64 a.disp

/-- The value of a source. -/
def Src.eval (w : Width) (s : State) : Src → BitVec w.bits
  | .reg r => (s.regs r).setWidth w.bits
  | .imm v => BitVec.ofInt w.bits v
  | .mem a => load s.mem (a.eval s) w

/-- A result of 8 bits leaves the rest of the register alone, one of 32 bits
    clears it. -/
def merge (old : Word) : (w : Width) → BitVec w.bits → Word
  | .b, v => old.extractLsb' 8 56 ++ v
  | .l, v => v.setWidth 64
  | .q, v => v

/-- A register gets a result, and the next instruction comes. -/
def State.set (s : State) (w : Width) (dst : Reg) (v : BitVec w.bits) : State :=
  { s with pc := s.pc + 1, regs := Function.update s.regs dst (merge (s.regs dst) w v) }

/-- The next instruction comes. -/
def State.next (s : State) : State := { s with pc := s.pc + 1 }

/-- The flags of a result. -/
def State.setFlags (s : State) (f : Flags) : State := { s with flags := f }

variable {n : Nat}

/-- The flags of a result without carry or overflow. -/
def flagsOfLogic (v : BitVec n) : Flags := { zf := v == 0, sf := v.msb, cf := false, of := false }

/-- The flags of `y - x`. -/
def flagsOfSub (x y : BitVec n) : Flags where
  zf := y - x == 0
  sf := (y - x).msb
  cf := y.ult x
  of := y.msb != x.msb && (y - x).msb != y.msb

/-- The flags of `y + x`. -/
def flagsOfAdd (x y : BitVec n) : Flags where
  zf := y + x == 0
  sf := (y + x).msb
  cf := (y + x).ult x
  of := y.msb == x.msb && (y + x).msb != y.msb

/-- The result and the flags; `imul` leaves `zf` and `sf` undefined, here they stay. -/
def Alu.eval (op : Alu) (f : Flags) (x y : BitVec n) : BitVec n × Flags :=
  match op with
  | .add => (y + x, flagsOfAdd x y)
  | .sub => (y - x, flagsOfSub x y)
  | .and => (y &&& x, flagsOfLogic (y &&& x))
  | .or => (y ||| x, flagsOfLogic (y ||| x))
  | .xor => (y ^^^ x, flagsOfLogic (y ^^^ x))
  | .imul =>
      let lost : Bool := decide ((y * x).toInt ≠ y.toInt * x.toInt)
      (y * x, { f with cf := lost, of := lost })

/-- The result and the flags; `inc` and `dec` keep the carry, and `not` keeps all flags. -/
def Unary.eval (op : Unary) (f : Flags) (y : BitVec n) : BitVec n × Flags :=
  match op with
  | .inc => (y + 1, { flagsOfAdd 1 y with cf := f.cf })
  | .dec => (y - 1, { flagsOfSub 1 y with cf := f.cf })
  | .not => (~~~ y, f)

/-- The flags of a shift to the right by `k > 0`; `of` is kept. -/
def flagsOfShr (f : Flags) (k : Nat) (y : BitVec n) : Flags :=
  { zf := y >>> k == 0, sf := (y >>> k).msb, cf := y.getLsbD (k - 1), of := f.of }

/-- The place with the label. -/
def isLabel (n : Nat) : Instr → Bool
  | .label k => k == n
  | _ => false

/-- One instruction. A `call` takes the whole called function for one step: no return
    address is pushed, so the stack that the function sees is without it. -/
def exec (ext : Ext) (code : List Instr) (s : State) : Instr → Option State
  | .label _ => some s.next
  | .mov w src dst => some (s.set w dst (src.eval w s))
  | .movzbl src dst => some (s.set .l dst (((s.regs src).setWidth 8).setWidth 32))
  | .cltq => some (s.set .q .rax (((s.regs .rax).setWidth 32).signExtend 64))
  | .alu op w src dst =>
      let r := op.eval s.flags (src.eval w s) ((s.regs dst).setWidth w.bits)
      some ((s.set w dst r.1).setFlags r.2)
  | .unary op w dst =>
      let r := op.eval s.flags ((s.regs dst).setWidth w.bits)
      some ((s.set w dst r.1).setFlags r.2)
  | .shr w k dst =>
      let y : BitVec w.bits := (s.regs dst).setWidth w.bits
      some ((s.set w dst (y >>> k)).setFlags (flagsOfShr s.flags k y))
  | .lea w a dst => some (s.set w dst ((a.eval s).setWidth w.bits))
  | .cmp w src dst => some (s.next.setFlags (flagsOfSub (src.eval w s) (dst.eval w s)))
  | .test w src dst =>
      let x : BitVec w.bits := (s.regs src).setWidth w.bits
      some (s.next.setFlags (flagsOfLogic ((s.regs dst).setWidth w.bits &&& x)))
  | .set c dst => some (s.set .b dst (if c.holds s.flags then 1 else 0))
  | .jmp n => some { s with pc := code.findIdx (isLabel n) }
  | .jcc c n => some { s with pc := if c.holds s.flags then code.findIdx (isLabel n) else s.pc + 1 }
  | .push r =>
      some { s with pc := s.pc + 1, rsp := s.rsp - 8, mem := write64 s.mem (s.rsp - 8) (s.regs r) }
  | .pop r =>
      some { s with pc := s.pc + 1, rsp := s.rsp + 8,
                    regs := Function.update s.regs r (read64 s.mem s.rsp) }
  | .call f => some { ext f s with pc := s.pc + 1 }
  | .endbr64 => some s.next
  | .ret => none

/-- The next instruction of the code, if there is one. -/
def step (ext : Ext) (code : List Instr) (s : State) : Option State :=
  match code[s.pc]? with
  | none => none
  | some i => exec ext code s i

/-- The function is about to return. -/
def AtRet (code : List Instr) (s : State) : Prop := code[s.pc]? = some .ret

/-- At its return, the function is left. -/
theorem step_ret {ext : Ext} {code : List Instr} {s : State} (h : AtRet code s) :
    step ext code s = none := by
  have hret : code[s.pc]? = some .ret := h
  rw [step, hret]
  rfl

/-! ## Registers -/

@[simp] theorem merge_b (old : Word) (v : BitVec 8) : (merge old .b v).setWidth 8 = v := by
  show (old.extractLsb' 8 56 ++ v).setWidth 8 = v
  refine BitVec.eq_of_getLsbD_eq fun i hi => ?_
  rw [BitVec.getLsbD_setWidth, BitVec.getLsbD_append]
  simp [hi]

@[simp] theorem merge_l (old : Word) (v : BitVec 32) : (merge old .l v).setWidth 32 = v := by
  show (v.setWidth 64).setWidth 32 = v
  rw [BitVec.setWidth_setWidth_of_le _ (by decide), BitVec.setWidth_eq]

/-- The low byte of a result of 32 bits. -/
theorem merge_l_low (old v : Word) : (merge old .l (v.setWidth 32)).setWidth 8 = v.setWidth 8 := by
  show ((v.setWidth 32).setWidth 64).setWidth 8 = v.setWidth 8
  rw [BitVec.setWidth_setWidth_of_le _ (by decide), BitVec.setWidth_setWidth_of_le _ (by decide)]

@[simp] theorem merge_zero (old : Word) : merge old .l 0#32 = 0#64 := rfl

@[simp] theorem merge_q (old v : Word) : merge old .q v = v := rfl

/-- Two results of `setcc` are combined with `orl` and extended with `movzbl`. -/
theorem either_zero (x y : Word) (p q : Bool) :
    ((merge (merge x .b (if p = true then 1#8 else 0#8)) .l
        ((merge x .b (if p = true then 1#8 else 0#8)).setWidth 32
          ||| (merge y .b (if q = true then 1#8 else 0#8)).setWidth 32)).setWidth 8).setWidth 32 = 0#32
      ↔ p = false ∧ q = false := by
  rw [← BitVec.setWidth_or, merge_l_low, BitVec.setWidth_or, merge_b, merge_b]
  cases p <;> cases q <;> decide

/-- The result of `setcc`, extended. -/
theorem set_zero (p : Bool) : (if p = true then 1#8 else 0#8).setWidth 32 = 0#32 ↔ p = false := by
  cases p <;> decide

-- a state after some steps, register by register
attribute [simp] Width.bits State.set State.next State.setFlags Addr.eval Src.eval load Alu.eval
  Unary.eval

/-- The register that an instruction writes. -/
def Instr.dst : Instr → Option Reg
  | .mov _ _ d | .movzbl _ d | .alu _ _ _ d | .unary _ _ d | .shr _ _ d | .lea _ _ d | .set _ d
  | .pop d => some d
  | .cltq => some .rax
  | _ => none

/-- Whether an instruction uses the stack. -/
def Instr.stack : Instr → Bool
  | .push _ | .pop _ | .call _ => true
  | _ => false

/-- The registers that a function leaves as they were. -/
def calleeSaved : List Reg := [.rbx, .rbp, .r12, .r13, .r14, .r15]

/-- The result of a function. -/
def eax (t : State) : BitVec 32 := (t.regs .rax).setWidth 32

/-- What a caller may rely on. -/
structure Saved (s t : State) : Prop where
  rsp : t.rsp = s.rsp
  regs : ∀ r ∈ calleeSaved, t.regs r = s.regs r

section Frame

variable {ext : Ext} {code : List Instr} {s t : State} {i : Instr} {r : Reg} {P : State → Prop}

/-- A register that is not the destination stays. -/
theorem update_of_dst {regs : Reg → Word} {d : Reg} {v : Word} (hr : some d ≠ some r) :
    Function.update regs d v r = regs r :=
  Function.update_of_ne (fun heq => hr (congrArg some heq.symm)) _ _

/-- An instruction changes its destination only. -/
theorem exec_regs (h : exec ext code s i = some t) (hr : i.dst ≠ some r)
    (hext : ∀ f, i = .call f → (ext f s).regs r = s.regs r) : t.regs r = s.regs r := by
  cases i with
  | ret => cases h
  | call f =>
      obtain rfl := Option.some.inj h
      exact hext f rfl
  | mov w src d =>
      obtain rfl := Option.some.inj h
      exact update_of_dst hr
  | movzbl src d =>
      obtain rfl := Option.some.inj h
      exact update_of_dst hr
  | cltq =>
      obtain rfl := Option.some.inj h
      exact update_of_dst hr
  | alu op w src d =>
      obtain rfl := Option.some.inj h
      exact update_of_dst hr
  | unary op w d =>
      obtain rfl := Option.some.inj h
      exact update_of_dst hr
  | shr w k d =>
      obtain rfl := Option.some.inj h
      exact update_of_dst hr
  | lea w a d =>
      obtain rfl := Option.some.inj h
      exact update_of_dst hr
  | set c d =>
      obtain rfl := Option.some.inj h
      exact update_of_dst hr
  | pop d =>
      obtain rfl := Option.some.inj h
      exact update_of_dst hr
  | _ =>
      obtain rfl := Option.some.inj h
      rfl

/-- An instruction that is no push or call leaves memory alone. -/
theorem exec_stack (h : exec ext code s i = some t) (hi : i.stack = false) :
    t.rsp = s.rsp ∧ t.mem = s.mem := by
  cases i with
  | ret => cases h
  | push r => cases hi
  | pop r => cases hi
  | call f => cases hi
  | _ =>
      obtain rfl := Option.some.inj h
      exact ⟨rfl, rfl⟩

/-- A step executes an instruction of the code. -/
theorem step_some (h : step ext code s = some t) : ∃ i ∈ code, exec ext code s i = some t := by
  rw [step] at h
  cases hi : code[s.pc]? with
  | none =>
      rw [hi] at h
      cases h
  | some i =>
      rw [hi] at h
      exact ⟨i, List.mem_of_getElem? hi, h⟩

/-- **THE FRAME**: a program that does not use the stack leaves the memory alone. -/
theorem Eventually.stack (hcode : ∀ i ∈ code, i.stack = false)
    (h : Eventually (step ext code) P s) :
    Eventually (step ext code) (fun t => P t ∧ t.rsp = s.rsp ∧ t.mem = s.mem) s := by
  induction h with
  | here hp => exact .here ⟨hp, rfl, rfl⟩
  | next hs _ ih =>
      obtain ⟨i, hi, hexec⟩ := step_some hs
      obtain ⟨hrsp, hmem⟩ := exec_stack hexec (hcode i hi)
      refine .next hs (ih.mono ?_)
      rintro u ⟨hp, hu, hu'⟩
      exact ⟨hp, hu.trans hrsp, hu'.trans hmem⟩

/-- Registers that no instruction of a program writes stay as they are. -/
theorem Eventually.keeps {R : List Reg} (hcode : ∀ i ∈ code, ∀ r ∈ R, i.dst ≠ some r)
    (hext : ∀ f, .call f ∈ code → ∀ s, ∀ r ∈ R, (ext f s).regs r = s.regs r)
    (h : Eventually (step ext code) P s) :
    Eventually (step ext code) (fun t => P t ∧ ∀ r ∈ R, t.regs r = s.regs r) s := by
  induction h with
  | here hp => exact .here ⟨hp, fun _ _ => rfl⟩
  | next hs _ ih =>
      obtain ⟨i, hi, hexec⟩ := step_some hs
      refine .next hs (ih.mono ?_)
      rintro u ⟨hp, hu⟩
      exact ⟨hp, fun r hr => (hu r hr).trans
        (exec_regs hexec (hcode i hi r hr) fun f hf => hext f (hf ▸ hi) _ r hr)⟩

end Frame

/-! ## Strings -/

/-- The characters of a string, without the null character at its end. -/
structure CString (m : Mem) (a : Word) (L : List (BitVec 8)) : Prop where
  chars : ∀ i (hi : i < L.length), m (a + BitVec.ofNat 64 i) = L[i]
  nonzero : ∀ c ∈ L, c ≠ 0
  stop : m (a + BitVec.ofNat 64 L.length) = 0

section Strings

variable {m : Mem} {a rsp v : Word} {c : BitVec 8} {L : List (BitVec 8)}

/-- The string behind the first byte. -/
theorem CString.tail (h : CString m a (c :: L)) : CString m (a + 1) L := by
  have hnext : ∀ i : Nat, a + 1 + BitVec.ofNat 64 i = a + BitVec.ofNat 64 (i + 1) := by
    intro i
    rw [BitVec.ofNat_add, BitVec.add_assoc, BitVec.add_comm 1]
    rfl
  refine ⟨?_, fun d hd => h.nonzero d (List.mem_cons_of_mem _ hd), ?_⟩
  · intro i hi
    rw [hnext]
    exact h.chars (i + 1) (Nat.succ_lt_succ hi)
  · rw [hnext]
    exact h.stop

/-- The first character, or the end. -/
theorem CString.head (h : CString m a L) : m a = L.headD 0 := by
  have hzero : a + BitVec.ofNat 64 0 = a := BitVec.add_zero a
  cases L with
  | nil =>
      have hstop := h.stop
      rw [List.length_nil, hzero] at hstop
      exact hstop
  | cons c L =>
      have hchar := h.chars 0 (Nat.zero_lt_succ _)
      rw [hzero] at hchar
      exact hchar

open Classical in
/-- The number of characters before the null character. -/
noncomputable def count (m : Mem) (a : Word) : Nat :=
  if h : ∃ n : Nat, m (a + BitVec.ofNat 64 n) = 0 then Nat.find h else 0

/-- The length of the string. -/
theorem CString.count (h : CString m a L) : count m a = L.length := by
  have hex : ∃ n : Nat, m (a + BitVec.ofNat 64 n) = 0 := ⟨L.length, h.stop⟩
  rw [X86Code.count, dif_pos hex]
  refine (Nat.find_eq_iff hex).mpr ⟨h.stop, fun i hi => ?_⟩
  rw [h.chars i hi]
  exact h.nonzero _ (List.getElem_mem hi)

/-- The characters before the null character. -/
noncomputable def chars (m : Mem) (a : Word) : List (BitVec 8) :=
  (List.range (count m a)).map fun i => m (a + BitVec.ofNat 64 i)

/-- The bytes of the string. -/
theorem CString.chars_eq (h : CString m a L) : X86Code.chars m a = L := by
  rw [X86Code.chars, h.count]
  refine List.ext_getElem (by rw [List.length_map, List.length_range]) ?_
  intro i hi hi'
  rw [List.getElem_map, List.getElem_range]
  exact h.chars i hi'

/-- The eight bytes below the stack pointer are not part of the string. -/
def Clear (rsp a : Word) (L : List (BitVec 8)) : Prop :=
  ∀ i ≤ L.length, 8 ≤ (a + BitVec.ofNat 64 i - (rsp - 8)).toNat

/-- A push below a string does not change it. -/
theorem push_string (h : CString m a L) (hclear : Clear rsp a L) :
    CString (write64 m (rsp - 8) v) a L := by
  have hkeep : ∀ i ≤ L.length, write64 m (rsp - 8) v (a + BitVec.ofNat 64 i)
      = m (a + BitVec.ofNat 64 i) := by
    intro i hi
    exact if_neg (Nat.not_lt.mpr (hclear i hi))
  refine ⟨?_, h.nonzero, ?_⟩
  · intro i hi
    rw [hkeep i (Nat.le_of_lt hi)]
    exact h.chars i hi
  · rw [hkeep _ (Nat.le_refl _)]
    exact h.stop

/-- A call with a string at 0x1000 as its argument. -/
def smallCall (L : List (BitVec 8)) : State where
  pc := 0
  regs := fun r => if r = .rdi then 0x1000 else 0
  rsp := 0x8000
  flags := { zf := false, sf := false, cf := false, of := false }
  mem := fun a => L.getD (a.toNat - 0x1000) 0

/-- The example's string. -/
theorem smallCall_string (L : List (BitVec 8)) (hlen : L.length < 0x1000) (hL : ∀ c ∈ L, c ≠ 0) :
    CString (smallCall L).mem ((smallCall L).regs .rdi) L := by
  have haddr : ∀ i ≤ L.length, (0x1000 + BitVec.ofNat 64 i).toNat - 0x1000 = i := by
    intro i hi
    rw [BitVec.toNat_add, BitVec.toNat_ofNat]
    show (0x1000 + i % 2 ^ 64) % 2 ^ 64 - 0x1000 = i
    omega
  have hmem : ∀ i ≤ L.length, (smallCall L).mem ((smallCall L).regs .rdi + BitVec.ofNat 64 i)
      = L.getD i 0 := by
    intro i hi
    show L.getD ((0x1000 + BitVec.ofNat 64 i).toNat - 0x1000) 0 = L.getD i 0
    rw [haddr i hi]
  refine ⟨?_, hL, ?_⟩
  · intro i hi
    rw [hmem i (Nat.le_of_lt hi), List.getD_eq_getElem _ _ hi]
  · rw [hmem _ (Nat.le_refl _), List.getD_eq_default _ _ (Nat.le_refl _)]

/-- The example's string is clear of the stack. -/
theorem smallCall_clear (L : List (BitVec 8)) (hlen : L.length < 0x1000) :
    Clear (smallCall L).rsp ((smallCall L).regs .rdi) L := by
  intro i hi
  have hbelow : (0x8000#64 - 8).toNat = 0x7FF8 := by decide
  show 8 ≤ (0x1000#64 + BitVec.ofNat 64 i - (0x8000#64 - 8)).toNat
  rw [BitVec.toNat_sub, hbelow, BitVec.toNat_add, BitVec.toNat_ofNat]
  show 8 ≤ (2 ^ 64 - 0x7FF8 + (0x1000 + i % 2 ^ 64) % 2 ^ 64) % 2 ^ 64
  omega

end Strings

/-! ## Conditions -/

/-- What a condition says of `y` compared with `x`. -/
def Cond.says (c : Cond) (y x : BitVec n) : Prop :=
  match c with
  | .e => y = x
  | .ne => y ≠ x
  | .l => y.toInt < x.toInt
  | .ge => x.toInt ≤ y.toInt
  | .le => y.toInt ≤ x.toInt
  | .g => x.toInt < y.toInt
  | .b => y.toNat < x.toNat
  | .ae => x.toNat ≤ y.toNat
  | .be => y.toNat ≤ x.toNat
  | .a => x.toNat < y.toNat

variable {x y : BitVec n}

/-- The zero flag after a comparison. -/
theorem sub_zero (x y : BitVec n) : (y - x == 0) = decide (y = x) := by
  rw [Bool.eq_iff_iff, beq_iff_eq, decide_eq_true_iff]
  exact sub_eq_zero

/-- The sign and the overflow of a difference tell which number is smaller. -/
theorem sub_less (x y : BitVec n) :
    ((flagsOfSub x y).sf != (flagsOfSub x y).of) = decide (y.toInt < x.toInt) := by
  have hof : (flagsOfSub x y).of = BitVec.ssubOverflow y x := by
    rw [BitVec.ssubOverflow_eq, flagsOfSub]
    cases y.msb <;> cases x.msb <;> cases (y - x).msb <;> rfl
  have hsf : (flagsOfSub x y).sf = (y - x).msb := rfl
  rw [hof, hsf]
  cases hover : BitVec.ssubOverflow y x with
  | false =>
      have hint := BitVec.toInt_sub_of_not_ssubOverflow (x := y) (y := x) (by rw [hover]; nofun)
      rw [Bool.bne_false, BitVec.msb_eq_toInt, hint, decide_eq_decide]
      omega
  | true =>
      have hlt := BitVec.toInt_lt (x := x)
      rw [BitVec.ssubOverflow_eq] at hover
      simp only [BitVec.msb_eq_toInt] at hover ⊢
      -- the numbers have different signs
      by_cases hy : y.toInt < 0
      · by_cases hx : x.toInt < 0
        · simp [hy, hx] at hover
        · simp only [hy, hx] at hover ⊢
          have hlt : y.toInt < x.toInt := by omega
          simp_all
      · by_cases hx : x.toInt < 0
        · have hlt : ¬ y.toInt < x.toInt := by omega
          simp_all
        · simp [hy, hx] at hover

/-- After `test r, r`. -/
theorem holds_zero (v : BitVec n) : Cond.e.holds (flagsOfLogic v) = true ↔ v = 0 := beq_iff_eq

/-- The test of a register against 0. -/
theorem not_holds_ne (v : BitVec n) : Cond.ne.holds (flagsOfLogic v) = false ↔ v = 0 := by
  rw [← holds_zero, Cond.holds, Cond.holds, Bool.not_eq_false']

/-- A number that fits an `int`. -/
theorem toInt_small {k : Nat} (hk : k < 2 ^ 31) : (BitVec.ofNat 32 k).toInt = k := by
  rw [BitVec.toInt_eq_toNat_of_lt]
  · rw [BitVec.toNat_ofNat, Nat.mod_eq_of_lt (by omega)]
  · rw [BitVec.toNat_ofNat, Nat.mod_eq_of_lt (by omega)]
    omega

/-- **CONDITIONS AFTER A COMPARISON.** -/
theorem Cond.cmp (c : Cond) (x y : BitVec n) : c.holds (flagsOfSub x y) = true ↔ c.says y x := by
  have hzero : (flagsOfSub x y).zf = decide (y = x) := sub_zero x y
  have hbelow : (flagsOfSub x y).cf = decide (y.toNat < x.toNat) := rfl
  have hless := sub_less x y
  have heq : ((flagsOfSub x y).sf == (flagsOfSub x y).of) = decide (x.toInt ≤ y.toInt) := by
    have hnot : ((flagsOfSub x y).sf == (flagsOfSub x y).of)
        = !((flagsOfSub x y).sf != (flagsOfSub x y).of) := (Bool.not_not _).symm
    rw [hnot, hless, ← decide_not, decide_eq_decide, not_lt]
  cases c with
  | e => rw [Cond.holds, hzero, decide_eq_true_iff, Cond.says]
  | ne => rw [Cond.holds, hzero, ← decide_not, decide_eq_true_iff, Cond.says]
  | l => rw [Cond.holds, hless, decide_eq_true_iff, Cond.says]
  | ge => rw [Cond.holds, heq, decide_eq_true_iff, Cond.says]
  | le =>
      rw [Cond.holds, hzero, hless, Bool.or_eq_true, decide_eq_true_iff, decide_eq_true_iff,
        Cond.says, ← BitVec.toInt_inj]
      omega
  | g =>
      rw [Cond.holds, hzero, heq, Bool.and_eq_true, ← decide_not, decide_eq_true_iff,
        decide_eq_true_iff, Cond.says, ← BitVec.toInt_inj]
      omega
  | b => rw [Cond.holds, hbelow, decide_eq_true_iff, Cond.says]
  | ae => rw [Cond.holds, hbelow, ← decide_not, decide_eq_true_iff, Cond.says, not_lt]
  | be =>
      rw [Cond.holds, hbelow, hzero, Bool.or_eq_true, decide_eq_true_iff, decide_eq_true_iff,
        Cond.says, ← BitVec.toNat_inj]
      omega
  | a =>
      rw [Cond.holds, hbelow, hzero, Bool.and_eq_true, ← decide_not, ← decide_not,
        decide_eq_true_iff, decide_eq_true_iff, Cond.says, ← BitVec.toNat_inj]
      omega

end X86Code
