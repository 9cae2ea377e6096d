import Mathlib.Data.Nat.Bitwise
import Mathlib.Logic.Function.Basic

/-! # Stack frames of an x86-64 machine

    The registers, a byte memory, and the instructions that entry and return
    code is made of.  A run of pushes leaves its values on the stack, the last
    one first (`exec_pushes`); a run of pops takes them off (`exec_pops`). -/

namespace X86Stack

/-- A register or an address. -/
abbrev Word := BitVec 64

/-- The bytes of memory. -/
abbrev Mem := Word → BitVec 8

/-- Eight bytes, the lowest first. -/
def read64 (m : Mem) (a : Word) : Word :=
  m (a + 7) ++ m (a + 6) ++ m (a + 5) ++ m (a + 4) ++ m (a + 3) ++ m (a + 2) ++ m (a + 1) ++ m a

/-- Four bytes. -/
def read32 (m : Mem) (a : Word) : BitVec 32 :=
  m (a + 3) ++ m (a + 2) ++ m (a + 1) ++ m a

/-- Eight bytes are written. -/
def write64 (m : Mem) (a v : Word) : Mem := fun b =>
  if (b - a).toNat < 8 then v.extractLsb' (8 * (b - a).toNat) 8 else m b

/-- The general registers, `%rsp` apart. -/
inductive Reg
  | rax | rcx | rdx | rbx | rbp | rsi | rdi | r8 | r9 | r10 | r11 | r12 | r13 | r14 | r15
  deriving DecidableEq

/-- The segment registers that are saved. -/
inductive Seg
  | fs | gs

/-- The registers that are saved. -/
structure Regs where
  gpr : Reg → Word
  fs : BitVec 16
  gs : BitVec 16

/-- A general register gets a value. -/
def Regs.set (r : Regs) (d : Reg) (v : Word) : Regs := { r with gpr := Function.update r.gpr d v }

/-- A segment register. -/
def Regs.seg (r : Regs) : Seg → BitVec 16
  | .fs => r.fs
  | .gs => r.gs

/-- A segment register gets a value. -/
def Regs.setSeg (r : Regs) (v : BitVec 16) : Seg → Regs
  | .fs => { r with fs := v }
  | .gs => { r with gs := v }

/-- The registers of one processor.  `zf` is what the last comparison set; the
    flags that are saved and restored are `rflags`. -/
structure Cpu where
  regs : Regs
  rsp : Word
  rip : Word
  rflags : Word
  cs : BitVec 16
  ss : BitVec 16
  cr3 : Word
  zf : Bool

/-- The processor, and memory. -/
structure Machine extends Cpu where
  mem : Mem

/-- A general register. -/
abbrev Cpu.gpr (c : Cpu) (r : Reg) : Word := c.regs.gpr r

/-- The instructions of the assembly files. -/
inductive Instr
  /-- `pushq %r` -/
  | pushq (r : Reg)
  /-- `pushq $v` -/
  | pushImm (v : Word)
  /-- `push %fs`, which takes eight bytes -/
  | pushSeg (s : Seg)
  /-- `popq %r` -/
  | popq (r : Reg)
  /-- `pop %fs` -/
  | popSeg (s : Seg)
  /-- `subq $n, %rsp` -/
  | subRsp (n : Word)
  /-- `addq $n, %rsp` -/
  | addRsp (n : Word)
  /-- `movq $v, %rsp` -/
  | setRsp (v : Word)
  /-- `leaq n(%r), %rsp` -/
  | leaRsp (n : Word) (r : Reg)
  /-- `movq %rsp, %d` -/
  | getRsp (d : Reg)
  /-- `movq %rsp, a` -/
  | storeRsp (a : Word)
  /-- `movq $v, %d` -/
  | movImm (v : Word) (d : Reg)
  /-- `movq n(%r), %d` -/
  | load (n : Word) (r d : Reg)
  /-- `movq a, %d` -/
  | loadAbs (a : Word) (d : Reg)
  /-- `movl n(%r), %d`, which clears the upper half -/
  | load32 (n : Word) (r d : Reg)
  /-- `movq %r, %cr3` -/
  | setCr3 (r : Reg)
  /-- `cmpl $v, %r` -/
  | cmpl (v : BitVec 32) (r : Reg)
  /-- `jne` out of the sequence -/
  | jne
  | iretq

/-- A value is pushed. -/
def Machine.push (s : Machine) (v : Word) : Machine :=
  { s with rsp := s.rsp - 8, mem := write64 s.mem (s.rsp - 8) v }

/-- `none` leaves the sequence. -/
def step : Instr → Machine → Option Machine
  | .pushq r, s => some (s.push (s.gpr r))
  | .pushImm v, s => some (s.push v)
  | .pushSeg g, s => some (s.push ((s.regs.seg g).setWidth 64))
  | .popq r, s => some { s with regs := s.regs.set r (read64 s.mem s.rsp), rsp := s.rsp + 8 }
  | .popSeg g, s =>
      some { s with regs := s.regs.setSeg ((read64 s.mem s.rsp).setWidth 16) g, rsp := s.rsp + 8 }
  | .subRsp n, s => some { s with rsp := s.rsp - n }
  | .addRsp n, s => some { s with rsp := s.rsp + n }
  | .setRsp v, s => some { s with rsp := v }
  | .leaRsp n r, s => some { s with rsp := s.gpr r + n }
  | .getRsp d, s => some { s with regs := s.regs.set d s.rsp }
  | .storeRsp a, s => some { s with mem := write64 s.mem a s.rsp }
  | .movImm v d, s => some { s with regs := s.regs.set d v }
  | .load n r d, s => some { s with regs := s.regs.set d (read64 s.mem (s.gpr r + n)) }
  | .loadAbs a d, s => some { s with regs := s.regs.set d (read64 s.mem a) }
  | .load32 n r d, s =>
      some { s with regs := s.regs.set d ((read32 s.mem (s.gpr r + n)).setWidth 64) }
  | .setCr3 r, s => some { s with cr3 := s.gpr r }
  | .cmpl v r, s => some { s with zf := (s.gpr r).setWidth 32 == v }
  | .jne, s => if s.zf then some s else none
  | .iretq, s =>
      some { s with
        rip := read64 s.mem s.rsp
        cs := (read64 s.mem (s.rsp + 8)).setWidth 16
        rflags := read64 s.mem (s.rsp + 16)
        rsp := read64 s.mem (s.rsp + 24)
        ss := (read64 s.mem (s.rsp + 32)).setWidth 16 }

/-- A sequence of instructions without jumps. -/
def exec : List Instr → Machine → Option Machine
  | [], s => some s
  | i :: is, s => (step i s).bind (exec is)

/-- The flags that an interrupt gate clears. -/
def gateFlags : Word := 0x34300

/-- An exception from an application: the processor changes to the kernel's
    stack and leaves there what `iretq` takes, and an error code where the
    exception has one. -/
def deliver (rsp0 handler : Word) (cs : BitVec 16) (err : Option Word) (s : Machine) : Machine :=
  let t : Machine := { s with
    rsp := rsp0 &&& ~~~15, rip := handler, rflags := s.rflags &&& ~~~gateFlags, cs := cs, ss := 0 }
  let f := ((((t.push (s.ss.setWidth 64)).push s.rsp).push s.rflags).push (s.cs.setWidth 64)).push
    s.rip
  match err with
  | some e => f.push e
  | none => f

/-- The `syscall` instruction, `rip` being the address after it.  The stack
    pointer stays. -/
def syscallInstr (lstar fmask : Word) (cs ss : BitVec 16) (s : Machine) : Machine :=
  { s with
    regs := (s.regs.set .rcx s.rip).set .r11 s.rflags
    rip := lstar, rflags := s.rflags &&& ~~~fmask, cs := cs, ss := ss }

/-! ## Memory -/

variable {m : Mem} {a b v w : Word} {ws : List (Option Word)} {s : Machine}

/-- A word is its two halves. -/
theorem read64_halves : read64 m a = read32 m (a + 4) ++ read32 m a := by
  rw [read64, read32, read32, BitVec.add_assoc, BitVec.add_assoc, BitVec.add_assoc]
  simp only [BitVec.reduceAdd]
  refine BitVec.eq_of_getLsbD_eq ?_
  intro i hi
  simp only [BitVec.getLsbD_append]
  grind

/-- The halves of a word. -/
theorem halves_of_read64 {x y : BitVec 32} (h : read64 m a = x ++ y) :
    read32 m (a + 4) = x ∧ read32 m a = y := by
  rw [read64_halves] at h
  have hlow : read32 m a = y := by
    have := congrArg (BitVec.setWidth 32) h
    rwa [BitVec.setWidth_append_eq_right, BitVec.setWidth_append_eq_right] at this
  rw [hlow] at h
  exact ⟨(BitVec.append_left_inj _).mp h, hlow⟩

/-- What has been written is read back. -/
theorem read64_write64_same : read64 (write64 m a v) a = v := by
  have hbyte : ∀ k : Word, k.toNat < 8 → write64 m a v (a + k) = v.extractLsb' (8 * k.toNat) 8 := by
    intro k hk
    rw [write64, BitVec.add_comm, BitVec.add_sub_cancel, if_pos hk]
  have h0 := hbyte 0#64 (by decide)
  rw [BitVec.add_zero] at h0
  rw [read64, hbyte 7 (by decide), hbyte 6 (by decide), hbyte 5 (by decide), hbyte 4 (by decide),
    hbyte 3 (by decide), hbyte 2 (by decide), hbyte 1 (by decide), h0]
  refine BitVec.eq_of_getLsbD_eq ?_
  intro i hi
  simp only [BitVec.getLsbD_append, BitVec.getLsbD_extractLsb']
  grind

/-- A word that lies apart keeps its value. -/
theorem read64_write64_ne (hge : 8 ≤ (b - a).toNat) (hle : (b - a).toNat + 8 ≤ 2 ^ 64) :
    read64 (write64 m a v) b = read64 m b := by
  have hbyte : ∀ k : Word, k.toNat < 8 → write64 m a v (b + k) = m (b + k) := by
    intro k hk
    rw [write64, if_neg]
    rw [show b + k - a = (b - a) + k by rw [BitVec.sub_eq_add_neg, BitVec.sub_eq_add_neg,
      BitVec.add_assoc, BitVec.add_comm k, ← BitVec.add_assoc], BitVec.toNat_add]
    omega
  have h0 := hbyte 0#64 (by decide)
  rw [BitVec.add_zero] at h0
  rw [read64, read64, hbyte 7 (by decide), hbyte 6 (by decide), hbyte 5 (by decide),
    hbyte 4 (by decide), hbyte 3 (by decide), hbyte 2 (by decide), hbyte 1 (by decide), h0]

/-- The words from `a` on; `none` is a word that is left open. -/
def Stacked (m : Mem) : Word → List (Option Word) → Prop
  | _, [] => True
  | a, w :: ws => (∀ v, w = some v → read64 m a = v) ∧ Stacked m (a + 8) ws

/-- A write outside the stack keeps it. -/
theorem Stacked.write (h : Stacked m a ws) (hge : 8 ≤ (a - b).toNat)
    (hle : (a - b).toNat + 8 * ws.length ≤ 2 ^ 64) : Stacked (write64 m b v) a ws := by
  induction ws generalizing a with
  | nil => trivial
  | cons w ws ih =>
      rw [List.length_cons] at hle
      refine ⟨fun u hu => ?_, ?_⟩
      · rw [read64_write64_ne hge (by omega)]
        exact h.1 u hu
      · cases ws with
        | nil => trivial
        | cons w' ws =>
            rw [List.length_cons] at hle
            have hnext : (a + 8 - b).toNat = (a - b).toNat + 8 := by
              rw [show a + 8 - b = (a - b) + 8 by rw [BitVec.sub_eq_add_neg, BitVec.sub_eq_add_neg,
                BitVec.add_assoc, BitVec.add_comm 8, ← BitVec.add_assoc], BitVec.toNat_add,
                show (8 : Word).toNat = 8 from rfl]
              exact Nat.mod_eq_of_lt (by omega)
            exact ih h.2 (by omega) (by rw [hnext, List.length_cons]; omega)

/-- A push puts its value in front. -/
theorem Stacked.push (h : Stacked m a ws) (hlen : 8 * (ws.length + 1) ≤ 2 ^ 64) :
    Stacked (write64 m (a - 8) v) (a - 8) (some v :: ws) := by
  refine ⟨fun u hu => ?_, ?_⟩
  · rw [read64_write64_same]
    exact Option.some.inj hu
  · rw [BitVec.sub_add_cancel]
    have hd : (a - (a - 8)).toNat = 8 := by bv_omega
    exact h.write (by omega) (by omega)

/-- Moving the stack pointer down leaves a word unknown. -/
theorem Stacked.skip (h : Stacked m a ws) : Stacked m (a - 8) (none :: ws) := by
  constructor
  · intro u hu
    cases hu
  · rw [BitVec.sub_add_cancel]
    exact h

/-- A slot that is skipped keeps what it had. -/
theorem Stacked.keep (h : Stacked m a ws) (hv : read64 m (a - 8) = v) :
    Stacked m (a - 8) (some v :: ws) := by
  refine ⟨fun u hu => hv.trans (Option.some.inj hu), ?_⟩
  rw [BitVec.sub_add_cancel]
  exact h

/-- Moving it up drops words. -/
theorem Stacked.drop (h : Stacked m a ws) (n : Nat) :
    Stacked m (a + BitVec.ofNat 64 (8 * n)) (ws.drop n) := by
  induction n generalizing a ws with
  | zero =>
      rw [show BitVec.ofNat 64 (8 * 0) = 0#64 from rfl, BitVec.add_zero]
      exact h
  | succ n ih =>
      cases ws with
      | nil => trivial
      | cons w ws =>
          have := ih h.2
          rwa [BitVec.add_assoc, show (8 : Word) + BitVec.ofNat 64 (8 * n)
            = BitVec.ofNat 64 (8 * (n + 1)) by
              rw [show (8 : Word) = BitVec.ofNat 64 8 from rfl, ← BitVec.ofNat_add]
              congr 1
              omega] at this

/-- The words of the stack. -/
theorem Stacked.get (h : Stacked m a ws) (i : Nat) (hi : ws[i]? = some (some v)) :
    read64 m (a + BitVec.ofNat 64 (8 * i)) = v := by
  have hd := h.drop i
  obtain ⟨hlt, heq⟩ := List.getElem?_eq_some_iff.mp hi
  rw [List.drop_eq_getElem_cons hlt, heq] at hd
  exact hd.1 v rfl

/-! ## Runs of pushes and pops -/

/-- Code runs in sequence. -/
theorem exec_append (is js : List Instr) (s : Machine) :
    exec (is ++ js) s = (exec is s).bind (exec js) := by
  induction is generalizing s with
  | nil => rfl
  | cons i is ih =>
      rw [List.cons_append, exec, exec]
      cases step i s with
      | none => rfl
      | some t => exact ih t

@[simp] theorem Regs.set_same (r : Regs) (d : Reg) (v : Word) : (r.set d v).gpr d = v :=
  Function.update_self ..

@[simp] theorem Regs.set_ne (r : Regs) {c d : Reg} (v : Word) (h : c ≠ d) :
    (r.set d v).gpr c = r.gpr c :=
  Function.update_of_ne h ..

/-- A check of a field, after a load of it. -/
theorem exec_check (n : Word) (c d : Reg) (x : BitVec 32) (s : Machine) :
    exec [.load32 n c d, .cmpl x d, .jne] s
      = if read32 s.mem (s.gpr c + n) = x then
          some { s with regs := s.regs.set d (x.setWidth 64), zf := true }
        else none := by
  have hback : ∀ y : BitVec 32, (y.setWidth 64).setWidth 32 = y := by
    intro y
    rw [BitVec.setWidth_setWidth_of_le _ (by decide), BitVec.setWidth_eq]
  simp only [exec, step, Option.bind_some, Cpu.gpr, Regs.set_same, hback]
  by_cases h : read32 s.mem (s.regs.gpr c + n) = x
  · rw [if_pos h, h, beq_self_eq_true]
    rfl
  · rw [if_neg h, beq_false_of_ne h]
    rfl

/-- The instructions that take eight bytes of stack. -/
def Instr.isPush : Instr → Bool
  | .pushq _ | .pushImm _ | .pushSeg _ => true
  | .subRsp n => n == 8
  | _ => false

/-- What they leave there. -/
def Instr.pushed (r : Regs) : Instr → Option Word
  | .pushq d => some (r.gpr d)
  | .pushImm v => some v
  | .pushSeg g => some ((r.seg g).setWidth 64)
  | _ => none

/-- An instruction that pushes a word. -/
theorem step_push {i : Instr} (hi : i.isPush = true) (h : Stacked s.mem s.rsp ws)
    (hlen : 8 * (ws.length + 1) ≤ 2 ^ 64) :
    ∃ m, step i s = some { s with rsp := s.rsp - 8, mem := m }
      ∧ Stacked m (s.rsp - 8) (i.pushed s.regs :: ws) := by
  cases i with
  | pushq r => exact ⟨_, rfl, h.push hlen⟩
  | pushImm v => exact ⟨_, rfl, h.push hlen⟩
  | pushSeg g => exact ⟨_, rfl, h.push hlen⟩
  | subRsp n =>
      obtain rfl : n = 8 := eq_of_beq hi
      exact ⟨s.mem, rfl, h.skip⟩
  | _ => cases hi

/-- A sequence of pushes. -/
theorem exec_pushes (is : List Instr) (his : ∀ i ∈ is, i.isPush = true)
    (h : Stacked s.mem s.rsp ws) (hlen : 8 * (ws.length + is.length) ≤ 2 ^ 64) :
    ∃ v, exec is s = some v ∧ v.regs = s.regs ∧ v.rsp = s.rsp - BitVec.ofNat 64 (8 * is.length)
      ∧ Stacked v.mem v.rsp ((is.map (Instr.pushed s.regs)).reverse ++ ws) := by
  induction is generalizing s ws with
  | nil => exact ⟨s, rfl, rfl, (BitVec.sub_zero _).symm, h⟩
  | cons i is ih =>
      rw [List.length_cons] at hlen
      obtain ⟨m, hstep, hm⟩ := step_push (his i List.mem_cons_self) h (by omega)
      obtain ⟨v, hexec, hregs, hrsp, hv⟩ := ih (s := { s with rsp := s.rsp - 8, mem := m })
        (fun j hj => his j (List.mem_cons_of_mem _ hj)) hm (by rw [List.length_cons]; omega)
      refine ⟨v, ?_, hregs, ?_, ?_⟩
      · rw [exec, hstep]
        exact hexec
      · rw [hrsp, List.length_cons]
        bv_omega
      · rw [List.map_cons, List.reverse_cons, List.append_assoc]
        exact hv

/-- The instructions that take eight bytes off the stack. -/
def Instr.isPop : Instr → Bool
  | .popq _ | .popSeg _ => true
  | _ => false

/-- What they do with them. -/
def Instr.popped (r : Regs) (v : Word) : Instr → Regs
  | .popq d => r.set d v
  | .popSeg g => r.setSeg (v.setWidth 16) g
  | _ => r

/-- The registers after a run of pops. -/
def restore (r : Regs) : List Instr → List Word → Regs
  | i :: is, v :: vs => restore (i.popped r v) is vs
  | _, _ => r

/-- An instruction that pops a word. -/
theorem step_pop {i : Instr} (hi : i.isPop = true) (h : Stacked s.mem s.rsp (some v :: ws)) :
    step i s = some { s with regs := i.popped s.regs v, rsp := s.rsp + 8 } := by
  have hv := h.1 v rfl
  cases i with
  | popq r => rw [step, hv]; rfl
  | popSeg g => rw [step, hv]; rfl
  | _ => cases hi

/-- A sequence of pops gives the registers back. -/
theorem exec_pops (is : List Instr) {vs : List Word} (his : ∀ i ∈ is, i.isPop = true)
    (h : Stacked s.mem s.rsp (vs.map some ++ ws)) (hlen : vs.length = is.length) :
    ∃ v, exec is s = some v ∧ v.regs = restore s.regs is vs ∧ v.cr3 = s.cr3
      ∧ Stacked v.mem v.rsp ws := by
  induction is generalizing s vs with
  | nil =>
      obtain rfl := List.length_eq_zero_iff.mp hlen
      exact ⟨s, rfl, rfl, rfl, h⟩
  | cons i is ih =>
      obtain ⟨v, vs, rfl⟩ := List.exists_cons_of_length_eq_add_one hlen
      obtain ⟨w, hexec, hw⟩ := ih
        (s := { s with regs := i.popped s.regs v, rsp := s.rsp + 8 })
        (fun j hj => his j (List.mem_cons_of_mem _ hj)) h.2 (Nat.succ.inj hlen)
      refine ⟨w, ?_, hw⟩
      rw [exec, step_pop (his i List.mem_cons_self) h]
      exact hexec

/-- A stack pointer that is stored before the stack changes stays in the slot
    that the first push leaves for it. -/
theorem exec_stash (a top x : Word) (s : Machine) (ha : top - 8 - 8 = a) :
    ∃ v, exec [.storeRsp a, .setRsp top, .pushImm x, .subRsp 8] s = some v ∧ v.regs = s.regs
      ∧ v.rsp = a ∧ Stacked v.mem v.rsp [some s.rsp, some x] := by
  have h0 : Stacked (write64 s.mem a s.rsp) top [] := trivial
  have h1 := h0.push (v := x) (by simp)
  refine ⟨_, rfl, rfl, ha, h1.keep ?_⟩
  rw [ha, read64_write64_ne (by bv_omega) (by bv_omega), read64_write64_same]

/-- `iretq` loads the five words that a delivery leaves. -/
theorem exec_iretq {n rip cs rflags rsp ss : Word}
    (h : Stacked s.mem (s.rsp + n) ([rip, cs, rflags, rsp, ss].map some)) :
    exec [.addRsp n, .iretq] s = some { s with
      rip := rip, cs := cs.setWidth 16, rflags := rflags, rsp := rsp, ss := ss.setWidth 16 } := by
  have h0 : read64 s.mem (s.rsp + n) = rip := h.1 _ rfl
  have h1 : read64 s.mem (s.rsp + n + 8) = cs := h.get 1 rfl
  have h2 : read64 s.mem (s.rsp + n + 16) = rflags := h.get 2 rfl
  have h3 : read64 s.mem (s.rsp + n + 24) = rsp := h.get 3 rfl
  have h4 : read64 s.mem (s.rsp + n + 32) = ss := h.get 4 rfl
  rw [← h0, ← h1, ← h2, ← h3, ← h4]
  rfl

/-- What a delivery leaves. -/
theorem deliver_stacked (rsp0 handler : Word) (cs : BitVec 16) (err : Option Word)
    (hrsp0 : rsp0 &&& ~~~15 = rsp0) :
    ∃ m rsp, deliver rsp0 handler cs err s
        = { s with
            rsp := rsp, rip := handler, rflags := s.rflags &&& ~~~gateFlags, cs := cs, ss := 0
            mem := m }
      ∧ Stacked m rsp (((err.toList ++ [s.rip, s.cs.setWidth 64, s.rflags, s.rsp,
          s.ss.setWidth 64]).map some)) := by
  have h0 : Stacked s.mem rsp0 [] := trivial
  have h1 := h0.push (v := s.ss.setWidth 64) (by simp)
  have h2 := h1.push (v := s.rsp) (by simp)
  have h3 := h2.push (v := s.rflags) (by simp)
  have h4 := h3.push (v := s.cs.setWidth 64) (by simp)
  have h5 := h4.push (v := s.rip) (by simp)
  cases err with
  | none =>
      refine ⟨_, _, rfl, ?_⟩
      rw [hrsp0]
      exact h5
  | some e =>
      refine ⟨_, _, rfl, ?_⟩
      rw [hrsp0]
      exact h5.push (by simp)

end X86Stack
