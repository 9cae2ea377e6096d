import Cs61.KernelLoop
import Cs61.RoundRobin

/-! # Invariants of the kernel

    What holds of the process table, the page counts and the scheduler's loop
    in every state of every run (`Inv.steps`). -/

namespace KernelLoop

open PhysPages KernelEntry
open PageTable (Word)

variable {b : Boot} {s s' s'' : Sys} {c c' : Config} {a : Action} {data : Option UInt8}
variable {regs : Regstate} {mem : Nat → UInt8} {pid : Nat} {spins : BitVec 32} {mode : Mode}

/-! ## What holds in every state -/

/-- An assignment that leaves the identity of a process alone, and does not wake it. -/
structure Tame (f : Proc → Proc) : Prop where
  pid : ∀ p, (f p).pid = p.pid
  pagetable : ∀ p, (f p).pagetable = p.pagetable
  state : ∀ p, (f p).state = p.state ∨ (f p).state = P_FAULTED

/-- One change of a process after the other. -/
theorem Tame.comp {f g : Proc → Proc} (hf : Tame f) (hg : Tame g) : Tame (f ∘ g) := by
  refine ⟨fun p => (hf.pid _).trans (hg.pid p), fun p => (hf.pagetable _).trans (hg.pagetable p), ?_⟩
  intro p
  rcases hf.state (g p) with h | h
  · rw [Function.comp_apply, h]
    exact hg.state p
  · exact Or.inr h

theorem tame_id : Tame id := ⟨fun _ => rfl, fun _ => rfl, fun _ => Or.inl rfl⟩

/-- The registers of a process may change. -/
theorem tame_withRegs (regs : Regstate) : Tame (withRegs regs) :=
  ⟨fun _ => rfl, fun _ => rfl, fun _ => Or.inl rfl⟩

/-- So may its result. -/
theorem tame_yielded : Tame yielded := ⟨fun _ => rfl, fun _ => rfl, fun _ => Or.inl rfl⟩

/-- A process may fault. -/
theorem tame_faulted : Tame faulted := ⟨fun _ => rfl, fun _ => rfl, fun _ => Or.inr rfl⟩

/-- Two changes of one process. -/
theorem setProc_setProc (s : Sys) (pid : Nat) (f g : Proc → Proc) :
    ((s.setProc pid g).setProc pid f).kernel.ptable = (s.setProc pid (f ∘ g)).kernel.ptable := by
  funext q
  by_cases h : q = pid
  · rw [h, setProc_ptable_same, setProc_ptable_same, setProc_ptable_same]
    rfl
  · rw [setProc_ptable_ne _ _ h, setProc_ptable_ne _ _ h, setProc_ptable_ne _ _ h]

theorem setProc_id (s : Sys) (pid : Nat) : (s.setProc pid id).kernel.ptable = s.kernel.ptable := by
  funext q
  show (if q = pid then s.kernel.ptable q else s.kernel.ptable q) = s.kernel.ptable q
  rw [ite_self]

/-- A step writes to the entry of `current`, if to any. -/
theorem Outcome.proc (h : Outcome b c a c') : ∃ f, Tame f
    ∧ c'.sys.kernel.ptable = (c.sys.setProc c.sys.current f).kernel.ptable := by
  have hbase : ∃ f, Tame f
      ∧ (base c a).kernel.ptable = (c.sys.setProc c.sys.current f).kernel.ptable := by
    cases a with
    | exception mem regs data => exact ⟨_, tame_withRegs regs, rfl⟩
    | syscall mem regs data => exact ⟨_, tame_withRegs regs, rfl⟩
    | pass data => exact ⟨_, tame_id, (setProc_id c.sys c.sys.current).symm⟩
  cases h with
  | @timer _ _ regs _ _ _ _ hq => exact ⟨_, tame_withRegs regs, hq.ptable⟩
  | @fault _ _ regs _ _ _ _ _ hq =>
      exact ⟨_, tame_faulted.comp (tame_withRegs regs),
        hq.ptable.trans (setProc_setProc c.sys c.sys.current faulted (withRegs regs))⟩
  | @getpid _ _ regs _ _ _ _ hq => exact ⟨_, tame_withRegs regs, hq.ptable⟩
  | @yield _ _ regs _ _ _ _ hq =>
      exact ⟨_, tame_yielded.comp (tame_withRegs regs),
        hq.ptable.trans (setProc_setProc c.sys c.sys.current yielded (withRegs regs))⟩
  | @alloc _ _ regs _ _ _ _ _ hq _ hs =>
      refine ⟨_, tame_withRegs regs, ?_⟩
      rw [hs]
      exact hq.ptable
  | dispatch hmode hr hs hm =>
      refine ⟨_, tame_id, ?_⟩
      rw [hs, setProc_id]
  | idle hmode hr hq hm =>
      refine ⟨_, tame_id, ?_⟩
      rw [hq.ptable, setProc_id]
  | quit hq hm =>
      obtain ⟨f, hf, hbase⟩ := hbase
      exact ⟨f, hf, hq.ptable.trans hbase⟩
  | fail hwhy hq hm =>
      obtain ⟨f, hf, hbase⟩ := hbase
      exact ⟨f, hf, hq.ptable.trans hbase⟩

/-- What holds of the process table, and of the page counts. -/
structure Table (b : Boot) (s : Sys) : Prop where
  pids : ∀ i < MAXNPROC, (s.kernel.ptable i).pid = i
  zero : (s.kernel.ptable 0).state = P_FREE
  states : ∀ i < MAXNPROC, (s.kernel.ptable i).state = P_FREE
    ∨ (s.kernel.ptable i).state = P_RUNNABLE ∨ (s.kernel.ptable i).state = P_FAULTED
  tables : ∀ i < MAXNPROC, (s.kernel.ptable i).state ≠ P_FREE →
    (s.kernel.ptable i).pagetable = b.site.addr
  current : s.current < MAXNPROC
  live : (s.kernel.ptable s.current).state ≠ P_FREE
  counts : ∀ q, s.kernel.physpages q = 0 ∨ s.kernel.physpages q = 1

/-- The slot is runnable. -/
def Runnable (s : Sys) (i : Nat) : Prop := (s.kernel.ptable i).state = P_RUNNABLE

/-- **THE INVARIANT** of the kernel. -/
structure Inv (b : Boot) (c : Config) : Prop extends Table b c.sys where
  running : Running c
  passed : ∀ pid spins, c.mode = .spinning pid spins →
    RoundRobin.Passed MAXNPROC (Runnable c.sys) c.sys.current pid

/-- A process that can be run has a slot. -/
theorem runnable_not_free {p : Proc} (h : p.state = P_RUNNABLE) : p.state ≠ P_FREE := by
  rw [h]
  decide

/-- A free page that is taken counts once. -/
theorem incr_le_one {physpages : Nat → UInt8} {q : Nat}
    (h : ∀ q, physpages q = 0 ∨ physpages q = 1) (hq : physpages q = 0) (p : Nat) :
    incr physpages q p = 0 ∨ incr physpages q p = 1 := by
  rw [incr]
  split
  · rename_i heq
    rw [heq, hq]
    exact Or.inr rfl
  · exact h p

/-- The viewer keeps counts at most one. -/
theorem Quiet.usage (h : Quiet b s s')
    (hs : ∀ q, s.kernel.physpages q = 0 ∨ s.kernel.physpages q = 1) (q : Nat) :
    s'.kernel.physpages q = 0 ∨ s'.kernel.physpages q = 1 := by
  rcases h.pages with ⟨hpages, -⟩ | ⟨-, r, ⟨-, hfree, -⟩, hpages, -⟩
  · rw [hpages]
    exact hs q
  · rw [hpages]
    exact incr_le_one hs (isFree_iff.mp hfree).2 q

/-- So does every step. -/
theorem Outcome.usage (h : Outcome b c a c')
    (hs : ∀ q, c.sys.kernel.physpages q = 0 ∨ c.sys.kernel.physpages q = 1) (q : Nat) :
    c'.sys.kernel.physpages q = 0 ∨ c'.sys.kernel.physpages q = 1 := by
  have hbase : ∀ q, (base c a).kernel.physpages q = 0 ∨ (base c a).kernel.physpages q = 1 := by
    cases a with
    | exception mem regs data => exact hs
    | syscall mem regs data => exact hs
    | pass data => exact hs
  cases h with
  | timer hmode hi hq hm => exact hq.usage hs q
  | fault hmode hi hu hq hm => exact hq.usage hs q
  | getpid hmode ha hq hm => exact hq.usage hs q
  | yield hmode ha hq hm => exact hq.usage hs q
  | alloc hmode ha hq hok hs' hm =>
      rw [hs']
      rcases hok with h | h | ⟨-, -, hfree, -⟩
      · rw [ha] at h
        exact absurd h (by decide)
      · rw [ha] at h
        exact absurd h (by decide)
      · exact incr_le_one (hq.usage hs) hfree q
  | dispatch hmode hr hs' hm =>
      rw [hs']
      exact hs q
  | idle hmode hr hq hm => exact hq.usage hs q
  | quit hq hm => exact hq.usage hbase q
  | fail hwhy hq hm => exact hq.usage hbase q

/-- Who is current, and how one comes to be. -/
theorem Outcome.current (h : Outcome b c a c') :
    c'.sys.current = c.sys.current
      ∨ ∃ pid spins, c.mode = .spinning pid spins ∧ Runnable c.sys (next pid)
          ∧ c'.sys = { c.sys with current := next pid } := by
  cases h with
  | timer hmode hi hq hm => exact Or.inl hq.current
  | fault hmode hi hu hq hm => exact Or.inl hq.current
  | getpid hmode ha hq hm => exact Or.inl hq.current
  | yield hmode ha hq hm => exact Or.inl hq.current
  | alloc hmode ha hq hok hs hm =>
      rw [hs]
      exact Or.inl hq.current
  | dispatch hmode hr hs hm => exact Or.inr ⟨_, _, hmode, hr, hs⟩
  | idle hmode hr hq hm => exact Or.inl hq.current
  | quit hq hm =>
      refine Or.inl (hq.current.trans ?_)
      cases a <;> rfl
  | fail hwhy hq hm =>
      refine Or.inl (hq.current.trans ?_)
      cases a <;> rfl

/-- The next process is one. -/
theorem next_lt (pid : Nat) : next pid < MAXNPROC := Nat.mod_lt _ (by decide)

/-- The entries of the table after a step. -/
theorem Outcome.entry (ho : Outcome b c a c') (i : Nat) :
    (c'.sys.kernel.ptable i).pid = (c.sys.kernel.ptable i).pid
      ∧ (c'.sys.kernel.ptable i).pagetable = (c.sys.kernel.ptable i).pagetable
      ∧ ((c'.sys.kernel.ptable i).state = (c.sys.kernel.ptable i).state
        ∨ i = c.sys.current ∧ (c'.sys.kernel.ptable i).state = P_FAULTED) := by
  obtain ⟨f, hf, htable⟩ := ho.proc
  rw [htable]
  by_cases hi : i = c.sys.current
  · rw [hi, setProc_ptable_same]
    refine ⟨hf.pid _, hf.pagetable _, ?_⟩
    rcases hf.state (c.sys.kernel.ptable c.sys.current) with h | h
    · exact Or.inl h
    · exact Or.inr ⟨rfl, h⟩
  · rw [setProc_ptable_ne _ _ hi]
    exact ⟨rfl, rfl, Or.inl rfl⟩

/-- A step changes no other process. -/
theorem Outcome.others (ho : Outcome b c a c') {i : Nat} (hi : i ≠ c.sys.current) :
    c'.sys.kernel.ptable i = c.sys.kernel.ptable i := by
  obtain ⟨f, -, htable⟩ := ho.proc
  rw [htable, setProc_ptable_ne _ _ hi]

/-- No process is woken up. -/
theorem Outcome.runnable (ho : Outcome b c a c') {i : Nat} (hr : Runnable c'.sys i) :
    Runnable c.sys i := by
  obtain ⟨-, -, hstate⟩ := ho.entry i
  rw [Runnable] at hr ⊢
  rcases hstate with hstate | ⟨-, hstate⟩
  · rw [← hstate, hr]
  · rw [hr] at hstate
    exact absurd hstate (by decide)

/-- The table of processes stays as it should be. -/
theorem Table.step (h : Table b c.sys) (ho : Outcome b c a c') : Table b c'.sys := by
  have hfree : ∀ {i}, (c'.sys.kernel.ptable i).state = P_FREE →
      (c.sys.kernel.ptable i).state = P_FREE := by
    intro i hi
    rcases (ho.entry i).2.2 with hstate | ⟨-, hstate⟩
    · rw [← hstate, hi]
    · rw [hi] at hstate
      exact absurd hstate (by decide)
  refine ⟨?_, ?_, ?_, ?_, ?_, ?_, ho.usage h.counts⟩
  · intro i hi
    rw [(ho.entry i).1, h.pids i hi]
  · -- process 0 is never current
    rcases (ho.entry 0).2.2 with hstate | ⟨hzero, -⟩
    · rw [hstate, h.zero]
    · have hlive := h.live
      rw [← hzero, h.zero] at hlive
      exact absurd rfl hlive
  · intro i hi
    rcases (ho.entry i).2.2 with hstate | ⟨-, hstate⟩
    · rw [hstate]
      exact h.states i hi
    · exact Or.inr (Or.inr hstate)
  · intro i hi hne
    rw [(ho.entry i).2.1]
    refine h.tables i hi fun hz => hne ?_
    rcases (ho.entry i).2.2 with hstate | ⟨hcur, -⟩
    · rw [hstate, hz]
    · exact absurd (hcur ▸ hz) h.live
  · rcases ho.current with hcur | ⟨pid, spins, -, -, hs⟩
    · rw [hcur]
      exact h.current
    · rw [hs]
      exact next_lt pid
  · intro hz
    rcases ho.current with hcur | ⟨pid, spins, -, hr, hs⟩
    · rw [hcur] at hz
      exact h.live (hfree hz)
    · rw [hs] at hz
      exact runnable_not_free hr hz

/-- The invariant, while the scheduler looks for a process. -/
theorem Table.scheduling (h : Table b c.sys) (hm : Scheduling c) : Inv b c := by
  refine { toTable := h, running := ?_, passed := ?_ }
  · intro rax hmode
    rw [Scheduling, hmode] at hm
    cases hm
  · intro pid spins hmode
    rw [Scheduling, hmode, h.pids _ h.current] at hm
    obtain ⟨rfl, -⟩ := Mode.spinning.inj hm
    exact RoundRobin.Passed.refl h.current

/-- The invariant, when the machine has stopped. -/
theorem Table.stopped (h : Table b c.sys) (hm : Stopped c.mode) : Inv b c := by
  refine { toTable := h, running := ?_, passed := ?_ }
  · intro rax hmode
    rw [hmode] at hm
    exact hm.elim
  · intro pid spins hmode
    rw [hmode] at hm
    exact hm.elim

/-- The invariant, while a process runs. -/
theorem Table.user {rax : Option Word} (h : Table b c.sys) (hm : c.mode = .user rax)
    (hr : Runnable c.sys c.sys.current) : Inv b c := by
  refine { toTable := h, running := fun _ _ => hr, passed := ?_ }
  intro pid spins hmode
  rw [hm] at hmode
  cases hmode

/-- A trap saves registers, and changes no state. -/
theorem trapped_state (c : Config) (mem : Nat → UInt8) (regs : Regstate) (i : Nat) :
    ((trapped c mem regs).kernel.ptable i).state = (c.sys.kernel.ptable i).state := by
  show (if i = c.sys.current then withRegs regs (c.sys.kernel.ptable i)
    else c.sys.kernel.ptable i).state = _
  split
  · rfl
  · rfl

/-- A system call that returns leaves its process runnable. -/
theorem Quiet.answered (h : Inv b c) {rax : Option Word} (hmode : c.mode = .user rax)
    (hq : Quiet b (trapped c mem regs) s) : Runnable s s.current := by
  rw [Runnable, hq.ptable, hq.current, trapped_state, trapped_current]
  exact h.running rax hmode

/-- **ONE STEP** keeps the invariant. -/
theorem Inv.step (h : Inv b c) (hs : step b c a = some c') : Inv b c' := by
  have ho := step_outcome h.running hs
  have htable := h.toTable.step ho
  cases ho with
  | timer hmode hi hq hm => exact htable.scheduling hm
  | fault hmode hi hu hq hm => exact htable.scheduling hm
  | getpid hmode ha hq hm => exact htable.user hm (hq.answered h hmode)
  | yield hmode ha hq hm => exact htable.scheduling hm
  | alloc hmode ha hq hok hs' hm =>
      refine htable.user hm ?_
      have hrun := hq.answered h hmode
      rw [hs']
      exact hrun
  | dispatch hmode hr hs' hm =>
      -- a process runs, or the kernel has stopped
      rcases hm with ⟨-, hm⟩ | ⟨-, message, hm⟩
      · refine htable.user hm ?_
        rw [hs']
        exact hr
      · refine htable.stopped ?_
        rw [hm]
        trivial
  | idle hmode hr hq hm =>
      refine { toTable := htable, running := ?_, passed := ?_ }
      · intro rax hmode'
        rw [hm] at hmode'
        cases hmode'
      · -- the loop has passed one more position
        intro pid' spins' hmode'
        rw [hm] at hmode'
        obtain ⟨rfl, -⟩ := Mode.spinning.inj hmode'
        have hpassed := (h.passed _ _ hmode).skip hr
        rw [← hq.current] at hpassed
        refine hpassed.congr ?_
        intro i _ hi
        rw [Runnable, hq.ptable] at hi
        exact hi
  | quit hq hm =>
      refine htable.stopped ?_
      rcases hm with hm | ⟨argument, hm⟩
      · rw [hm]
        trivial
      · rw [hm]
        trivial
  | fail hwhy hq hm => exact htable.stopped hm

/-- **EVERY RUN** keeps the invariant. -/
theorem Inv.steps (h : Inv b c) {acts : List Action} (hs : steps b c acts = some c') : Inv b c' := by
  induction acts generalizing c with
  | nil =>
      obtain rfl := Option.some.inj hs
      exact h
  | cons a acts ih =>
      obtain ⟨c₁, hstep, hrest⟩ := Option.bind_eq_some_iff.mp hs
      exact ih (h.step hstep) hrest

end KernelLoop
