import Cs61.KernelStart

/-! # What processes see of the kernel

    The log of a run lists every trap and every return to a process.  Processes
    see machines of their own: each goes on with the registers it stopped with
    (`log_refines`), waits for at most one turn of every other process
    (`runs_fair`), and is given pages that nobody else has (`pages_accounted`). -/

namespace KernelLoop

open PhysPages ProcessSetup KernelEntry RoundRobin
open PageTable (Word)

/-! ## The log -/

/-- A process enters the kernel, or leaves it. -/
inductive Event where
  | trapped (pid : Nat) (regs : Regstate)
  | called (pid : Nat) (regs : Regstate)
  | resumed (pid : Nat) (regs : Regstate)
  | answered (pid : Nat) (regs : Regstate) (rax : Word)

/-- What the log gets when an action starts: a trap, if it is one. -/
def entered (c : Config) : Action → List Event
  | .exception _ regs _ => [.trapped c.sys.current regs]
  | .syscall _ regs _ => [.called c.sys.current regs]
  | .pass _ => []

/-- What the log gets when it ends: the process that is resumed, if one is. -/
def left (c : Config) : List Event :=
  let regs := (c.sys.kernel.ptable c.sys.current).regs
  match c.mode with
  | .user none => [.resumed c.sys.current regs]
  | .user (some rax) => [.answered c.sys.current regs rax]
  | _ => []

/-- The events of a run. -/
def log (b : Boot) (c : Config) : List Action → List Event
  | [] => []
  | a :: acts =>
      match step b c a with
      | none => []
      | some c' => entered c a ++ left c' ++ log b c' acts

/-! ## Machines of their own -/

/-- One processor for each process, of which one runs at a time. -/
structure Cpus where
  running : Option Nat
  saved : Nat → Regstate

/-- The registers that a call is resumed with. -/
def afterCall (regs : Regstate) : Regstate :=
  if regs.reg_rax = SYSCALL_YIELD then { regs with reg_rax := 0 } else regs

/-- What a process is told. -/
def Answers (pid : Nat) (regs : Regstate) (rax : Word) : Prop :=
  regs.reg_rax = SYSCALL_GETPID ∧ rax = BitVec.ofNat 64 pid
    ∨ regs.reg_rax = SYSCALL_PAGE_ALLOC ∧ rax = 0

/-- A process stops with some registers, and goes on with the same. -/
inductive Cpus.Step : Cpus → Event → Cpus → Prop
  | trapped {m : Cpus} {pid : Nat} {regs : Regstate} (hrun : m.running = some pid) :
      Step m (.trapped pid regs) { running := none, saved := Function.update m.saved pid regs }
  | called {m : Cpus} {pid : Nat} {regs : Regstate} (hrun : m.running = some pid) :
      Step m (.called pid regs)
        { running := none, saved := Function.update m.saved pid (afterCall regs) }
  | resumed {m : Cpus} {pid : Nat} {regs : Regstate} (hrun : m.running = none)
      (hregs : m.saved pid = regs) :
      Step m (.resumed pid regs) { running := some pid, saved := m.saved }
  | answered {m : Cpus} {pid : Nat} {regs : Regstate} {rax : Word} (hrun : m.running = none)
      (hregs : m.saved pid = regs) (hrax : Answers pid regs rax) :
      Step m (.answered pid regs rax) { running := some pid, saved := m.saved }

/-- A run of the abstract machine along a log. -/
inductive Cpus.Steps : Cpus → List Event → Cpus → Prop
  | nil (m : Cpus) : Steps m [] m
  | cons {m m' m'' : Cpus} {e : Event} {L : List Event} (h : Cpus.Step m e m')
      (hs : Steps m' L m'') : Steps m (e :: L) m''

/-- One log after the other. -/
theorem Cpus.Steps.append {m m' m'' : Cpus} {L M : List Event} (h : Cpus.Steps m L m')
    (h' : Cpus.Steps m' M m'') : Cpus.Steps m (L ++ M) m'' := by
  induction h with
  | nil m => exact h'
  | cons hstep _ ih => exact .cons hstep (ih h')

/-- The machines that a kernel state stands for. -/
def cpus (c : Config) : Cpus where
  running :=
    match c.mode with
    | .user _ => some c.sys.current
    | _ => none
  saved := fun pid => (c.sys.kernel.ptable pid).regs

variable {b : Boot} {c c' : Config} {a : Action} {acts : List Action} {s : Sys}
variable {mem : Nat → UInt8} {regs : Regstate} {data : Option UInt8}

/-- A trap saves the registers of one processor. -/
theorem trapped_saved (c : Config) (mem : Nat → UInt8) (regs : Regstate) :
    (fun pid => ((trapped c mem regs).kernel.ptable pid).regs)
      = Function.update (cpus c).saved c.sys.current regs := by
  funext pid
  rw [trapped_ptable]
  by_cases h : pid = c.sys.current
  · rw [h, Function.update_self, setProc_same]
  · rw [Function.update_of_ne h, setProc_ne _ h, cpus]

/-- Nobody is resumed while the scheduler looks for a process. -/
theorem left_scheduling (hm : Scheduling c) : left c = [] := by
  rw [Scheduling] at hm
  rw [left, hm]

/-- Nobody is resumed when the machine has stopped. -/
theorem left_stopped (hm : Stopped c.mode) : left c = [] := by
  rw [left]
  split
  · rename_i hmode
    rw [hmode] at hm
    exact hm.elim
  · rename_i hmode
    rw [hmode] at hm
    exact hm.elim
  · rfl

/-- A trap comes from a process that runs. -/
theorem step_running (hs : step b c a = some c') :
    (∃ rax, c.mode = .user rax) ∨ entered c a = [] := by
  cases a with
  | exception mem regs data =>
      simp only [step] at hs
      split at hs
      · rename_i rax hmode
        exact Or.inl ⟨rax, hmode⟩
      · cases hs
  | syscall mem regs data =>
      simp only [step] at hs
      split at hs
      · rename_i rax hmode
        exact Or.inl ⟨rax, hmode⟩
      · cases hs
  | pass data => exact Or.inr rfl

/-- A call that is answered keeps its registers. -/
theorem answered_regs (hq : Quiet b (trapped c mem regs) s)
    (htable : c'.sys.kernel.ptable = s.kernel.ptable) :
    (fun pid => (c'.sys.kernel.ptable pid).regs)
      = Function.update (cpus c).saved c.sys.current regs := by
  rw [← trapped_saved c mem regs, htable, hq.ptable]

/-- The process gets its answer. -/
theorem left_answered (hq : Quiet b (trapped c mem regs) s) {v : Word}
    (htable : c'.sys.kernel.ptable = s.kernel.ptable) (hcur : c'.sys.current = s.current)
    (hm : c'.mode = .user (some v)) : left c' = [.answered c.sys.current regs v] := by
  have hregs : (c'.sys.kernel.ptable c.sys.current).regs = regs := by
    rw [congrFun (answered_regs hq htable) c.sys.current, Function.update_self]
  have hcurrent : c'.sys.current = c.sys.current := hcur.trans hq.current
  rw [left, hm, hcurrent, hregs]

/-- A kernel that has stopped does nothing for processes any more. -/
theorem stopped_step (hm : Stopped c.mode) (hs : step b c a = some c') :
    Stopped c'.mode ∧ entered c a = [] := by
  have hno : ∀ rax, c.mode ≠ .user rax := by
    intro rax hmode
    rw [hmode] at hm
    exact hm
  rcases step_running hs with ⟨rax, hmode⟩ | hnil
  · exact absurd hmode (hno rax)
  refine ⟨?_, hnil⟩
  cases step_outcome (fun rax hmode => absurd hmode (hno rax)) hs with
  | timer hmode => exact absurd hmode (hno _)
  | fault hmode => exact absurd hmode (hno _)
  | getpid hmode => exact absurd hmode (hno _)
  | yield hmode => exact absurd hmode (hno _)
  | alloc hmode => exact absurd hmode (hno _)
  | dispatch hmode =>
      rw [hmode] at hm
      exact hm.elim
  | idle hmode =>
      rw [hmode] at hm
      exact hm.elim
  | quit hq hm' =>
      rcases hm' with hm' | ⟨argument, hm'⟩ <;> rw [hm'] <;> trivial
  | fail hwhy hq hm' => exact hm'

/-- A machine that has stopped logs nothing. -/
theorem log_stopped (hm : Stopped c.mode) : log b c acts = [] := by
  induction acts generalizing c with
  | nil => rfl
  | cons a acts ih =>
      rw [log]
      cases hs : step b c a with
      | none => rfl
      | some c' =>
          obtain ⟨hstop, hnil⟩ := stopped_step hm hs
          show entered c a ++ left c' ++ log b c' acts = []
          rw [hnil, left_stopped hstop, ih hstop]
          rfl

/-- It stays stopped. -/
theorem steps_stopped (hm : Stopped c.mode) (hs : steps b c acts = some c') : Stopped c'.mode := by
  induction acts generalizing c with
  | nil =>
      obtain rfl := Option.some.inj hs
      exact hm
  | cons a acts ih =>
      obtain ⟨c₁, hstep, hrest⟩ := Option.bind_eq_some_iff.mp hs
      exact ih (stopped_step hm hstep).1 hrest

/-- The log of a run, from its first step on. -/
theorem log_cons (hs : step b c a = some c') :
    log b c (a :: acts) = entered c a ++ left c' ++ log b c' acts := by
  rw [log, hs]

/-- The small run is one. -/
theorem small_runs : ∃ c c', smallStart = some c ∧ steps smallBoot c smallRun = some c' := by
  have hruns : (smallStart.bind fun c => steps smallBoot c smallRun).isSome = true := by
    decide +kernel
  obtain ⟨c', hc'⟩ := Option.isSome_iff_exists.mp hruns
  obtain ⟨c, hc, hrun⟩ := Option.bind_eq_some_iff.mp hc'
  exact ⟨c, c', hc, hrun⟩

/-- The processes that the scheduler picks. -/
def turns (L : List Event) : List Nat :=
  L.filterMap fun
    | .resumed pid _ => some pid
    | _ => none

/-- The turns of two logs. -/
theorem turns_append (L M : List Event) : turns (L ++ M) = turns L ++ turns M :=
  List.filterMap_append

/-- One process is picked, or none. -/
theorem step_turns (h : Inv b c) (hs : step b c a = some c') :
    turns (entered c a ++ left c') = [] ∧ (c'.sys.current = c.sys.current ∨ Stopped c'.mode)
      ∨ turns (entered c a ++ left c') = [c'.sys.current]
        ∧ IsNext MAXNPROC (Runnable c.sys) c.sys.current c'.sys.current := by
  have hentered : turns (entered c a) = [] := by
    cases a <;> rfl
  rw [turns_append, hentered, List.nil_append]
  -- an answer gives nobody else a turn
  have hanswered : ∀ {v : Word}, c'.mode = .user (some v) → turns (left c') = [] := by
    intro v hm
    rw [left, hm]
    rfl
  cases step_outcome h.running hs with
  | timer hmode hi hq hm =>
      rw [left_scheduling hm]
      exact Or.inl ⟨rfl, Or.inl hq.current⟩
  | fault hmode hi hu hq hm =>
      rw [left_scheduling hm]
      exact Or.inl ⟨rfl, Or.inl hq.current⟩
  | getpid hmode ha hq hm => exact Or.inl ⟨hanswered hm, Or.inl hq.current⟩
  | yield hmode ha hq hm =>
      rw [left_scheduling hm]
      exact Or.inl ⟨rfl, Or.inl hq.current⟩
  | alloc hmode ha hq hok hs' hm =>
      refine Or.inl ⟨hanswered hm, Or.inl ?_⟩
      rw [hs']
      exact hq.current
  | dispatch hmode hr hs' hm =>
      -- the process that is found is the next one that can run
      rcases hm with ⟨-, hm⟩ | ⟨-, message, hm⟩
      · refine Or.inr ⟨?_, ?_⟩
        · rw [left, hm]
          rfl
        · rw [hs']
          exact (h.passed _ _ hmode).found hr
      · have hstop : Stopped c'.mode := by
          rw [hm]
          trivial
        rw [left_stopped hstop]
        exact Or.inl ⟨rfl, Or.inr hstop⟩
  | idle hmode hr hq hm =>
      rw [left, hm]
      exact Or.inl ⟨rfl, Or.inl hq.current⟩
  | quit hq hm =>
      have hstop : Stopped c'.mode := by
        rcases hm with hm | ⟨argument, hm⟩ <;> rw [hm] <;> trivial
      rw [left_stopped hstop]
      exact Or.inl ⟨rfl, Or.inr hstop⟩
  | fail hwhy hq hm =>
      rw [left_stopped hm]
      exact Or.inl ⟨rfl, Or.inr hm⟩

/-- Who is runnable was so all the time. -/
theorem steps_runnable (h : Inv b c) (hs : steps b c acts = some c') {i : Nat}
    (hr : Runnable c'.sys i) : Runnable c.sys i := by
  induction acts generalizing c with
  | nil =>
      obtain rfl := Option.some.inj hs
      exact hr
  | cons a acts ih =>
      obtain ⟨c₁, hstep, hrest⟩ := Option.bind_eq_some_iff.mp hs
      exact (step_outcome h.running hstep).runnable (ih (h.step hstep) hrest)

/-- **THE SCHEDULER TAKES TURNS.** -/
theorem log_turns (h : Inv b c) (hs : steps b c acts = some c') {target : Nat}
    (hr : Runnable c'.sys target) :
    Turns MAXNPROC target c.sys.current (turns (log b c acts)) := by
  induction acts generalizing c with
  | nil => exact .nil _
  | cons a acts ih =>
      obtain ⟨c₁, hstep, hrest⟩ := Option.bind_eq_some_iff.mp hs
      have hinv := h.step hstep
      rw [log_cons hstep, turns_append]
      rcases step_turns h hstep with ⟨hnil, hcur | hstop⟩ | ⟨hone, hnext⟩
      · rw [hnil, ← hcur]
        exact ih hinv hrest
      · rw [hnil, log_stopped hstop]
        exact .nil _
      · rw [hone]
        have hstays := (step_outcome h.running hstep).runnable (steps_runnable hinv hrest hr)
        exact .cons hnext hstays (ih hinv hrest)

/-- A pass of the scheduler comes closer to every runnable process. -/
theorem spin_closer (h : Inv b c) {pid pid' target : Nat} {spins spins' : BitVec 32}
    (hmode : c.mode = .spinning pid spins) (hs : step b c (.pass data) = some c')
    (hmode' : c'.mode = .spinning pid' spins') (ht : target < MAXNPROC)
    (hr : Runnable c.sys target) :
    Runnable c'.sys target ∧ ahead MAXNPROC pid target = ahead MAXNPROC pid' target + 1 := by
  have hpid := (h.passed _ _ hmode).1
  cases step_outcome h.running hs with
  | dispatch hmode₁ hr₁ hs' hm =>
      rcases hm with ⟨-, hm⟩ | ⟨-, message, hm⟩
      · rw [hm] at hmode'
        cases hmode'
      · rw [hm] at hmode'
        cases hmode'
  | idle hmode₁ hr₁ hq hm =>
      rw [hmode] at hmode₁
      obtain ⟨rfl, rfl⟩ := Mode.spinning.inj hmode₁
      rw [hm] at hmode'
      obtain ⟨rfl, rfl⟩ := Mode.spinning.inj hmode'
      refine ⟨?_, ?_⟩
      · rw [Runnable, hq.ptable]
        exact hr
      · -- the next position is one step ahead, and not runnable
        have hone : ahead MAXNPROC pid (next pid) = 1 := ahead_succ hpid
        have hpos : 0 < ahead MAXNPROC pid target := ahead_pos hpid
        have hne : ahead MAXNPROC pid target ≠ 1 := by
          intro heq
          have hsame := ahead_inj hpid ht (next_lt pid) (heq.trans hone.symm)
          rw [hsame] at hr
          exact hr₁ hr
        rw [ahead_rest hpid (next_lt pid) ht (by omega), hone]
        omega
  | quit hq hm =>
      rcases hm with hm | ⟨argument, hm⟩ <;> rw [hm] at hmode' <;> cases hmode'
  | fail hwhy hq hm =>
      rw [hmode'] at hm
      exact hm.elim

/-- **THE SCHEDULER IS QUICK**: as long as it spins, it makes fewer passes than there
    are positions up to the next runnable process. -/
theorem spin_bound (h : Inv b c) {pid pid' target : Nat} {spins spins' : BitVec 32}
    {keys : List (Option UInt8)} (hmode : c.mode = .spinning pid spins)
    (hs : steps b c (keys.map .pass) = some c') (hmode' : c'.mode = .spinning pid' spins')
    (ht : target < MAXNPROC) (hr : Runnable c.sys target) :
    keys.length < ahead MAXNPROC pid target := by
  induction keys generalizing c pid spins with
  | nil => exact ahead_pos (h.passed _ _ hmode).1
  | cons data keys ih =>
      obtain ⟨c₁, hstep, hrest⟩ := Option.bind_eq_some_iff.mp hs
      have hrunning : Stopped c₁.mode → False := by
        intro hstop
        have hstop' := steps_stopped hstop hrest
        rw [hmode'] at hstop'
        exact hstop'
      cases hmode₁ : c₁.mode with
      | spinning pid₁ spins₁ =>
          obtain ⟨hr₁, hcloser⟩ := spin_closer h hmode hstep hmode₁ ht hr
          have hlt := ih (h.step hstep) hmode₁ hrest hr₁
          rw [List.length_cons, hcloser]
          exact Nat.succ_lt_succ hlt
      | user rax =>
          -- a process runs, and a pass of the scheduler comes no more
          cases keys with
          | nil =>
              obtain rfl := Option.some.inj hrest
              rw [hmode₁] at hmode'
              cases hmode'
          | cons data' keys =>
              obtain ⟨c₂, hstep₂, -⟩ := Option.bind_eq_some_iff.mp hrest
              simp only [step, hmode₁] at hstep₂
              cases hstep₂
      | failed message => exact (hrunning (hmode₁ ▸ trivial)).elim
      | rebooting argument => exact (hrunning (hmode₁ ▸ trivial)).elim
      | off => exact (hrunning (hmode₁ ▸ trivial)).elim
      | wild => exact (hrunning (hmode₁ ▸ trivial)).elim

/-- **FAIRNESS**: in every run from every state the kernel can reach, a process
    that stays runnable and has no turn sees no other process have two, and the
    scheduler never makes `MAXNPROC` passes in a row while it is runnable. -/
theorem runs_fair {ramimages : List (String × ElfHeader)} {firstProcess : String}
    {command : Option String} {c₀ : Config} {before : List Action}
    (hstart : kernelStart b firstProcess ramimages command mem = some c₀)
    (hreach : steps b c₀ before = some c) {target : Nat} (ht : target < MAXNPROC)
    (hrun : steps b c acts = some c') (hr : Runnable c'.sys target) :
    (target ∉ turns (log b c acts) →
        (turns (log b c acts)).Nodup ∧ (turns (log b c acts)).length < MAXNPROC)
      ∧ ∀ pid spins pid' spins' (keys : List (Option UInt8)) c'', c'.mode = .spinning pid spins →
        steps b c' (keys.map .pass) = some c'' → c''.mode = .spinning pid' spins' →
        keys.length < MAXNPROC := by
  have hinv := (kernelStart_start hstart).inv.steps hreach
  have hinv' := hinv.steps hrun
  refine ⟨(log_turns hinv hrun hr).wait hinv.current ht, ?_⟩
  intro pid spins pid' spins' keys c'' hmode hspin hmode''
  have hle := ahead_le (p := pid) ht
  have hlt := spin_bound hinv' hmode hspin hmode'' ht hr
  omega

/-- A process that waits for its second turn. -/
theorem runs_fair_small : ∃ c c', smallStart = some c
    ∧ steps smallBoot c (smallRun.take 12) = some c'
    ∧ (1 ∉ turns (log smallBoot c (smallRun.take 12)) →
        (turns (log smallBoot c (smallRun.take 12))).Nodup
          ∧ (turns (log smallBoot c (smallRun.take 12))).length < MAXNPROC) := by
  have hruns : (smallStart.bind fun c => (steps smallBoot c (smallRun.take 12)).bind fun c' =>
      if (c'.sys.kernel.ptable 1).state = P_RUNNABLE then some c' else none).isSome = true := by
    decide +kernel
  obtain ⟨c₁, hc₁⟩ := Option.isSome_iff_exists.mp hruns
  obtain ⟨c, hc, hrest⟩ := Option.bind_eq_some_iff.mp hc₁
  obtain ⟨c', hrun, hrest⟩ := Option.bind_eq_some_iff.mp hrest
  split at hrest
  · rename_i hr
    have hnow : steps smallBoot c [] = some c := rfl
    have hone : 1 < MAXNPROC := by decide
    have hfair := runs_fair hc hnow hone hrun hr
    exact ⟨c, c', hc, hrun, hfair.1⟩
  · cases hrest

/-! ## Pages -/

/-- The pages that processes are given. -/
def granted (L : List Event) : List Nat :=
  L.filterMap fun
    | .answered _ regs _ =>
        if regs.reg_rax = SYSCALL_PAGE_ALLOC then some (regs.reg_rdi.toNat / PAGESIZE) else none
    | _ => none

/-- The pages that are granted in two logs. -/
theorem granted_append (L M : List Event) : granted (L ++ M) = granted L ++ granted M :=
  List.filterMap_append

/-- A page that is asked for is granted. -/
theorem granted_alloc (pid : Nat) (regs : Regstate) (v : Word)
    (h : regs.reg_rax = SYSCALL_PAGE_ALLOC) :
    granted [.answered pid regs v] = [regs.reg_rdi.toNat / PAGESIZE] := by
  simp [granted, h]

/-- Other calls grant nothing. -/
theorem granted_other (pid : Nat) (regs : Regstate) (v : Word)
    (h : regs.reg_rax ≠ SYSCALL_PAGE_ALLOC) : granted [.answered pid regs v] = [] := by
  simp [granted, h]

/-- The page of the memory viewer. -/
def viewerPages (s : Sys) : List Nat := s.v.toList.map (· / PAGESIZE)

/-- The processes that `kernel_start` sets up, with the names of their images. -/
def bootProcesses (ramimages : List (String × ElfHeader)) (command : String) :
    List (Nat × String) :=
  if isEmpty ((programImage ramimages command).getD none) then
    [(1, "allocator"), (2, "allocator2"), (3, "allocator3"), (4, "allocator4")]
  else [(1, command)]

/-- The pages of a process that is set up: those of the segments of its image and
    that of its stack. -/
def imagePages (ramimages : List (String × ElfHeader)) (p : Nat × String) : List Nat :=
  setupPages ((programImage ramimages p.2).getD none) p.1

/-- The pages of all images and stacks. -/
def bootPages (ramimages : List (String × ElfHeader)) (command : String) : List Nat :=
  (bootProcesses ramimages command).flatMap (imagePages ramimages)

/-- The segments of every image fit into the memory of processes. -/
def Fitting (ramimages : List (String × ElfHeader)) : Prop :=
  ∀ r ∈ ramimages, ∀ ph ∈ loads r.2.programs, Loadable ph

/-- The pages of `R` and that of the viewer are taken, each once. -/
def Accounted (s : Sys) (R : List Nat) : Prop :=
  PhysPages.Inv { state := s.kernel, granted := viewerPages s ++ R }

/-- Only counts and the viewer's page matter. -/
theorem Accounted.congr {s s' : Sys} {R : List Nat} (h : Accounted s R)
    (hpages : s'.kernel.physpages = s.kernel.physpages) (hv : s'.v = s.v) : Accounted s' R := by
  refine ⟨?_, ?_⟩
  · intro q
    show s'.kernel.physpages q = if q ∈ viewerPages s' ++ R then 1 else 0
    rw [hpages, viewerPages, hv]
    exact h.counts q
  · show (viewerPages s' ++ R).Nodup
    rw [viewerPages, hv]
    exact h.once

/-- The viewer's page is counted. -/
theorem Accounted.quiet {s s' : Sys} {R : List Nat} (h : Accounted s R) (hq : Quiet b s s') :
    Accounted s' R := by
  rcases hq.pages with ⟨hpages, hv⟩ | ⟨hnone, q, ⟨-, hfree, -⟩, hpages, hv⟩
  · exact h.congr hpages hv
  · -- the viewer takes a page that was free
    have hbefore : viewerPages s = [] := by
      rw [viewerPages, hnone]
      rfl
    have hafter : viewerPages s' = [q] := by
      rw [viewerPages, hv]
      show [q * PAGESIZE / PAGESIZE] = [q]
      rw [Nat.mul_div_cancel _ (by decide)]
    rw [Accounted, hbefore] at h
    rw [Accounted, hafter]
    exact h.grant (isFree_iff.mp hfree).2 hpages

/-- A page that is granted is counted. -/
theorem Accounted.zeroPage {s : Sys} {R : List Nat} {addr : Nat} (h : Accounted s R)
    (hfree : s.kernel.physpages (addr / PAGESIZE) = 0) :
    Accounted (zeroPage addr s) (addr / PAGESIZE :: R) := by
  have hinv := PhysPages.Inv.grant h hfree (s := (KernelLoop.zeroPage addr s).kernel) rfl
  have hperm : (addr / PAGESIZE :: (viewerPages s ++ R)).Perm
      (viewerPages s ++ addr / PAGESIZE :: R) := List.perm_middle.symm
  refine ⟨?_, hperm.nodup_iff.mp hinv.once⟩
  intro q
  rw [hinv.counts q]
  simp only [hperm.mem_iff]
  rfl

/-- The state before the `switch` has the same pages taken. -/
theorem Accounted.base {R : List Nat} (h : Accounted c.sys R) (a : Action) :
    Accounted (base c a) R := by
  cases a with
  | exception mem regs data => exact h.congr rfl rfl
  | syscall mem regs data => exact h.congr rfl rfl
  | pass data => exact h

/-- A step accounts for the pages that it grants. -/
theorem Accounted.step {R : List Nat} (h : Accounted c.sys R) (hinv : Inv b c)
    (hs : step b c a = some c') :
    Accounted c'.sys (granted (entered c a ++ left c') ++ R) := by
  -- an action that enters the kernel grants nothing
  have hentered : granted (entered c a) = [] := by
    cases a <;> rfl
  rw [granted_append, hentered, List.nil_append]
  cases step_outcome hinv.running hs with
  | @timer _ mem regs data _ hmode hi hq hm =>
      rw [left_scheduling hm]
      have hbase : Accounted (trapped c mem regs) R := h.congr rfl rfl
      exact hbase.quiet hq
  | @fault _ mem regs data _ hmode hi hu hq hm =>
      rw [left_scheduling hm]
      have hbase : Accounted ((trapped c mem regs).setProc c.sys.current faulted) R :=
        h.congr rfl rfl
      exact hbase.quiet hq
  | @getpid _ mem regs data _ hmode ha hq hm =>
      rw [left_answered hq rfl rfl hm]
      rw [granted_other _ _ _ (by rw [ha]; decide)]
      exact (h.base (.syscall mem regs data)).quiet hq
  | @yield _ mem regs data _ hmode ha hq hm =>
      rw [left_scheduling hm]
      have hbase : Accounted ((trapped c mem regs).setProc c.sys.current yielded) R :=
        h.congr rfl rfl
      exact hbase.quiet hq
  | @alloc _ mem regs data _ s hmode ha hq hok hs' hm =>
      -- a page that is granted is free until then
      have hfree : s.kernel.physpages (regs.reg_rdi.toNat / PAGESIZE) = 0 := by
        rcases hok with hcall | hcall | ⟨-, -, hfree, -⟩
        · rw [ha] at hcall
          exact absurd hcall (by decide)
        · rw [ha] at hcall
          exact absurd hcall (by decide)
        · exact hfree
      rw [left_answered hq (by rw [hs']; rfl) (by rw [hs']; rfl) hm, hs']
      rw [granted_alloc _ _ _ ha]
      exact ((h.base (.syscall mem regs data)).quiet hq).zeroPage hfree
  | dispatch hmode hr hs' hm =>
      -- a dispatch changes no count
      have hnone : granted (left c') = [] := by
        rw [left]
        rcases hm with ⟨-, hm⟩ | ⟨-, message, hm⟩ <;> rw [hm] <;> rfl
      rw [hnone, hs']
      exact h.congr rfl rfl
  | idle hmode hr hq hm =>
      rw [left, hm]
      exact h.quiet hq
  | quit hq hm =>
      have hnone : granted (left c') = [] := by
        rw [left]
        rcases hm with hm | ⟨argument, hm⟩ <;> rw [hm] <;> rfl
      rw [hnone]
      exact (h.base a).quiet hq
  | fail hwhy hq hm =>
      rw [left_stopped hm]
      exact (h.base a).quiet hq

/-- The order of the pages does not matter. -/
theorem Accounted.perm {s : Sys} {R R' : List Nat} (h : Accounted s R) (hp : R.Perm R') :
    Accounted s R' := by
  have hall := hp.append_left (viewerPages s)
  refine ⟨?_, hall.nodup_iff.mp h.once⟩
  intro q
  rw [h.counts q]
  simp only [hall.mem_iff]

/-- The pages are counted along a run. -/
theorem Accounted.steps {R : List Nat} (h : Accounted c.sys R) (hinv : Inv b c)
    (hs : steps b c acts = some c') : Accounted c'.sys (granted (log b c acts) ++ R) := by
  induction acts generalizing c R with
  | nil =>
      obtain rfl := Option.some.inj hs
      exact h
  | cons a acts ih =>
      obtain ⟨c₁, hstep, hrest⟩ := Option.bind_eq_some_iff.mp hs
      have hafter := ih (h.step hinv hstep) (hinv.step hstep) hrest
      rw [log_cons hstep, granted_append]
      refine hafter.perm ?_
      rw [← List.append_assoc]
      exact (List.perm_append_comm).append_right R

/-- One process more is set up, and its pages are accounted for. -/
theorem inv_setup {ramimages : List (String × ElfHeader)} (hfit : Fitting ramimages)
    {name : String} {pid : Nat} {k k' : KState} {R : List Nat}
    (h : PhysPages.Inv { state := k, granted := R })
    (hs : processSetup b.kernel ramimages pid name k = some k') :
    PhysPages.Inv { state := k', granted := R ++ imagePages ramimages (pid, name) } := by
  obtain ⟨elf, himage⟩ : ∃ elf, programImage ramimages name = some elf := by
    obtain ⟨elf, himage, -⟩ := Option.bind_eq_some_iff.mp hs
    exact ⟨elf, himage⟩
  have hload : ∀ ph ∈ loads (headers elf), Loadable ph := by
    intro ph hph
    obtain ⟨r, hr, hmem⟩ := loads_of_image himage hph
    exact hfit r hr ph hmem
  have hl := processSetup_leaves himage hload hs
  have hpages : imagePages ramimages (pid, name) = setupPages elf pid := by
    rw [imagePages, himage]
    rfl
  rw [hpages]
  have hapart : ∀ q ∈ setupPages elf pid, q ∉ R := fun q hq =>
    h.free_iff.mp (hl.taken q hq).1
  refine ⟨fun q => ?_, List.nodup_append.mpr ⟨h.once, hl.once, ?_⟩⟩
  · show k'.physpages q = if q ∈ R ++ setupPages elf pid then 1 else 0
    by_cases hq : q ∈ setupPages elf pid
    · rw [(hl.taken q hq).2, if_pos (List.mem_append_right _ hq)]
    · have hcount : k.physpages q = if q ∈ R then 1 else 0 := h.counts q
      rw [hl.kept q hq, hcount]
      simp only [List.mem_append, hq, or_false]
  · rintro q hR r hq rfl
    exact hapart q hq hR

/-- `kernel_start` takes the pages of the images and stacks, and no others. -/
theorem inv_setupProcesses {ramimages : List (String × ElfHeader)} (hfit : Fitting ramimages)
    {command : String} {k k' : KState} (h : PhysPages.Inv { state := k, granted := [] })
    (hs : setupProcesses b ramimages command k = some k') :
    PhysPages.Inv { state := k', granted := bootPages ramimages command } := by
  obtain ⟨pgm, hpgm, hs⟩ := Option.bind_eq_some_iff.mp hs
  rw [bootPages, bootProcesses, hpgm, Option.getD_some]
  split at hs
  · rename_i hempty
    obtain ⟨k₁, h₁, hs⟩ := Option.bind_eq_some_iff.mp hs
    obtain ⟨k₂, h₂, hs⟩ := Option.bind_eq_some_iff.mp hs
    obtain ⟨k₃, h₃, h₄⟩ := Option.bind_eq_some_iff.mp hs
    have hall := inv_setup hfit (inv_setup hfit (inv_setup hfit (inv_setup hfit h h₁) h₂) h₃) h₄
    rw [if_pos hempty]
    simpa only [List.flatMap_cons, List.flatMap_nil, List.append_nil, List.nil_append,
      List.append_assoc] using hall
  · rename_i hempty
    rw [if_neg hempty, List.flatMap_singleton]
    exact inv_setup hfit h hs

/-- Memory of which nothing is in use. -/
theorem inv_unused {k : KState} (h : k.physpages = fun _ => 0) :
    PhysPages.Inv { state := k, granted := [] } := by
  refine ⟨fun q => ?_, List.nodup_nil⟩
  show k.physpages q = _
  rw [h]
  rfl

/-- At the start the pages are those of images and stacks. -/
theorem accounted_start {ramimages : List (String × ElfHeader)} (hfit : Fitting ramimages)
    {firstProcess : String} {command : Option String}
    (h : kernelStart b firstProcess ramimages command mem = some c) :
    Accounted c.sys (bootPages ramimages (command.getD firstProcess)) := by
  have hv : c.sys.v = none := (kernelStart_start h).v
  obtain ⟨k, hk, hrun⟩ := Option.map_eq_some_iff.mp h
  have hinv := inv_setupProcesses hfit (inv_unused rfl) hk
  have hpages : c.sys.kernel.physpages = k.physpages := by
    rw [← hrun]
    exact congrArg KState.physpages (run_kernel b 1 (initialSys k))
  have hviewer : viewerPages c.sys = [] := by
    rw [viewerPages, hv]
    rfl
  rw [Accounted, hviewer, List.nil_append]
  refine ⟨fun q => ?_, hinv.once⟩
  show c.sys.kernel.physpages q = _
  rw [hpages]
  exact hinv.counts q

/-- **EVERY PAGE HAS ONE OWNER**: in every run from `kernel_start`, the pages of
    the images and stacks, those that processes are given and that of the memory
    viewer are all different, and they are exactly the pages that count as used. -/
theorem pages_accounted {ramimages : List (String × ElfHeader)} (hfit : Fitting ramimages)
    {firstProcess : String} {command : Option String}
    (hstart : kernelStart b firstProcess ramimages command mem = some c)
    (hrun : steps b c acts = some c') :
    (viewerPages c'.sys ++ (granted (log b c acts)
        ++ bootPages ramimages (command.getD firstProcess))).Nodup
      ∧ ∀ q, c'.sys.kernel.physpages q
        = if q ∈ viewerPages c'.sys ++ (granted (log b c acts)
            ++ bootPages ramimages (command.getD firstProcess)) then 1 else 0 := by
  have hs := kernelStart_start hstart
  have hacc := (accounted_start hfit hstart).steps hs.inv hrun
  exact ⟨hacc.once, hacc.counts⟩

/-- The three pages of the small image, the stack, and one page that is granted. -/
theorem pages_accounted_small : ∃ c c', smallStart = some c ∧ steps smallBoot c smallRun = some c'
    ∧ bootPages [("small", smallImage)] "small" = [0x100, 0x101, 0x102, 0x13F]
    ∧ ∀ q, c'.sys.kernel.physpages q
        = if q ∈ viewerPages c'.sys ++ (granted (log smallBoot c smallRun)
            ++ bootPages [("small", smallImage)] "small") then 1 else 0 := by
  obtain ⟨c, c', hc, hrun⟩ := small_runs
  have hfit : Fitting [("small", smallImage)] := by
    intro r hr ph hph
    rw [List.mem_singleton.mp hr] at hph
    have hcheck : ∀ ph ∈ loads smallImage.programs, ph.p_filesz ≤ ph.p_memsz
        ∧ PROC_START_ADDR ≤ ph.p_va ∧ ph.p_va + ph.p_memsz ≤ MEMSIZE_PHYSICAL := by decide +kernel
    obtain ⟨hfits, hstart, hstop⟩ := hcheck ph hph
    exact ⟨hfits, hstart, hstop⟩
  exact ⟨c, c', hc, hrun, by decide +kernel, (pages_accounted hfit hc hrun).2⟩

end KernelLoop
