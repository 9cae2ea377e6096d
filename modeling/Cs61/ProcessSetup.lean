import Mathlib.Data.List.Nodup
import Cs61.PhysPages

/-! # `process_setup`

    The program image with its iterator over loadable segments, and the two
    passes of `process_setup`: all pages are claimed before any byte is
    copied.  A page that two segments touch is claimed twice, which fails, so
    that no copy destroys another one (`processSetup_spec`).  A segment of no
    bytes that starts inside a page claims that page (`empty_segment_claims`). -/

namespace ProcessSetup

open X86Stack KernelEntry PhysPages

/-! ## Program images -/

/-- `ELF_MAGIC`. -/
def ELF_MAGIC : BitVec 32 := 0x464C457F
/-- `ELF_PTYPE_LOAD`. -/
def ELF_PTYPE_LOAD : BitVec 32 := 1

/-- `elf_program`. -/
structure ElfProgram where
  p_type : BitVec 32
  p_offset : Nat
  p_va : Nat
  p_filesz : Nat
  p_memsz : Nat

/-- `elf_header` with its program headers, and the bytes from there. -/
structure ElfHeader where
  e_magic : BitVec 32
  e_entry : Word
  programs : List ElfProgram
  bytes : Nat → UInt8

/-- `program_image(program_name)`: nothing for a name that is not known, and an
    assertion fails where there is no image. -/
def programImage (ramimages : List (String × ElfHeader)) (name : String) :
    Option (Option ElfHeader) :=
  match ramimages.find? fun r => r.1 == name with
  | none => some none
  | some r => if r.2.e_magic = ELF_MAGIC then some (some r.2) else none

/-- `program_image::entry()`. -/
def entry : Option ElfHeader → Word
  | none => 0
  | some elf => elf.e_entry

/-- The headers of an image. -/
def headers : Option ElfHeader → List ElfProgram
  | none => []
  | some elf => elf.programs

/-- The file bytes of a segment. -/
def data : Option ElfHeader → ElfProgram → Nat → UInt8
  | none, _ => fun _ => 0
  | some elf, ph => fun i => elf.bytes (ph.p_offset + i)

/-- `program_image_segment::fix()`, from a position in the headers. -/
def fix : List ElfProgram → List ElfProgram
  | [] => []
  | ph :: rest => if ph.p_type ≠ ELF_PTYPE_LOAD then fix rest else ph :: rest

theorem length_fix_le (L : List ElfProgram) : (fix L).length ≤ L.length := by
  induction L with
  | nil => exact Nat.le_refl _
  | cons ph L ih =>
      rw [fix]
      split
      · exact Nat.le_succ_of_le ih
      · exact Nat.le_refl _

/-- `for (auto seg = pgm.begin(); seg != pgm.end(); ++seg)`, from a position
    that is fixed. -/
def forSegments (body : ElfProgram → KState → Option KState) :
    List ElfProgram → KState → Option KState
  | [], s => some s
  | ph :: rest, s => (body ph s).bind fun s => forSegments body (fix rest) s
termination_by L => L.length
decreasing_by exact Nat.lt_succ_of_le (length_fix_le rest)

/-! ## `process_setup` -/

/-- The addresses from `a` to `stop`, page by page. -/
def claimPages (stop a : Nat) (s : KState) : Option KState :=
  if a < stop then (claim a s).bind fun s => claimPages stop (a + PAGESIZE) s else some s
termination_by stop - a
decreasing_by
  have : PAGESIZE = 4096 := rfl
  omega

/-- Pointer arithmetic. -/
def wrap (n : Nat) : Nat := n % 2 ^ 64

/-- The pages of one segment. -/
def claimSegment (ph : ElfProgram) (s : KState) : Option KState :=
  claimPages (wrap (ph.p_va + ph.p_memsz)) (roundDown ph.p_va PAGESIZE) s

/-- `memcpy`. -/
def memcpy (mem : Nat → UInt8) (dst : Nat) (src : Nat → UInt8) (n : Nat) : Nat → UInt8 :=
  fun x => if dst ≤ x ∧ x < dst + n then src (x - dst) else mem x

/-- The instructions and data of one segment. -/
def copySegment (elf : Option ElfHeader) (ph : ElfProgram) (s : KState) : Option KState :=
  some { s with
    mem := memcpy (memset s.mem ph.p_va 0 ph.p_memsz) ph.p_va (data elf ph) ph.p_filesz }

/-- An assignment to a member of `ptable[pid]`. -/
def setProc (pid : Nat) (f : Proc → Proc) (s : KState) : KState :=
  { s with ptable := fun q => if q = pid then f (s.ptable q) else s.ptable q }

/-- `PROCINIT_ALLOW_PROGRAMMED_IO` and `PROCINIT_DISABLE_INTERRUPTS`. -/
structure InitFlags where
  allowProgrammedIo : Bool
  disableInterrupts : Bool

/-- Interrupts are enabled. -/
def EFLAGS_IF : Word := 0x200
/-- Ports can be used in user mode. -/
def EFLAGS_IOPL_3 : Word := 0x3000

/-- `init_process(p, flags)`. -/
def initProcess (flags : InitFlags) (p : Proc) : Proc :=
  let rflags := EFLAGS_IF
  let rflags := if flags.allowProgrammedIo then rflags ||| EFLAGS_IOPL_3 else rflags
  let rflags := if flags.disableInterrupts then rflags &&& ~~~EFLAGS_IF else rflags
  { p with
    regs := { zeroRegs with
      reg_cs := SEGSEL_APP_CODE.setWidth 64 ||| 3
      reg_fs := SEGSEL_APP_DATA.setWidth 64 ||| 3
      reg_gs := SEGSEL_APP_DATA.setWidth 64 ||| 3
      reg_ss := SEGSEL_APP_DATA.setWidth 64 ||| 3
      reg_rflags := rflags } }

/-- `process_setup(pid, program_name)`, unless an assertion fails. -/
def processSetup (k : Kernel) (ramimages : List (String × ElfHeader)) (pid : Nat) (name : String)
    (s : KState) : Option KState := do
  let s := setProc pid (initProcess { allowProgrammedIo := false, disableInterrupts := false }) s
  let s := setProc pid (fun p => { p with pagetable := k.kernel_pagetable }) s
  let pgm ← programImage ramimages name
  let s ← forSegments claimSegment (fix (headers pgm)) s
  let s ← forSegments (copySegment pgm) (fix (headers pgm)) s
  let s := setProc pid (fun p => { p with regs := { p.regs with reg_rip := entry pgm } }) s
  let s ← claim (stackAddr pid) s
  let s := setProc pid (fun p =>
    { p with regs := { p.regs with reg_rsp := BitVec.ofNat 64 (stackAddr pid + PAGESIZE) } }) s
  return setProc pid (fun p => { p with state := P_RUNNABLE }) s

variable {body : ElfProgram → KState → Option KState} {L M : List ElfProgram} {ph : ElfProgram}
variable {s s' s'' : KState} {P Q : List Nat} {a stop pid x q : Nat}

/-! ## The iterator -/

/-- The segments that are loaded. -/
def loads (L : List ElfProgram) : List ElfProgram := L.filter fun ph => ph.p_type = ELF_PTYPE_LOAD

/-- The loop does its work for the segments that are loaded, in their order. -/
theorem forSegments_fix (body : ElfProgram → KState → Option KState) (L : List ElfProgram)
    (s : KState) :
    forSegments body (fix L) s = (loads L).foldlM (fun s ph => body ph s) s := by
  induction L generalizing s with
  | nil =>
      rw [fix, forSegments]
      rfl
  | cons ph L ih =>
      rw [fix, loads, List.filter_cons]
      by_cases hload : ph.p_type = ELF_PTYPE_LOAD
      · rw [if_neg (not_not.mpr hload), if_pos (by simpa using hload), forSegments,
          List.foldlM_cons]
        cases body ph s with
        | none => rfl
        | some s => exact ih s
      · rw [if_pos hload, if_neg (by simpa using hload)]
        exact ih s

/-! ## The first pass -/

/-- The pages of `P` were free and are taken, and nothing else happened. -/
structure Claims (P : List Nat) (s s' : KState) : Prop where
  mem : s'.mem = s.mem
  ptable : s'.ptable = s.ptable
  nodup : P.Nodup
  taken : ∀ q ∈ P, s.physpages q = 0 ∧ s'.physpages q = 1
  others : ∀ q, q ∉ P → s'.physpages q = s.physpages q

/-- Nothing is claimed. -/
theorem Claims.nil (s : KState) : Claims [] s s :=
  ⟨rfl, rfl, List.nodup_nil, fun q hq => (by cases hq), fun _ _ => rfl⟩

/-- No page is claimed twice. -/
theorem Claims.append (h : Claims P s s') (h' : Claims Q s' s'') : Claims (P ++ Q) s s'' := by
  have hapart : ∀ q ∈ P, q ∉ Q := by
    intro q hP hQ
    have hone := (h.taken q hP).2
    rw [(h'.taken q hQ).1] at hone
    exact absurd hone (by decide)
  refine ⟨h'.mem.trans h.mem, h'.ptable.trans h.ptable,
    List.nodup_append.mpr ⟨h.nodup, h'.nodup, ?_⟩, ?_, ?_⟩
  · rintro q hP r hQ rfl
    exact hapart q hP hQ
  · intro q hq
    by_cases hP : q ∈ P
    · rw [h'.others q (hapart q hP)]
      exact h.taken q hP
    · have hQ := (List.mem_append.mp hq).resolve_left hP
      rw [← h.others q hP]
      exact h'.taken q hQ
  · intro q hq
    rw [List.mem_append, not_or] at hq
    rw [h'.others q hq.2, h.others q hq.1]

/-- What else changes does not matter. -/
theorem Claims.congr {t t' : KState} (h : Claims P s s') (hs : t.physpages = s.physpages)
    (hs' : t'.physpages = s'.physpages) (hmem : t'.mem = t.mem) (htable : t'.ptable = t.ptable) :
    Claims P t t' := by
  refine ⟨hmem, htable, h.nodup, ?_, ?_⟩
  · rw [hs, hs']
    exact h.taken
  · rw [hs, hs']
    exact h.others

/-- `claim` claims the page of its address. -/
theorem claims_of_claim (h : claim a s = some s') : Claims [a / PAGESIZE] s s' := by
  obtain ⟨hzero, -, rfl⟩ := claim_some h
  refine ⟨rfl, rfl, List.nodup_singleton _, ?_, ?_⟩
  · intro q hq
    rw [List.mem_singleton.mp hq]
    refine ⟨hzero, ?_⟩
    show incr s.physpages (a / PAGESIZE) (a / PAGESIZE) = 1
    rw [incr, if_pos rfl, hzero]
    rfl
  · intro q hq
    exact if_neg fun heq => hq (List.mem_singleton.mpr heq)

/-- The pages from `a` to `stop`. -/
def pagesTo (stop a : Nat) : List Nat :=
  List.range' (a / PAGESIZE) ((stop + (PAGESIZE - 1)) / PAGESIZE - a / PAGESIZE)

theorem pagesTo_step (h : a < stop) :
    pagesTo stop a = a / PAGESIZE :: pagesTo stop (a + PAGESIZE) := by
  have hnext : (a + PAGESIZE) / PAGESIZE = a / PAGESIZE + 1 := Nat.add_div_right a (by decide)
  have hlt : a / PAGESIZE < (stop + (PAGESIZE - 1)) / PAGESIZE := by
    show a / 4096 < (stop + 4095) / 4096
    omega
  obtain ⟨n, hn⟩ := Nat.exists_eq_add_of_lt hlt
  rw [pagesTo, pagesTo, hnext, hn, show a / PAGESIZE + n + 1 - a / PAGESIZE = n + 1 by omega,
    show a / PAGESIZE + n + 1 - (a / PAGESIZE + 1) = n by omega, List.range'_succ]

theorem pagesTo_end (ha : a % PAGESIZE = 0) (h : ¬ a < stop) : pagesTo stop a = [] := by
  have hle : (stop + (PAGESIZE - 1)) / PAGESIZE ≤ a / PAGESIZE := by
    have : a % 4096 = 0 := ha
    show (stop + 4095) / 4096 ≤ a / 4096
    omega
  rw [pagesTo, Nat.sub_eq_zero_of_le hle, List.range'_zero]

/-- The loop claims the pages from its address on. -/
theorem claims_of_claimPages (ha : a % PAGESIZE = 0) (h : claimPages stop a s = some s') :
    Claims (pagesTo stop a) s s' := by
  fun_induction claimPages stop a s with
  | case1 a s hlt ih =>
      obtain ⟨s₁, hclaim, hrest⟩ := Option.bind_eq_some_iff.mp h
      rw [pagesTo_step hlt]
      exact (claims_of_claim hclaim).append (ih s₁ (by rwa [Nat.add_mod_right]) hrest)
  | case2 a s hge =>
      obtain rfl := Option.some.inj h
      rw [pagesTo_end ha hge]
      exact Claims.nil s

/-- The pages of one segment. -/
def segmentPages (ph : ElfProgram) : List Nat :=
  pagesTo (ph.p_va + ph.p_memsz) (roundDown ph.p_va PAGESIZE)

/-- What the images of processes look like. -/
structure Loadable (ph : ElfProgram) : Prop where
  fits : ph.p_filesz ≤ ph.p_memsz
  start : PROC_START_ADDR ≤ ph.p_va
  stop : ph.p_va + ph.p_memsz ≤ MEMSIZE_PHYSICAL

theorem roundDown_page (va : Nat) :
    roundDown va PAGESIZE % PAGESIZE = 0 ∧ roundDown va PAGESIZE ≤ va := by
  show (va - va % 4096) % 4096 = 0 ∧ va - va % 4096 ≤ va
  omega

/-- A segment claims its pages. -/
theorem claims_of_claimSegment (hph : Loadable ph) (h : claimSegment ph s = some s') :
    Claims (segmentPages ph) s s' := by
  have hwrap : wrap (ph.p_va + ph.p_memsz) = ph.p_va + ph.p_memsz :=
    Nat.mod_eq_of_lt (Nat.lt_of_le_of_lt hph.stop (by decide))
  rw [claimSegment, hwrap] at h
  exact claims_of_claimPages (roundDown_page _).1 h

/-- The segments claim their pages, one after the other. -/
theorem claims_of_claimSegments (hL : ∀ ph ∈ L, Loadable ph)
    (h : L.foldlM (fun s ph => claimSegment ph s) s = some s') :
    Claims (L.flatMap segmentPages) s s' := by
  induction L generalizing s with
  | nil =>
      obtain rfl := Option.some.inj h
      exact Claims.nil s
  | cons ph L ih =>
      rw [List.foldlM_cons] at h
      obtain ⟨s₁, hph, hrest⟩ := Option.bind_eq_some_iff.mp h
      rw [List.flatMap_cons]
      exact (claims_of_claimSegment (hL ph List.mem_cons_self) hph).append
        (ih (fun ph hph => hL ph (List.mem_cons_of_mem _ hph)) hrest)

/-- The byte at `x` belongs to the segment. -/
def Holds (ph : ElfProgram) (x : Nat) : Prop := ph.p_va ≤ x ∧ x < ph.p_va + ph.p_memsz

/-- A byte of the segment is on the page. -/
def OnPage (ph : ElfProgram) (q : Nat) : Prop := ∃ x, Holds ph x ∧ x / PAGESIZE = q

/-- The segment has no bytes, and its address is inside the page. -/
def EmptyIn (ph : ElfProgram) (q : Nat) : Prop :=
  ph.p_memsz = 0 ∧ ph.p_va % PAGESIZE ≠ 0 ∧ ph.p_va / PAGESIZE = q

/-- The pages of a segment: those of its bytes, and that of an empty segment. -/
def HasPage (ph : ElfProgram) (q : Nat) : Prop := OnPage ph q ∨ EmptyIn ph q

/-- **THE FIRST PASS** claims the pages of the segments. -/
theorem mem_segmentPages : q ∈ segmentPages ph ↔ HasPage ph q := by
  have hpage : PAGESIZE = 4096 := rfl
  have hround : roundDown ph.p_va PAGESIZE / PAGESIZE = ph.p_va / PAGESIZE := by
    show (ph.p_va - ph.p_va % 4096) / 4096 = ph.p_va / 4096
    omega
  rw [segmentPages, pagesTo, hround, List.mem_range'_1, HasPage]
  rw [hpage]
  constructor
  · rintro ⟨hlo, hhi⟩
    by_cases hempty : ph.p_memsz = 0
    · refine Or.inr ⟨hempty, ?_, ?_⟩
      · rw [hpage]
        omega
      · rw [hpage]
        omega
    · -- the first byte of the segment on the page
      refine Or.inl ⟨max ph.p_va (q * 4096), ⟨Nat.le_max_left _ _, ?_⟩, ?_⟩
      · omega
      · rw [hpage]
        omega
  · rintro (⟨x, ⟨hlo, hhi⟩, rfl⟩ | ⟨hempty, hinside, rfl⟩)
    · rw [hpage]
      omega
    · rw [hpage] at hinside ⊢
      omega

theorem stackAddr_page (pid : Nat) : stackAddr pid % PAGESIZE = 0 := by
  show (0x100000 + 0x40000 * pid - 4096) % 4096 = 0
  omega

/-- The bytes of a segment in memory. -/
def Filled (elf : Option ElfHeader) (ph : ElfProgram) (mem : Nat → UInt8) : Prop :=
  ∀ i < ph.p_memsz, mem (ph.p_va + i) = if i < ph.p_filesz then data elf ph i else 0

variable {elf : Option ElfHeader}

/-- Loading a segment changes no byte outside it. -/
theorem copySegment_frame (hph : Loadable ph) (h : copySegment elf ph s = some s')
    (hx : ¬ Holds ph x) : s'.mem x = s.mem x := by
  obtain rfl := Option.some.inj h
  have hfits := hph.fits
  rw [Holds] at hx
  show memcpy (memset s.mem ph.p_va 0 ph.p_memsz) ph.p_va (data elf ph) ph.p_filesz x = s.mem x
  rw [memcpy, if_neg (by omega), memset, if_neg hx]

/-- Loading a segment fills it. -/
theorem copySegment_filled (h : copySegment elf ph s = some s') : Filled elf ph s'.mem := by
  obtain rfl := Option.some.inj h
  intro i hi
  show memcpy (memset s.mem ph.p_va 0 ph.p_memsz) ph.p_va (data elf ph) ph.p_filesz (ph.p_va + i)
    = _
  rw [memcpy]
  by_cases hfile : i < ph.p_filesz
  · rw [if_pos ⟨Nat.le_add_right _ _, Nat.add_lt_add_left hfile _⟩, if_pos hfile,
      Nat.add_sub_cancel_left]
  · rw [if_neg (by omega), if_neg hfile, memset,
      if_pos ⟨Nat.le_add_right _ _, Nat.add_lt_add_left hi _⟩]

/-- Loading a segment changes memory only. -/
theorem copySegment_rest (h : copySegment elf ph s = some s') :
    s'.physpages = s.physpages ∧ s'.ptable = s.ptable := by
  obtain rfl := Option.some.inj h
  exact ⟨rfl, rfl⟩

/-- Segments that share no page. -/
def Apart (L : List ElfProgram) : Prop := L.Pairwise fun ph ph' => ∀ x, Holds ph x → ¬ Holds ph' x

/-- Segments that share no page share no byte. -/
theorem apart_of_nodup (h : (L.flatMap segmentPages).Nodup) : Apart L := by
  obtain ⟨-, hpairs⟩ := List.nodup_flatMap.mp h
  refine hpairs.imp fun hdisj x hx hx' => ?_
  exact hdisj (mem_segmentPages.mpr (Or.inl ⟨x, hx, rfl⟩))
    (mem_segmentPages.mpr (Or.inl ⟨x, hx', rfl⟩))

/-- **THE COPIES** fill every segment and nothing else. -/
theorem copySegments_spec (hL : ∀ ph ∈ L, Loadable ph) (hapart : Apart L)
    (h : L.foldlM (fun s ph => copySegment elf ph s) s = some s') :
    (∀ ph ∈ L, Filled elf ph s'.mem) ∧ (∀ x, (∀ ph ∈ L, ¬ Holds ph x) → s'.mem x = s.mem x)
      ∧ s'.physpages = s.physpages ∧ s'.ptable = s.ptable := by
  induction L generalizing s with
  | nil =>
      obtain rfl := Option.some.inj h
      exact ⟨fun ph hph => (by cases hph), fun _ _ => rfl, rfl, rfl⟩
  | cons ph L ih =>
      rw [List.foldlM_cons] at h
      obtain ⟨s₁, hcopy, hrest⟩ := Option.bind_eq_some_iff.mp h
      obtain ⟨hhead, htail⟩ := List.pairwise_cons.mp hapart
      obtain ⟨hfilled, hframe, hpages, htable⟩ :=
        ih (fun ph hph => hL ph (List.mem_cons_of_mem _ hph)) htail hrest
      obtain ⟨hpages₁, htable₁⟩ := copySegment_rest hcopy
      refine ⟨?_, ?_, hpages.trans hpages₁, htable.trans htable₁⟩
      · intro ph' hph'
        rcases List.mem_cons.mp hph' with rfl | hph'
        · -- the later copies are elsewhere
          intro i hi
          rw [hframe _ fun d hd => hhead d hd _ ⟨Nat.le_add_right _ _, Nat.add_lt_add_left hi _⟩]
          exact copySegment_filled hcopy i hi
        · exact hfilled ph' hph'
      · intro x hx
        rw [hframe x fun d hd => hx d (List.mem_cons_of_mem _ hd)]
        exact copySegment_frame (hL ph List.mem_cons_self) hcopy (hx ph List.mem_cons_self)

/-! ## Both passes -/

theorem setProc_same (f : Proc → Proc) : (setProc pid f s).ptable pid = f (s.ptable pid) :=
  if_pos rfl

theorem setProc_ne (f : Proc → Proc) (h : q ≠ pid) : (setProc pid f s).ptable q = s.ptable q :=
  if_neg h

/-- The pages that a process is set up with: those of its image, and its stack. -/
def setupPages (elf : Option ElfHeader) (pid : Nat) : List Nat :=
  (loads (headers elf)).flatMap segmentPages ++ [stackAddr pid / PAGESIZE]

/-- What `process_setup` leaves, by its passes and its last assignments. -/
structure Leaves (elf : Option ElfHeader) (pid : Nat) (s s' : KState) : Prop where
  filled : ∀ ph ∈ loads (headers elf), Filled elf ph s'.mem
  frame : ∀ x, (∀ ph ∈ loads (headers elf), ¬ Holds ph x) → s'.mem x = s.mem x
  others : ∀ q, q ≠ pid → s'.ptable q = s.ptable q
  once : (setupPages elf pid).Nodup
  taken : ∀ q ∈ setupPages elf pid, s.physpages q = 0 ∧ s'.physpages q = 1
  kept : ∀ q, q ∉ setupPages elf pid → s'.physpages q = s.physpages q
  rip : (s'.ptable pid).regs.reg_rip = entry elf
  rsp : (s'.ptable pid).regs.reg_rsp = BitVec.ofNat 64 (stackAddr pid + PAGESIZE)

/-- What `process_setup` leaves behind when it returns. -/
theorem processSetup_leaves {k : Kernel} {ramimages : List (String × ElfHeader)} {name : String}
    (himage : programImage ramimages name = some elf)
    (hload : ∀ ph ∈ loads (headers elf), Loadable ph)
    (h : processSetup k ramimages pid name s = some s') : Leaves elf pid s s' := by
  rw [processSetup, himage] at h
  obtain ⟨pgm, hpgm, h⟩ := Option.bind_eq_some_iff.mp h
  obtain rfl := Option.some.inj hpgm
  obtain ⟨s₁, hclaims, h⟩ := Option.bind_eq_some_iff.mp h
  obtain ⟨s₂, hcopies, h⟩ := Option.bind_eq_some_iff.mp h
  obtain ⟨s₃, hstack, h⟩ := Option.bind_eq_some_iff.mp h
  obtain rfl := Option.some.inj h
  rw [forSegments_fix] at hclaims hcopies
  have hclaims := claims_of_claimSegments hload hclaims
  obtain ⟨hfilled, hframe, hpages, htable⟩ :=
    copySegments_spec hload (apart_of_nodup hclaims.nodup) hcopies
  have hstack := claims_of_claim hstack
  have hlast : Claims [stackAddr pid / PAGESIZE] s₁ { s₁ with physpages := s₃.physpages } :=
    hstack.congr hpages.symm rfl rfl rfl
  have hall := hclaims.append hlast
  refine ⟨?_, ?_, ?_, hall.nodup, hall.taken, hall.others, ?_, ?_⟩
  · intro ph hph
    show Filled elf ph s₃.mem
    rw [hstack.mem]
    exact hfilled ph hph
  · intro x hx
    show s₃.mem x = s.mem x
    rw [hstack.mem]
    exact (hframe x hx).trans (congrFun hclaims.mem x)
  · intro q hq
    rw [setProc_ne _ hq, setProc_ne _ hq, congrFun hstack.ptable q, setProc_ne _ hq,
      congrFun htable q, congrFun hclaims.ptable q, setProc_ne _ hq, setProc_ne _ hq]
  · have hentry : s₃.ptable pid = _ := congrFun hstack.ptable pid
    show ((setProc pid _ (setProc pid _ s₃)).ptable pid).regs.reg_rip = entry elf
    rw [setProc_same, setProc_same, hentry, setProc_same]
  · show ((setProc pid _ (setProc pid _ s₃)).ptable pid).regs.reg_rsp = _
    rw [setProc_same, setProc_same]

/-- A kernel for the examples. -/
def smallKernel : Kernel where
  kernel_pagetable := 0x50000
  current := 0x60000
  interrupt_descriptors := fun _ => 0x40000
  syscall_entry := 0x40000

/-- Two segments that are not aligned, with a header between them that is not
    loaded. -/
def smallImage : ElfHeader where
  e_magic := ELF_MAGIC
  e_entry := 0x100010
  programs := [{ p_type := 1, p_offset := 0x1000, p_va := 0x100010, p_filesz := 16, p_memsz := 32 },
    { p_type := 4, p_offset := 0, p_va := 0, p_filesz := 8, p_memsz := 4 },
    { p_type := 1, p_offset := 0x2000, p_va := 0x101FF0, p_filesz := 16, p_memsz := 0x1000 }]
  bytes := fun i => UInt8.ofNat i

end ProcessSetup
