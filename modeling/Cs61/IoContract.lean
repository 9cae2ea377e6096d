import Cs61.Io61

/-! # The contract of `io61_read` and `io61_write`

    A read gives fewer bytes than it was asked for only at the end of the file,
    and a write writes all its bytes: what a sequence of calls gives is then
    determined by the file and the calls alone (`contract`).  The library that
    makes a system call for each byte keeps the contract under every schedule of
    partial transfers (`slow_outcomes`).  The other one passes on what the kernel
    gives, and keeps it exactly as long as the kernel makes no partial transfer
    (`outcomes_iff`). -/

namespace IoContract

open Io61 (World Buffer Library slice ssize uchar sysRead readc readLoop writeLoop eof)

/-! ## The libraries -/

/-- `write(fd, buf, sz)`, under a schedule of short writes.  It accepts at least one
    byte, so that the length of the output tells the calls apart. -/
def sysWrite (accept : Nat → Nat) (buf : Buffer) (sz : Nat) (w : World) : Int × World :=
  let n := min (max 1 (accept w.output.length)) sz
  (n, { w with output := w.output ++ slice buf n })

/-- `io61_writec(f, c)`. -/
def writec (accept : Nat → Nat) (c : Int) (w : World) : Except String (Int × World) :=
  match sysWrite accept (fun _ => uchar c) 1 w with
  | (nw, w) =>
      if nw ≠ 1 then
        if nw = 0 ∨ nw = -1 then .ok (-1, w) else .error "nw == 0 || nw == -1"
      else .ok (0, w)

/-- `slow-io61.cc`. -/
def slow (short accept : Nat → Nat) : Library where
  readc := readc short
  read buf sz w :=
    (readLoop (readc short) (· == eof) sz 0 buf w).map fun (nread, buf, w) =>
      (if nread = 0 ∧ sz ≠ 0 ∧ w.errno ≠ 0 then -1 else ssize nread, buf, w)
  writec := writec accept
  write buf sz w :=
    (writeLoop (writec accept) (· == -1) buf sz 0 w).map fun (nwritten, w) =>
      (if nwritten = 0 ∧ sz ≠ 0 then -1 else ssize nwritten, w)

/-- `syscall-io61.cc`. -/
def syscall (short accept : Nat → Nat) : Library where
  readc := readc short
  read buf sz w := .ok (sysRead short buf sz w)
  writec := writec accept
  write buf sz w := .ok (sysWrite accept buf sz w)

/-! ## Calls -/

/-- A call of one of the block functions. -/
inductive Call where
  | read (sz : Nat)
  | write (buf : Buffer) (sz : Nat)

/-- How many bytes a call asks for. -/
def Call.size : Call → Nat
  | .read sz => sz
  | .write _ sz => sz

/-- What a call gives: its value, the bytes it put into the array, and the files
    after it. -/
structure Outcome where
  value : Int
  got : List UInt8
  input : List UInt8
  output : List UInt8

/-- One call; reads go into an array whose bytes do not matter. -/
def perform (lib : Library) (buf : Buffer) : Call → World → Except String (Outcome × World)
  | .read sz, w => (lib.read buf sz w).map fun (nr, buf, w) =>
      (⟨nr, slice buf nr.toNat, w.input, w.output⟩, w)
  | .write buf sz, w => (lib.write buf sz w).map fun (nw, w) => (⟨nw, [], w.input, w.output⟩, w)

/-- The results of the calls, one after the other. -/
def outcomes (lib : Library) (buf : Buffer) : List Call → World → Except String (List Outcome)
  | [], _ => .ok []
  | c :: cs, w =>
      match perform lib buf c w with
      | .error e => .error e
      | .ok (o, w) => (outcomes lib buf cs w).map (o :: ·)

/-- What the contract says of a call. -/
def expected (input output : List UInt8) : Call → Outcome
  | .read sz => ⟨(min sz input.length : Nat), input.take sz, input.drop sz, output⟩
  | .write buf sz => ⟨sz, [], input, output ++ slice buf sz⟩

/-- What it says of a sequence of calls. -/
def contract : List Call → List UInt8 → List UInt8 → List Outcome
  | [], _, _ => []
  | c :: cs, input, output =>
      let o := expected input output c
      o :: contract cs o.input o.output

/-- The kernel makes no partial transfer, after `reads` reads, with `input` bytes to
    be read and `output` written. -/
def Full (short accept : Nat → Nat) : List Call → Nat → Nat → Nat → Prop
  | [], _, _, _ => True
  | .read sz :: cs, reads, input, output =>
      min sz input ≤ max 1 (short reads) ∧ Full short accept cs (reads + 1) (input - sz) output
  | .write _ sz :: cs, reads, input, output =>
      sz ≤ max 1 (accept output) ∧ Full short accept cs reads input (output + sz)

variable {short accept : Nat → Nat} {buf : Buffer} {w w' : World} {c : Call} {cs : List Call}

/-! ## One call of the slow library -/

theorem writec_puts (accept : Nat → Nat) : Io61.PutsBytes (writec accept) := by
  intro c w
  have hone : min (max 1 (accept w.output.length)) 1 = 1 := by omega
  refine ⟨{ w with output := w.output ++ [uchar c] }, ?_, rfl, rfl⟩
  rw [writec, sysWrite, hone]
  rfl

/-- The slow library reads all it is asked for, or to the end of the file. -/
theorem slow_read_givesAll (sz : Nat) :
    Io61.GivesAll sz fun buf w => (slow short accept).read buf sz w := by
  refine Io61.readLoop_givesAll (Io61.readc_gives short) rfl Io61.beq_neg_one_toNat sz
    (fun n w => if n = 0 ∧ sz ≠ 0 ∧ w.errno ≠ 0 then -1 else ssize n) ?_
  intro n w hn hor
  show (if n = 0 ∧ sz ≠ 0 ∧ w.errno ≠ 0 then -1 else ssize n) = (n : Int)
  rw [if_neg (by omega), Io61.ssize_eq hn]

/-- What a read of the slow library does. -/
theorem slow_read (hinput : w.input.length < 2 ^ 63) (sz : Nat) :
    ∃ w', perform (slow short accept) buf (.read sz) w
        = .ok (expected w.input w.output (.read sz), w')
      ∧ w'.input = w.input.drop sz ∧ w'.output = w.output := by
  obtain ⟨buf', w', hcall, hslice, hrest, hout⟩ :=
    @slow_read_givesAll short accept sz buf w hinput
  refine ⟨w', ?_, hrest, hout⟩
  dsimp only at hcall
  rw [perform, hcall]
  show Except.ok ((⟨_, slice buf' (Int.toNat _), w'.input, w'.output⟩ : Outcome), w') = _
  rw [expected, Int.toNat_natCast, hslice, hrest, hout]

/-- What a write of the slow library does. -/
theorem slow_write {sz : Nat} (hsz : sz < 2 ^ 63) (b : Buffer) :
    ∃ w', perform (slow short accept) buf (.write b sz) w
        = .ok (expected w.input w.output (.write b sz), w')
      ∧ w'.input = w.input ∧ w'.output = w.output ++ slice b sz := by
  obtain ⟨w', hwrite, hinput, houtput⟩ : ∃ w', (slow short accept).write b sz w = .ok (sz, w')
      ∧ w'.input = w.input ∧ w'.output = w.output ++ slice b sz := by
    refine Io61.writeLoop_puts (writec_puts accept) (by decide)
      (fun sz n => if n = 0 ∧ sz ≠ 0 then -1 else ssize n) ?_ b sz w hsz
    intro sz hsz
    show (if sz = 0 ∧ sz ≠ 0 then -1 else ssize sz) = (sz : Int)
    rw [if_neg (by omega), Io61.ssize_eq hsz]
  refine ⟨w', ?_, hinput, houtput⟩
  rw [perform, hwrite, expected, ← hinput, ← houtput]
  rfl

/-- Every call of the slow library has the outcome it should have. -/
theorem slow_perform (hinput : w.input.length < 2 ^ 63) (hc : c.size < 2 ^ 63) :
    ∃ w', perform (slow short accept) buf c w = .ok (expected w.input w.output c, w')
      ∧ w'.input = (expected w.input w.output c).input
      ∧ w'.output = (expected w.input w.output c).output := by
  cases c with
  | read sz => exact slow_read hinput sz
  | write b sz => exact slow_write hc b

/-- A call does not lengthen the input. -/
theorem length_expected_input (input output : List UInt8) (c : Call) :
    (expected input output c).input.length ≤ input.length := by
  cases c with
  | read sz =>
      rw [expected, List.length_drop]
      exact Nat.sub_le _ _
  | write b sz => exact Nat.le_refl _

/-- The slow library keeps the contract under every schedule. -/
theorem slow_outcomes (hinput : w.input.length < 2 ^ 63) (hcs : ∀ c ∈ cs, c.size < 2 ^ 63) :
    outcomes (slow short accept) buf cs w = .ok (contract cs w.input w.output) := by
  induction cs generalizing w with
  | nil => rfl
  | cons c cs ih =>
      obtain ⟨w', hc, hin, hout⟩ :=
        @slow_perform short accept buf w c hinput (hcs c (List.mem_cons_self ..))
      have hshort := length_expected_input w.input w.output c
      have hrest := ih (w := w') (by rw [hin]; omega) fun d hd => hcs d (List.mem_cons_of_mem c hd)
      rw [outcomes, hc]
      dsimp only
      rw [hrest, contract, hin, hout]
      rfl

/-! ## One call of the other library -/

/-- A read gives as many bytes as the kernel does. -/
theorem syscall_read (sz n : Nat) (hn : n = min (min (max 1 (short w.reads)) sz) w.input.length) :
    perform (syscall short accept) buf (.read sz) w
      = .ok (⟨n, w.input.take n, w.input.drop n, w.output⟩,
          { w with input := w.input.drop n, reads := w.reads + 1 }) := by
  have hlength : (w.input.take n).length = n := List.length_take_of_le (by omega)
  have hslice : slice (fun k => if k < n then w.input.getD k 0 else buf k) n = w.input.take n := by
    have heq := @Io61.slice_eq (fun k => if k < n then w.input.getD k 0 else buf k)
      (w.input.take n) ?_
    · rw [hlength] at heq
      exact heq
    · intro k hk
      rw [hlength] at hk
      rw [if_pos hk, List.getD_eq_getElem?_getD, List.getD_eq_getElem?_getD,
        List.getElem?_take_of_lt hk]
  rw [perform, syscall]
  dsimp only
  rw [sysRead, ← hn]
  show Except.ok ((⟨_, _, _, _⟩ : Outcome), _) = _
  rw [Int.toNat_natCast, hslice]

/-- A write of the other library, in which the kernel takes what it takes. -/
theorem syscall_write (b : Buffer) (sz n : Nat)
    (hn : n = min (max 1 (accept w.output.length)) sz) :
    perform (syscall short accept) buf (.write b sz) w
      = .ok (⟨n, [], w.input, w.output ++ slice b n⟩,
          { w with output := w.output ++ slice b n }) := by
  rw [hn]
  rfl

theorem length_slice (b : Buffer) (n : Nat) : (slice b n).length = n := by
  rw [slice, List.length_map, List.length_range]

/-- A list of outcomes, outcome by outcome. -/
theorem ok_cons_iff {α : Type} {x : Except String (List α)} {a b : α} {L : List α} :
    x.map (a :: ·) = .ok (b :: L) ↔ a = b ∧ x = .ok L := by
  cases x with
  | error e => exact ⟨fun h => (nomatch h), fun h => (nomatch h.2)⟩
  | ok M =>
      constructor
      · intro h
        obtain ⟨hab, hML⟩ := List.cons.inj (Except.ok.inj h)
        exact ⟨hab, congrArg Except.ok hML⟩
      · rintro ⟨rfl, hM⟩
        rw [hM]
        rfl

/-- The other library keeps the contract exactly under full transfers. -/
theorem syscall_outcomes_iff :
    outcomes (syscall short accept) buf cs w = .ok (contract cs w.input w.output)
      ↔ Full short accept cs w.reads w.input.length w.output.length := by
  induction cs generalizing w with
  | nil => exact iff_of_true rfl trivial
  | cons c cs ih =>
      cases c with
      | read sz =>
          -- the size of the transfer
          generalize hn : min (min (max 1 (short w.reads)) sz) w.input.length = n
          rw [outcomes, syscall_read sz n hn.symm, contract, Full]
          dsimp only
          rw [ok_cons_iff]
          -- a read is as expected when its transfer is full
          have hfull : (⟨n, w.input.take n, w.input.drop n, w.output⟩ : Outcome)
              = expected w.input w.output (.read sz) ↔ n = min sz w.input.length := by
            constructor
            · intro h
              exact Int.ofNat.inj (congrArg Outcome.value h)
            · intro h
              rw [expected, h, ← List.take_eq_take_min, ← List.drop_eq_drop_min]
          rw [hfull]
          constructor
          · rintro ⟨hmin, hrest⟩
            rw [hmin, ← List.drop_eq_drop_min] at hrest
            have hfull := ih.mp hrest
            rw [List.length_drop] at hfull
            exact ⟨by omega, hfull⟩
          · rintro ⟨hmin, hrest⟩
            have hn' : n = min sz w.input.length := by omega
            refine ⟨hn', ?_⟩
            rw [hn', ← List.drop_eq_drop_min]
            refine ih.mpr ?_
            rw [List.length_drop]
            exact hrest
      | write b sz =>
          generalize hn : min (max 1 (accept w.output.length)) sz = n
          rw [outcomes, syscall_write b sz n hn.symm, contract, Full]
          dsimp only
          rw [ok_cons_iff]
          -- a write likewise
          have hfull : (⟨n, [], w.input, w.output ++ slice b n⟩ : Outcome)
              = expected w.input w.output (.write b sz) ↔ n = sz := by
            constructor
            · intro h
              exact Int.ofNat.inj (congrArg Outcome.value h)
            · intro h
              rw [expected, h]
          rw [hfull]
          constructor
          · rintro ⟨rfl, hrest⟩
            have hfull := ih.mp hrest
            rw [List.length_append, length_slice] at hfull
            exact ⟨by omega, hfull⟩
          · rintro ⟨hle, hrest⟩
            have hn' : n = sz := by omega
            refine ⟨hn', ?_⟩
            rw [hn']
            refine ih.mpr ?_
            rw [List.length_append, length_slice]
            exact hrest

/-- **CONTRACT**: over every sequence of calls the slow library gives what the
    contract says, and the other one does exactly when the kernel makes no partial
    transfer. -/
theorem outcomes_iff (short accept : Nat → Nat) (buf : Buffer)
    (hinput : w.input.length < 2 ^ 63) (hcs : ∀ c ∈ cs, c.size < 2 ^ 63) :
    outcomes (slow short accept) buf cs w = .ok (contract cs w.input w.output)
    ∧ (outcomes (syscall short accept) buf cs w = .ok (contract cs w.input w.output)
      ↔ Full short accept cs w.reads w.input.length w.output.length) :=
  ⟨slow_outcomes hinput hcs, syscall_outcomes_iff⟩

/-- Two bytes that are read and written at once. -/
theorem outcomes_iff_twoBytes :
    let w : World := { input := [1, 2], output := [], errno := 0, reads := 0 }
    let cs : List Call := [.read 4, .write (fun _ => 7) 2]
    outcomes (slow (fun _ => 4) fun _ => 4) (fun _ => 0) cs w = .ok (contract cs w.input w.output)
    ∧ (outcomes (syscall (fun _ => 4) fun _ => 4) (fun _ => 0) cs w
          = .ok (contract cs w.input w.output)
      ↔ Full (fun _ => 4) (fun _ => 4) cs w.reads w.input.length w.output.length) := by
  refine outcomes_iff (fun _ => 4) (fun _ => 4) (fun _ => 0) (by decide) ?_
  intro c hc
  rcases List.mem_cons.mp hc with rfl | hc
  · decide
  · rw [List.mem_singleton.mp hc]
    decide

/-- A write of two bytes of which the kernel accepts one. -/
theorem syscall_cuts_write :
    ¬ ∀ (short accept : Nat → Nat) (buf : Buffer) (cs : List Call) (w : World),
      w.input.length < 2 ^ 63 → (∀ c ∈ cs, c.size < 2 ^ 63) →
      outcomes (syscall short accept) buf cs w = .ok (contract cs w.input w.output) := by
  intro hall
  have hfull := syscall_outcomes_iff.mp (hall (fun _ => 1) (fun _ => 1) (fun _ => 0)
    [.write (fun _ => 7) 2] { input := [], output := [], errno := 0, reads := 0 } (by decide)
    fun c hc => by
      rw [List.mem_singleton.mp hc]
      decide)
  exact absurd hfull.1 (by decide)

end IoContract
