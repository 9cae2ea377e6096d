import Mathlib.Data.List.Basic
import Mathlib.Logic.Function.Basic
import Mathlib.Tactic.Ring

/-! # `io61` — two libraries over the system calls

    `slow-io61.cc` makes one system call for each byte, `syscall-io61.cc` one
    for each block.  The system calls follow a schedule of short reads: a read
    before the end of the file gives at least one byte and at most as many as
    it was asked for, as the schedule says.

    A block read gives some bytes of the input, and none only at its end
    (`GivesBlocks`); a block write puts all bytes out (`PutsBlocks`).  Both
    libraries are `Faithful`, and so is what the helpers build from single
    bytes. -/

namespace Io61

/-- An array of bytes. -/
abbrev Buffer := Nat → UInt8

/-- What the system calls work on: the input still to be read, the output so
    far, `errno`, and the number of `read` calls made. -/
structure World where
  input : List UInt8
  output : List UInt8
  errno : Int
  reads : Nat

/-- The first `n` bytes of an array. -/
def slice (buf : Buffer) (n : Nat) : List UInt8 := (List.range n).map buf

/-- What `io61_readc` returns at the end of the file. -/
def eof : Int := -1

/-- A `size_t` as an `ssize_t`. -/
def ssize (n : Nat) : Int := Int.bmod n (2 ^ 64)

/-- An `int` as an `unsigned char`. -/
def uchar (c : Int) : UInt8 := UInt8.ofNat (c % 256).toNat

/-! ## System calls -/

/-- `read(fd, buf, sz)`, under a schedule of short reads. -/
def sysRead (short : Nat → Nat) (buf : Buffer) (sz : Nat) (w : World) : Int × Buffer × World :=
  let n := min (min (max 1 (short w.reads)) sz) w.input.length
  (n, fun k => if k < n then w.input.getD k 0 else buf k,
    { w with input := w.input.drop n, reads := w.reads + 1 })

/-- `write(fd, buf, sz)`, which accepts all bytes. -/
def sysWrite (buf : Buffer) (sz : Nat) (w : World) : Int × World :=
  (sz, { w with output := w.output ++ slice buf sz })

/-! ## The libraries

    A failed assertion ends a call with the text of the expression. -/

/-- The four functions of a version of the library. -/
structure Library where
  readc : World → Except String (Int × World)
  read : Buffer → Nat → World → Except String (Int × Buffer × World)
  writec : Int → World → Except String (Int × World)
  write : Buffer → Nat → World → Except String (Int × World)

/-- `io61_readc(f)`. -/
def readc (short : Nat → Nat) (w : World) : Except String (Int × World) :=
  match sysRead short (fun _ => 0) 1 w with
  | (nr, ch, w) =>
      if nr ≠ 1 then
        if nr = 0 ∨ nr = -1 then .ok (-1, if nr = 0 then { w with errno := 0 } else w)
        else .error "nr == 0 || nr == -1"
      else .ok ((ch 0).toNat, w)

/-- `io61_writec(f, c)`. -/
def writec (c : Int) (w : World) : Except String (Int × World) :=
  match sysWrite (fun _ => uchar c) 1 w with
  | (nw, w) =>
      if nw ≠ 1 then
        if nw = 0 ∨ nw = -1 then .ok (-1, w) else .error "nw == 0 || nw == -1"
      else .ok (0, w)

/-- `while (n != sz)` around `io61_readc`, with `left` passes to go: how many
    bytes there are when it stops. -/
def readLoop (readc : World → Except String (Int × World)) (stop : Int → Bool) :
    Nat → Nat → Buffer → World → Except String (Nat × Buffer × World)
  | 0, n, buf, w => .ok (n, buf, w)
  | left + 1, n, buf, w =>
      match readc w with
      | .error e => .error e
      | .ok (ch, w) =>
          if stop ch = true then .ok (n, buf, w)
          else readLoop readc stop left (n + 1) (Function.update buf n (uchar ch)) w

/-- `while (n != sz)` around `io61_writec`. -/
def writeLoop (writec : Int → World → Except String (Int × World)) (stop : Int → Bool)
    (buf : Buffer) : Nat → Nat → World → Except String (Nat × World)
  | 0, n, w => .ok (n, w)
  | left + 1, n, w =>
      match writec (buf n).toNat w with
      | .error e => .error e
      | .ok (r, w) => if stop r = true then .ok (n, w) else writeLoop writec stop buf left (n + 1) w

/-- `slow-io61.cc`. -/
def slow (short : Nat → Nat) : Library where
  readc := readc short
  read buf sz w :=
    (readLoop (readc short) (· == eof) sz 0 buf w).map fun (nread, buf, w) =>
      (if nread = 0 ∧ sz ≠ 0 ∧ w.errno ≠ 0 then -1 else ssize nread, buf, w)
  writec := writec
  write buf sz w :=
    (writeLoop writec (· == -1) buf sz 0 w).map fun (nwritten, w) =>
      (if nwritten = 0 ∧ sz ≠ 0 then -1 else ssize nwritten, w)

/-- `syscall-io61.cc`. -/
def syscall (short : Nat → Nat) : Library where
  readc := readc short
  read buf sz w := .ok (sysRead short buf sz w)
  writec := writec
  write buf sz w := .ok (sysWrite buf sz w)

/-- `io61_read_bytewise(f, buf, sz)`. -/
def readBytewise (lib : Library) (buf : Buffer) (sz : Nat) (w : World) :
    Except String (Int × Buffer × World) :=
  (readLoop lib.readc (fun ch => decide (ch < 0)) sz 0 buf w).map fun (nr, buf, w) =>
    (ssize nr, buf, w)

/-- `io61_write_bytewise(f, buf, sz)`. -/
def writeBytewise (lib : Library) (buf : Buffer) (sz : Nat) (w : World) :
    Except String (Int × World) :=
  (writeLoop lib.writec (fun r => decide (r < 0)) buf sz 0 w).map fun (nw, w) => (ssize nw, w)

/-! ## What reads and writes are for -/

/-- The bytes `bs` go from the input into the array. -/
structure Moves (bs : List UInt8) (buf : Buffer) (w w' : World) : Prop where
  input : w.input = bs ++ w'.input
  output : w'.output = w.output
  buf : slice buf bs.length = bs
  ended : bs = [] → w.input = []

/-- A read of a block of at least one byte. -/
def GivesBlock (sz : Nat) (read : Buffer → World → Except String (Int × Buffer × World)) : Prop :=
  ∀ buf w, w.input.length < 2 ^ 63 → ∃ bs buf' w',
    read buf w = .ok (bs.length, buf', w') ∧ bs.length ≤ sz ∧ Moves bs buf' w w'

/-- A read of all that is asked for, up to the end of the input. -/
def GivesAll (sz : Nat) (read : Buffer → World → Except String (Int × Buffer × World)) : Prop :=
  ∀ buf w, w.input.length < 2 ^ 63 → ∃ buf' w',
    read buf w = .ok (((min sz w.input.length : Nat) : Int), buf', w')
      ∧ slice buf' (min sz w.input.length) = w.input.take sz
      ∧ w'.input = w.input.drop sz ∧ w'.output = w.output

/-- A write of a block. -/
def PutsBlocks (write : Buffer → Nat → World → Except String (Int × World)) : Prop :=
  ∀ buf sz w, sz < 2 ^ 63 → ∃ w',
    write buf sz w = .ok (sz, w') ∧ w'.input = w.input ∧ w'.output = w.output ++ slice buf sz

/-- A read of one byte. -/
def GivesBytes (readc : World → Except String (Int × World)) : Prop :=
  ∀ w, (w.input = [] → ∃ w', readc w = .ok (-1, w') ∧ w'.input = [] ∧ w'.output = w.output
      ∧ w'.errno = 0)
    ∧ ∀ b L, w.input = b :: L → ∃ w', readc w = .ok (b.toNat, w') ∧ w'.input = L
      ∧ w'.output = w.output

/-- A write of one byte. -/
def PutsBytes (writec : Int → World → Except String (Int × World)) : Prop :=
  ∀ c w, ∃ w', writec c w = .ok (0, w') ∧ w'.input = w.input
    ∧ w'.output = w.output ++ [uchar c]

/-- What the programs ask of a library. -/
structure Faithful (lib : Library) : Prop where
  readc : GivesBytes lib.readc
  read : ∀ sz, 1 ≤ sz → GivesBlock sz fun buf w => lib.read buf sz w
  writec : PutsBytes lib.writec
  write : PutsBlocks lib.write

/-! ## Numbers and slices -/

theorem ssize_eq {n : Nat} (h : n < 2 ^ 63) : ssize n = n :=
  Int.bmod_eq_of_le_mul_two (by omega) (by omega)

theorem uchar_toNat (b : UInt8) : uchar b.toNat = b := by
  have hlt : b.toNat < 256 := b.toNat_lt
  have hmod : ((b.toNat : Int) % 256).toNat = b.toNat := by omega
  rw [uchar, hmod]
  exact UInt8.ofNat_toNat

/-- A buffer that holds the bytes. -/
theorem slice_eq {buf : Buffer} {bs : List UInt8}
    (h : ∀ k, k < bs.length → buf k = bs.getD k 0) : slice buf bs.length = bs := by
  refine List.ext_getElem (by rw [slice, List.length_map, List.length_range]) ?_
  intro k hk hk'
  simp only [slice, List.getElem_map, List.getElem_range]
  rw [h k hk', List.getD_eq_getElem?_getD, List.getElem?_eq_getElem hk', Option.getD_some]

/-! ## System calls -/

/-- A `read` gives a block. -/
theorem sysRead_gives (short : Nat → Nat) {sz : Nat} (hsz : 1 ≤ sz) :
    GivesBlock sz fun buf w => .ok (sysRead short buf sz w) := by
  intro buf w _
  generalize hn : min (min (max 1 (short w.reads)) sz) w.input.length = n
  have hle : n ≤ w.input.length := by omega
  have hlen : (w.input.take n).length = n := List.length_take_of_le hle
  refine ⟨w.input.take n, fun k => if k < n then w.input.getD k 0 else buf k,
    { w with input := w.input.drop n, reads := w.reads + 1 }, ?_, by omega, ?_⟩
  · show Except.ok (sysRead short buf sz w) = _
    rw [sysRead, hn, hlen]
  · refine ⟨(List.take_append_drop n w.input).symm, rfl, ?_, ?_⟩
    · refine slice_eq ?_
      intro k hk
      rw [hlen] at hk
      rw [if_pos hk, List.getD_eq_getElem?_getD, List.getD_eq_getElem?_getD,
        List.getElem?_take_of_lt hk]
    · intro hnil
      rw [hnil, List.length_nil] at hlen
      exact List.eq_nil_of_length_eq_zero (by omega)

/-- `write` writes a block. -/
theorem sysWrite_puts : PutsBlocks fun buf sz w => .ok (sysWrite buf sz w) := by
  intro buf sz w _
  exact ⟨_, rfl, rfl, rfl⟩

/-- `io61_readc` gives the next byte. -/
theorem readc_gives (short : Nat → Nat) : GivesBytes (readc short) := by
  intro w
  have hmin : ∀ m : Nat, min (min (max 1 m) 1) w.input.length = min 1 w.input.length := by
    intro m
    omega
  constructor
  · intro hnil
    have hn : min 1 w.input.length = 0 := by rw [hnil]; rfl
    refine ⟨{ w with reads := w.reads + 1, errno := 0 }, ?_, hnil, rfl, rfl⟩
    rw [readc, sysRead, hmin, hn]
    rfl
  · intro b L hcons
    have hn : min 1 w.input.length = 1 := by
      rw [hcons, List.length_cons]
      omega
    refine ⟨{ w with input := w.input.drop 1, reads := w.reads + 1 }, ?_, ?_, rfl⟩
    · rw [readc, sysRead, hmin, hn]
      simp [hcons]
    · show w.input.drop 1 = L
      rw [hcons]
      rfl

/-- `io61_writec` writes one. -/
theorem writec_puts : PutsBytes writec := by
  intro c w
  exact ⟨_, rfl, rfl, rfl⟩

/-! ## Loops over single bytes -/

section Loops

variable {readc : World → Except String (Int × World)}
  {writec : Int → World → Except String (Int × World)} {stop : Int → Bool}

/-- The loop of the byte-wise reads stops at the end of the input only. -/
theorem readLoop_spec (hreadc : GivesBytes readc) (hstop : stop (-1) = true)
    (hgo : ∀ b : UInt8, stop b.toNat = false) (left n : Nat) (buf : Buffer) (w : World) :
    ∃ bs buf' w', readLoop readc stop left n buf w = .ok (n + bs.length, buf', w')
      ∧ bs.length ≤ left ∧ w.input = bs ++ w'.input ∧ w'.output = w.output
      ∧ (∀ k, k < n → buf' k = buf k) ∧ (∀ k, k < bs.length → buf' (n + k) = bs.getD k 0)
      ∧ (bs.length < left → w'.input = [] ∧ w'.errno = 0) := by
  induction left generalizing n buf w with
  | zero =>
      refine ⟨[], buf, w, rfl, Nat.le_refl 0, rfl, rfl, fun _ _ => rfl, ?_, ?_⟩
      · intro k hk
        exact absurd hk (Nat.not_lt_zero k)
      · intro h
        exact absurd h (Nat.not_lt_zero _)
  | succ left ih =>
      obtain ⟨hend, hbyte⟩ := hreadc w
      cases hin : w.input with
      | nil =>
          -- the input is empty
          obtain ⟨w', hr, hinput, houtput, herrno⟩ := hend hin
          refine ⟨[], buf, w', ?_, Nat.zero_le _, hinput.symm, houtput, fun _ _ => rfl, ?_, ?_⟩
          · rw [readLoop, hr]
            exact if_pos hstop
          · intro k hk
            exact absurd hk (Nat.not_lt_zero k)
          · exact fun _ => ⟨hinput, herrno⟩
      | cons b L =>
          -- one byte, and then the rest
          obtain ⟨w', hr, hinput, houtput⟩ := hbyte b L hin
          obtain ⟨bs, buf', w'', hloop, hlen, hmove, hout, hkept, hread, hend⟩ :=
            ih (n + 1) (Function.update buf n (uchar b.toNat)) w'
          have hfirst : buf' n = b := by
            rw [hkept n (Nat.lt_succ_self n), Function.update_self, uchar_toNat]
          refine ⟨b :: bs, buf', w'', ?_, Nat.succ_le_succ hlen, ?_, hout.trans houtput, ?_, ?_, ?_⟩
          · rw [readLoop, hr]
            simp only [hgo b]
            rw [if_neg Bool.false_ne_true, hloop, List.length_cons, Nat.add_right_comm,
              Nat.add_assoc]
          · rw [← hinput, hmove, List.cons_append]
          · intro k hk
            rw [hkept k (by omega), Function.update_of_ne (by omega)]
          · intro k hk
            cases k with
            | zero => exact hfirst
            | succ k =>
                rw [← Nat.add_assoc, Nat.add_right_comm]
                exact hread k (Nat.lt_of_succ_lt_succ hk)
          · exact fun hlt => hend (Nat.lt_of_succ_lt_succ hlt)

/-- The loop writes all that is left. -/
theorem writeLoop_spec (hwritec : PutsBytes writec) (hgo : stop 0 = false) (buf : Buffer)
    (left n : Nat) (w : World) :
    ∃ w', writeLoop writec stop buf left n w = .ok (n + left, w') ∧ w'.input = w.input
      ∧ w'.output = w.output ++ (List.range' n left).map buf := by
  induction left generalizing n w with
  | zero => exact ⟨w, rfl, rfl, (List.append_nil _).symm⟩
  | succ left ih =>
      obtain ⟨w', hw, hinput, houtput⟩ := hwritec (buf n).toNat w
      obtain ⟨w'', hloop, hin, hout⟩ := ih (n + 1) w'
      refine ⟨w'', ?_, hin.trans hinput, ?_⟩
      · rw [writeLoop, hw]
        simp only [hgo]
        rw [if_neg Bool.false_ne_true, hloop, Nat.add_right_comm, Nat.add_assoc]
      · rw [hout, houtput, uchar_toNat, List.range'_succ, List.map_cons, List.append_assoc]
        rfl

/-- A block read byte by byte, with a return value that is the count unless
    nothing is read. -/
theorem readLoop_gives (hreadc : GivesBytes readc) (hstop : stop (-1) = true)
    (hgo : ∀ b : UInt8, stop b.toNat = false) {sz : Nat} (hsz : 1 ≤ sz)
    (ret : Nat → World → Int) (hret : ∀ n w, n < 2 ^ 63 → n ≠ 0 ∨ w.errno = 0 → ret n w = n) :
    GivesBlock sz fun buf w => (readLoop readc stop sz 0 buf w).map fun (n, buf, w) =>
      (ret n w, buf, w) := by
  intro buf w hlt
  obtain ⟨bs, buf', w', hloop, hlen, hmove, hout, -, hread, hend⟩ :=
    readLoop_spec hreadc hstop hgo sz 0 buf w
  have hbound : bs.length < 2 ^ 63 := by
    rw [hmove, List.length_append] at hlt
    omega
  have hret' : ret bs.length w' = bs.length := by
    refine hret _ _ hbound ?_
    by_cases hnil : bs = []
    · exact Or.inr (hend (by rw [hnil]; exact hsz)).2
    · exact Or.inl (fun h => hnil (List.eq_nil_of_length_eq_zero h))
  refine ⟨bs, buf', w', ?_, hlen, hmove, hout, ?_, ?_⟩
  · dsimp only
    rw [hloop, Nat.zero_add]
    exact congrArg (fun r => Except.ok (r, buf', w')) hret'
  · refine slice_eq ?_
    intro k hk
    rw [← hread k hk, Nat.zero_add]
  · intro hnil
    rw [hmove, hnil, (hend (by rw [hnil]; exact hsz)).1]
    rfl

/-- A loop over single bytes stops at the end of the input only. -/
theorem readLoop_givesAll (hreadc : GivesBytes readc) (hstop : stop (-1) = true)
    (hgo : ∀ b : UInt8, stop b.toNat = false) (sz : Nat) (ret : Nat → World → Int)
    (hret : ∀ n w, n < 2 ^ 63 → n ≠ 0 ∨ sz = 0 ∨ w.errno = 0 → ret n w = n) :
    GivesAll sz fun buf w => (readLoop readc stop sz 0 buf w).map fun (n, buf, w) =>
      (ret n w, buf, w) := by
  intro buf w hlt
  obtain ⟨bs, buf', w', hloop, hlen, hmove, hout, -, hread, hend⟩ :=
    readLoop_spec hreadc hstop hgo sz 0 buf w
  have hcount : bs.length = min sz w.input.length := by
    rw [hmove, List.length_append]
    by_cases hshort : bs.length < sz
    · rw [(hend hshort).1, List.length_nil]
      omega
    · omega
  have hret' : ret bs.length w' = bs.length := by
    refine hret _ _ (by omega) ?_
    by_cases hshort : bs.length < sz
    · exact Or.inr (Or.inr (hend hshort).2)
    · omega
  have hslice : slice buf' bs.length = bs := slice_eq fun k hk => by
    rw [← hread k hk, Nat.zero_add]
  refine ⟨buf', w', ?_, ?_, ?_, hout⟩
  · dsimp only
    rw [hloop, Nat.zero_add, ← hcount]
    exact congrArg (fun r => Except.ok (r, buf', w')) hret'
  · rw [← hcount, hslice, List.take_eq_take_min, ← hcount, hmove, List.take_left]
  · rw [List.drop_eq_drop_min, ← hcount, hmove, List.drop_left]

/-- A block written byte by byte. -/
theorem writeLoop_puts (hwritec : PutsBytes writec) (hgo : stop 0 = false)
    (ret : Nat → Nat → Int) (hret : ∀ sz, sz < 2 ^ 63 → ret sz sz = sz) :
    PutsBlocks fun buf sz w => (writeLoop writec stop buf sz 0 w).map fun (n, w) =>
      (ret sz n, w) := by
  intro buf sz w hsz
  obtain ⟨w', hloop, hin, hout⟩ := writeLoop_spec hwritec hgo buf sz 0 w
  refine ⟨w', ?_, hin, ?_⟩
  · dsimp only
    rw [hloop, Nat.zero_add]
    exact congrArg (fun r => Except.ok (r, w')) (hret sz hsz)
  · rw [hout, slice, List.range_eq_range']

end Loops

/-! ## Both libraries -/

theorem beq_neg_one_toNat (b : UInt8) : ((b.toNat : Int) == -1) = false := by
  rw [beq_eq_false_iff_ne]
  omega

/-- `io61_read` of the slow library gives what was asked for, or the rest of the file. -/
theorem slow_read_gives (short : Nat → Nat) {sz : Nat} (hsz : 1 ≤ sz) :
    GivesBlock sz fun buf w => (slow short).read buf sz w := by
  refine readLoop_gives (readc_gives short) (by decide) beq_neg_one_toNat hsz
    (fun n w => if n = 0 ∧ sz ≠ 0 ∧ w.errno ≠ 0 then -1 else ssize n) ?_
  intro n w hn hor
  show (if n = 0 ∧ sz ≠ 0 ∧ w.errno ≠ 0 then -1 else ssize n) = (n : Int)
  rw [if_neg (by omega), ssize_eq hn]

/-- Its `io61_write` writes all. -/
theorem slow_write_puts (short : Nat → Nat) : PutsBlocks (slow short).write := by
  refine writeLoop_puts writec_puts (by decide)
    (fun sz n => if n = 0 ∧ sz ≠ 0 then -1 else ssize n) ?_
  intro sz hsz
  show (if sz = 0 ∧ sz ≠ 0 then -1 else ssize sz) = (sz : Int)
  rw [if_neg (by omega), ssize_eq hsz]

/-- The slow library keeps its promises. -/
theorem slow_faithful (short : Nat → Nat) : Faithful (slow short) :=
  ⟨readc_gives short, fun _ hsz => slow_read_gives short hsz, writec_puts, slow_write_puts short⟩

/-- So does the other. -/
theorem syscall_faithful (short : Nat → Nat) : Faithful (syscall short) :=
  ⟨readc_gives short, fun _ hsz => sysRead_gives short hsz, writec_puts, sysWrite_puts⟩

/-- Reading byte by byte gives a block. -/
theorem readBytewise_gives {lib : Library} (h : Faithful lib) {sz : Nat} (hsz : 1 ≤ sz) :
    GivesBlock sz fun buf w => readBytewise lib buf sz w := by
  refine readLoop_gives h.readc (by decide) ?_ hsz (fun n _ => ssize n) ?_
  · intro b
    exact decide_eq_false (by omega)
  · intro n _ hn _
    exact ssize_eq hn

/-- Writing byte by byte writes one. -/
theorem writeBytewise_puts {lib : Library} (h : Faithful lib) : PutsBlocks (writeBytewise lib) := by
  refine writeLoop_puts h.writec (by decide) (fun _ n => ssize n) ?_
  intro sz hsz
  exact ssize_eq hsz

end Io61
