import Cs61.Io61
import Cs61.LoopRules

/-! # `cat61`, `blockcat61` and `varblockcat61` — the copy loops

    The three programs copy a file over any library that is faithful.  The two
    block programs have one loop in common; they differ in how a block is read
    and written.  `copies` says that all of them put out what they read, with
    both libraries and under every schedule of short reads. -/

namespace CatPrograms

open Io61 LoopRules

/-! ## Arguments -/

/-- `SIZE_MAX`. -/
def sizeMax : Nat := 2 ^ 64 - 1

/-- What a program reads.  Its size is an `off_t`. -/
structure File where
  bytes : List UInt8
  size_lt : bytes.length < 2 ^ 63

/-- The arguments of the block programs: `-b`, `-R`, `-W` and `-X`.
    `parse` rejects a block size of 0. -/
structure Args where
  blockSize : Nat
  readBytewise : Bool
  writeBytewise : Bool
  exponential : Bool
  blockSize_pos : 1 ≤ blockSize

/-- The numbers that `szdistrib` gives, one after the other.  With `-X` they
    are exponents, and any of them will do. -/
structure Draws (args : Args) where
  draw : Nat → Nat
  inRange : args.exponential = false → ∀ k, 1 ≤ draw k ∧ draw k ≤ args.blockSize

/-- The block size of one pass of `varblockcat61`.  The shift count is taken
    modulo 64, as the processor does. -/
def Draws.size {args : Args} (d : Draws args) (k : Nat) : Nat :=
  if args.exponential = true then min (1 <<< (d.draw k % 64)) args.blockSize else d.draw k

/-- Before the first system call. -/
def start (bytes : List UInt8) : World := { input := bytes, output := [], errno := 0, reads := 0 }

/-! ## `cat61` -/

/-- The variables of `cat61`. -/
structure Cat where
  fileSize : Nat
  world : World

/-- `while (args.file_size != 0)`. -/
def cat61Body (lib : Library) (s : Cat) : Turn Cat (Except String World) :=
  if s.fileSize ≠ 0 then
    match lib.readc s.world with
    | .error e => .leave (.error e)
    | .ok (ch, w) =>
        if ch = eof then .leave (.ok w)
        else
          match lib.writec ch w with
          | .error e => .leave (.error e)
          | .ok (r, w) =>
              if r = 0 then .again { fileSize := s.fileSize - 1, world := w }
              else .leave (.error "r == 0")
  else .leave (.ok s.world)

/-- The output of `cat61`, or the assertion that fails. -/
def cat61 (lib : Library) (fileSize : Nat) (bytes : List UInt8) (fuel : Nat) :
    Option (Except String (List UInt8)) :=
  (run (cat61Body lib) fuel { fileSize := fileSize, world := start bytes }).map
    (Except.map World.output)

/-! ## The block programs -/

/-- The variables of the loops that copy blocks. -/
structure Copy where
  k : Nat
  buf : Buffer
  world : World

/-- `while (true)`: read a block, leave if there is none, write it. -/
def copyBody (read : Nat → Buffer → World → Except String (Int × Buffer × World))
    (write : Nat → Buffer → Nat → World → Except String (Int × World)) (s : Copy) :
    Turn Copy (Except String World) :=
  match read s.k s.buf s.world with
  | .error e => .leave (.error e)
  | .ok (nr, buf, w) =>
      if nr ≤ 0 then .leave (.ok w)
      else
        match write s.k buf nr.toNat w with
        | .error e => .leave (.error e)
        | .ok (nw, w) =>
            if nw = nr then .again { k := s.k + 1, buf := buf, world := w }
            else .leave (.error "nw == nr")

/-- A program that copies blocks, with a buffer that is not initialized. -/
def copyBlocks (read : Nat → Buffer → World → Except String (Int × Buffer × World))
    (write : Nat → Buffer → Nat → World → Except String (Int × World)) (buf : Buffer)
    (bytes : List UInt8) (fuel : Nat) : Option (Except String (List UInt8)) :=
  (run (copyBody read write) fuel { k := 0, buf := buf, world := start bytes }).map
    (Except.map World.output)

/-- `-R`: how a block of `sz` bytes is read. -/
def readBlock (lib : Library) (args : Args) (sz : Nat) (buf : Buffer) (w : World) :
    Except String (Int × Buffer × World) :=
  if args.readBytewise = true then readBytewise lib buf sz w else lib.read buf sz w

/-- `-W`: how a block is written. -/
def writeBlock (lib : Library) (args : Args) (buf : Buffer) (nr : Nat) (w : World) :
    Except String (Int × World) :=
  if args.writeBytewise = true then writeBytewise lib buf nr w else lib.write buf nr w

/-- `blockcat61`. -/
def blockcat61 (lib : Library) (args : Args) (buf : Buffer) (bytes : List UInt8) (fuel : Nat) :
    Option (Except String (List UInt8)) :=
  copyBlocks (fun _ => readBlock lib args args.blockSize) (fun _ => writeBlock lib args) buf bytes
    fuel

/-- `int ch = io61_readc(inf); buf[0] = ch; nr = ch >= 0 ? 1 : 0`. -/
def readOne (lib : Library) (buf : Buffer) (w : World) : Except String (Int × Buffer × World) :=
  (lib.readc w).map fun (ch, w) =>
    (if 0 ≤ ch then 1 else 0, Function.update buf 0 (uchar ch), w)

/-- `nw = io61_writec(outf, buf[0]) >= 0 ? 1 : 0`. -/
def writeOne (lib : Library) (buf : Buffer) (w : World) : Except String (Int × World) :=
  (lib.writec (buf 0).toNat w).map fun (r, w) => (if 0 ≤ r then 1 else 0, w)

/-- `varblockcat61`. -/
def varblockcat61 (lib : Library) (args : Args) (d : Draws args) (buf : Buffer)
    (bytes : List UInt8) (fuel : Nat) : Option (Except String (List UInt8)) :=
  copyBlocks
    (fun k buf w => if d.size k = 1 then readOne lib buf w else readBlock lib args (d.size k) buf w)
    (fun k buf nr w => if d.size k = 1 then writeOne lib buf w else writeBlock lib args buf nr w)
    buf bytes fuel

/-! ## The common loop -/

/-- A write of blocks of at most `m` bytes. -/
def PutsUpTo (m : Nat) (write : Buffer → Nat → World → Except String (Int × World)) : Prop :=
  ∀ buf n w, 1 ≤ n → n ≤ m → n < 2 ^ 63 → ∃ w', write buf n w = .ok (n, w')
    ∧ w'.input = w.input ∧ w'.output = w.output ++ slice buf n

/-- All of the file is in the output or still in the input. -/
def Conserves (bytes : List UInt8) (w : World) : Prop := w.output ++ w.input = bytes

/-- The program has put out the file. -/
def Copied (bytes : List UInt8) (r : Except String World) : Prop :=
  ∃ w, r = .ok w ∧ w.output = bytes

theorem Conserves.input_lt {file : File} {w : World} (h : Conserves file.bytes w) :
    w.input.length < 2 ^ 63 := by
  have hsize := file.size_lt
  rw [← h, List.length_append] at hsize
  omega

section Loop

variable {read : Nat → Buffer → World → Except String (Int × Buffer × World)}
  {write : Nat → Buffer → Nat → World → Except String (Int × World)} {sz : Nat → Nat}

/-- **ONE BLOCK** goes from the input to the output, or the input is empty. -/
theorem copyBody_step (hread : ∀ k, GivesBlock (sz k) (read k))
    (hwrite : ∀ k, PutsUpTo (sz k) (write k)) {file : File} {s : Copy}
    (h : Conserves file.bytes s.world) :
    (∃ r, copyBody read write s = .leave r ∧ Copied file.bytes r)
      ∨ ∃ s', copyBody read write s = .again s' ∧ Conserves file.bytes s'.world
          ∧ s'.world.input.length < s.world.input.length
          ∧ ∀ r, Copied file.bytes r → Copied file.bytes r := by
  have hlt := h.input_lt
  obtain ⟨bs, buf, w, hr, hle, hmoves⟩ := hread s.k s.buf s.world hlt
  have hinput := hmoves.input
  rw [copyBody, hr]
  by_cases hnil : bs = []
  · have hend := hmoves.ended hnil
    refine Or.inl ⟨.ok w, ?_, w, rfl, ?_⟩
    · rw [hnil]
      rfl
    · rw [hmoves.output, ← h, hend, List.append_nil]
  · have hpos : 1 ≤ bs.length := List.length_pos_iff.mpr hnil
    have hbound : bs.length < 2 ^ 63 := by
      rw [hinput, List.length_append] at hlt
      omega
    obtain ⟨w', hw, hin, hout⟩ := hwrite s.k buf bs.length w hpos hle hbound
    refine Or.inr ⟨{ k := s.k + 1, buf := buf, world := w' }, ?_, ?_, ?_, fun _ hr => hr⟩
    · dsimp only
      rw [if_neg (by omega), Int.toNat_natCast, hw]
      exact if_pos rfl
    · show w'.output ++ w'.input = file.bytes
      rw [hout, hin, hmoves.buf, hmoves.output, List.append_assoc, ← hinput]
      exact h
    · show w'.input.length < s.world.input.length
      rw [hin, hinput, List.length_append]
      omega

/-- The common loop copies the file. -/
theorem copyBlocks_copies (hread : ∀ k, GivesBlock (sz k) (read k))
    (hwrite : ∀ k, PutsUpTo (sz k) (write k)) (buf : Buffer) (file : File) :
    Returns (copyBlocks read write buf file.bytes) (.ok file.bytes) := by
  obtain ⟨r, ⟨w, rfl, hw⟩, hrun⟩ := run_measure (fun s : Copy => Conserves file.bytes s.world)
    (fun s => s.world.input.length) (fun _ r => Copied file.bytes r)
    (fun _ h => copyBody_step hread hwrite h)
    { k := 0, buf := buf, world := start file.bytes } (List.nil_append _)
  have hout : Except.map World.output (.ok w) = (.ok file.bytes : Except String _) :=
    congrArg Except.ok hw
  rw [← hout]
  exact Returns.map (Except.map World.output) ⟨_, fun fuel hf => hrun fuel hf⟩

end Loop

/-! ## The programs -/

variable {lib : Library}

/-- A block is read, whichever function does it. -/
theorem readBlock_gives (h : Faithful lib) (args : Args) {sz : Nat} (hsz : 1 ≤ sz) :
    GivesBlock sz (readBlock lib args sz) := by
  intro buf w hlt
  rw [readBlock]
  split
  · exact readBytewise_gives h hsz buf w hlt
  · exact h.read sz hsz buf w hlt

/-- A block is written, whichever function does it. -/
theorem writeBlock_puts (h : Faithful lib) (args : Args) (m : Nat) :
    PutsUpTo m (writeBlock lib args) := by
  intro buf n w _ _ hlt
  rw [writeBlock]
  split
  · exact writeBytewise_puts h buf n w hlt
  · exact h.write buf n w hlt

/-- A single character is read. -/
theorem readOne_gives (h : Faithful lib) : GivesBlock 1 (readOne lib) := by
  intro buf w _
  obtain ⟨hend, hbyte⟩ := h.readc w
  rw [readOne]
  cases hin : w.input with
  | nil =>
      obtain ⟨w', hr, hinput, houtput, -⟩ := hend hin
      refine ⟨[], _, w', by rw [hr]; rfl, Nat.zero_le 1, ?_⟩
      exact ⟨by rw [hin, hinput]; rfl, houtput, rfl, fun _ => hin⟩
  | cons b L =>
      obtain ⟨w', hr, hinput, houtput⟩ := hbyte b L hin
      refine ⟨[b], Function.update buf 0 (uchar b.toNat), w', ?_, Nat.le_refl 1, ?_⟩
      · rw [hr]
        show Except.ok (if (0 : Int) ≤ b.toNat then (1 : Int) else 0, _, w') = _
        rw [if_pos (by omega)]
        rfl
      · refine ⟨by rw [hin, hinput]; rfl, houtput, ?_, fun hnil => absurd hnil (List.cons_ne_nil b [])⟩
        show [Function.update buf 0 (uchar b.toNat) 0] = [b]
        rw [Function.update_self, uchar_toNat]

/-- A single character is written. -/
theorem writeOne_puts (h : Faithful lib) : PutsUpTo 1 fun buf _ w => writeOne lib buf w := by
  intro buf n w hpos hle _
  obtain rfl : n = 1 := Nat.le_antisymm hle hpos
  obtain ⟨w', hw, hin, hout⟩ := h.writec (buf 0).toNat w
  refine ⟨w', ?_, hin, ?_⟩
  · dsimp only
    rw [writeOne, hw]
    rfl
  · rw [hout, uchar_toNat]
    rfl

theorem Draws.size_pos {args : Args} (d : Draws args) (k : Nat) : 1 ≤ d.size k := by
  rw [Draws.size]
  split
  · rw [Nat.one_shiftLeft]
    exact Nat.le_min.mpr ⟨Nat.two_pow_pos _, args.blockSize_pos⟩
  · rename_i hexp
    exact (d.inRange (Bool.eq_false_iff.mpr hexp) k).1

/-- `blockcat61` copies its input. -/
theorem blockcat61_copies (h : Faithful lib) (args : Args) (buf : Buffer) (file : File) :
    Returns (blockcat61 lib args buf file.bytes) (.ok file.bytes) :=
  copyBlocks_copies (fun _ => readBlock_gives h args args.blockSize_pos)
    (fun _ => writeBlock_puts h args _) buf file

/-- `varblockcat61` copies its input, whatever sizes it draws. -/
theorem varblockcat61_copies (h : Faithful lib) (args : Args) (d : Draws args) (buf : Buffer)
    (file : File) : Returns (varblockcat61 lib args d buf file.bytes) (.ok file.bytes) := by
  refine @copyBlocks_copies _ _ d.size ?_ ?_ buf file
  · intro k buf w hlt
    dsimp only
    split
    · rename_i hone
      rw [hone]
      exact readOne_gives h buf w hlt
    · exact readBlock_gives h args (d.size_pos k) buf w hlt
  · intro k buf n w hpos hle hlt
    dsimp only
    split
    · rename_i hone
      rw [hone] at hle
      exact writeOne_puts h buf n w hpos hle hlt
    · exact writeBlock_puts h args _ buf n w hpos hle hlt

/-- **ONE BYTE** goes from the input to the output, or the input is empty. -/
theorem cat61Body_step (h : Faithful lib) {file : File} {s : Cat}
    (hinv : Conserves file.bytes s.world ∧ s.world.input.length ≤ s.fileSize) :
    (∃ r, cat61Body lib s = .leave r ∧ Copied file.bytes r)
      ∨ ∃ s', cat61Body lib s = .again s'
          ∧ (Conserves file.bytes s'.world ∧ s'.world.input.length ≤ s'.fileSize)
          ∧ s'.world.input.length < s.world.input.length
          ∧ ∀ r, Copied file.bytes r → Copied file.bytes r := by
  obtain ⟨hcons, hsize⟩ := hinv
  rw [cat61Body]
  -- nothing is left to copy
  by_cases hzero : s.fileSize = 0
  · have hend : s.world.input = [] := List.eq_nil_of_length_eq_zero (by omega)
    refine Or.inl ⟨.ok s.world, if_neg (not_not.mpr hzero), s.world, rfl, ?_⟩
    rw [← hcons, hend, List.append_nil]
  rw [if_pos hzero]
  obtain ⟨hend, hbyte⟩ := h.readc s.world
  cases hin : s.world.input with
  | nil =>
      -- the file has ended
      obtain ⟨w', hr, hinput, houtput, -⟩ := hend hin
      refine Or.inl ⟨.ok w', by rw [hr]; rfl, w', rfl, ?_⟩
      rw [houtput, ← hcons, hin, List.append_nil]
  | cons b L =>
      -- a byte is read, and written
      obtain ⟨w', hr, hinput, houtput⟩ := hbyte b L hin
      obtain ⟨w'', hw, hin', hout'⟩ := h.writec b.toNat w'
      have hne : (b.toNat : Int) ≠ eof := by
        rw [eof]
        omega
      refine Or.inr ⟨{ fileSize := s.fileSize - 1, world := w'' }, ?_, ⟨?_, ?_⟩, ?_,
        fun _ hr => hr⟩
      · rw [hr]
        dsimp only
        rw [if_neg hne, hw]
        exact if_pos rfl
      · show w''.output ++ w''.input = file.bytes
        rw [hout', hin', uchar_toNat, houtput, hinput, List.append_assoc, List.singleton_append,
          ← hin]
        exact hcons
      · show w''.input.length ≤ s.fileSize - 1
        rw [hin, List.length_cons] at hsize
        rw [hin', hinput]
        omega
      · show w''.input.length < _
        rw [hin', hinput, List.length_cons]
        exact Nat.lt_succ_self _

/-- `cat61` copies its input. -/
theorem cat61_copies (h : Faithful lib) (file : File) :
    Returns (cat61 lib sizeMax file.bytes) (.ok file.bytes) := by
  obtain ⟨r, ⟨w, rfl, hw⟩, hrun⟩ := run_measure
    (fun s : Cat => Conserves file.bytes s.world ∧ s.world.input.length ≤ s.fileSize)
    (fun s => s.world.input.length) (fun _ r => Copied file.bytes r)
    (fun _ hinv => cat61Body_step h hinv) { fileSize := sizeMax, world := start file.bytes }
    ⟨List.nil_append _, by
      have hsize := file.size_lt
      show file.bytes.length ≤ sizeMax
      rw [sizeMax]
      omega⟩
  have hout : Except.map World.output (.ok w) = (.ok file.bytes : Except String _) :=
    congrArg Except.ok hw
  rw [← hout]
  exact Returns.map (Except.map World.output) ⟨_, fun fuel hf => hrun fuel hf⟩

/-! ## Both libraries -/

/-- The two libraries. -/
inductive Version where
  | slow
  | syscall
deriving DecidableEq

/-- The library that a build of the programs is linked with. -/
def Version.library : Version → (Nat → Nat) → Library
  | .slow => Io61.slow
  | .syscall => Io61.syscall

/-- Both libraries do what they promise. -/
theorem Version.faithful (v : Version) (short : Nat → Nat) : Faithful (v.library short) := by
  cases v with
  | slow => exact slow_faithful short
  | syscall => exact syscall_faithful short

/-- **COPIES**: every program ends, and its output is its input. -/
theorem copies (v : Version) (short : Nat → Nat) (args : Args) (d : Draws args) (buf : Buffer)
    (file : File) :
    Returns (cat61 (v.library short) sizeMax file.bytes) (.ok file.bytes)
      ∧ Returns (blockcat61 (v.library short) args buf file.bytes) (.ok file.bytes)
      ∧ Returns (varblockcat61 (v.library short) args d buf file.bytes) (.ok file.bytes) := by
  have h := v.faithful short
  exact ⟨cat61_copies h file, blockcat61_copies h args buf file,
    varblockcat61_copies h args d buf file⟩

end CatPrograms
