import Cs61.DiskImage
import Cs61.WordMasks

/-! # `boot` — the boot loader

    The loader reads the first page of the kernel file into a scratch page and
    then, for each program header, whole sectors to memory that it rounds down
    to a sector.  So it writes more than the segment at both ends, and clears
    what is behind the file's bytes only.  `boot_loads` says that, on a disk
    that `mkbootdisk` wrote, all segments are in memory at the end, if their
    blocks of 512 bytes lie apart. -/

namespace BootLoader

open LoopRules DiskImage

/-- An `uintptr_t`. -/
abbrev Addr := BitVec 64

/-- Memory, byte by byte. -/
abbrev Mem := Addr → UInt8

/-- The bytes of each sector. -/
abbrev Disk := Nat → Nat → UInt8

/-- The size of a disk sector. -/
def SECTORSIZE : Addr := 512
/-- Where the boot loader puts the header of the kernel's file. -/
def ELFHDR_ADDR : Addr := 0x3000
/-- The kernel is on the disk behind the boot sector. -/
def KERNEL_START_SECTOR : BitVec 32 := 1
/-- The size of the part of the file that is read as its header. -/
def PAGESIZE : Addr := 4096
/-- The first four bytes of an ELF file. -/
def ELF_MAGIC : BitVec 32 := 0x464C457F

/-! ## The disk -/

/-- What `boot_readsect` puts to ports 0x1F3 to 0x1F6. -/
structure AtaRegs where
  lbaLow : BitVec 8
  lbaMid : BitVec 8
  lbaHigh : BitVec 8
  device : BitVec 8

/-- What `boot_readsect` writes to the ports of the disk for a sector number. -/
def ataRegs (src_sect : BitVec 32) : AtaRegs where
  lbaLow := src_sect.setWidth 8
  lbaMid := (src_sect >>> 8).setWidth 8
  lbaHigh := (src_sect >>> 16).setWidth 8
  device := ((src_sect >>> 24) ||| 0xE0).setWidth 8

/-- The sector that the disk takes them for: 28 bits, the last four of them in
    the device register. -/
def AtaRegs.lba (r : AtaRegs) : Nat :=
  r.lbaLow.toNat + 2 ^ 8 * r.lbaMid.toNat + 2 ^ 16 * r.lbaHigh.toNat
    + 2 ^ 24 * (r.device.toNat % 16)

/-- `boot_readsect(dst, src_sect)`. -/
def bootReadsect (disk : Disk) (dst : Addr) (src_sect : BitVec 32) (mem : Mem) : Mem :=
  fun a => if (a - dst).toNat < 512 then disk (ataRegs src_sect).lba (a - dst).toNat else mem a

/-! ## Segments -/

/-- The variables of the loop of `boot_readseg`. -/
structure Reading where
  ptr : Addr
  src_sect : BitVec 32
  mem : Mem

/-- `for (; ptr < end_ptr; ptr += SECTORSIZE, ++src_sect)`. -/
def readBody (disk : Disk) (end_ptr : Addr) (s : Reading) : Turn Reading Mem :=
  if s.ptr < end_ptr then
    .again { ptr := s.ptr + SECTORSIZE, src_sect := s.src_sect + 1
             mem := bootReadsect disk s.ptr s.src_sect s.mem }
  else .leave s.mem

/-- `for (; end_ptr < memsz; ++end_ptr)`. -/
def clearBody (memsz : Addr) (s : Addr × Mem) : Turn (Addr × Mem) Mem :=
  if s.1 < memsz then .again (s.1 + 1, Function.update s.2 s.1 0) else .leave s.2

/-- `boot_readseg(ptr, src_sect, filesz, memsz)`. -/
def bootReadseg (disk : Disk) (ptr : Addr) (src_sect : BitVec 32) (filesz memsz : Addr) (mem : Mem)
    (fuel : Nat) : Option Mem :=
  let end_ptr := ptr + filesz
  let memsz := memsz + ptr
  let ptr := ptr &&& ~~~(SECTORSIZE - 1)
  (run (readBody disk end_ptr) fuel { ptr := ptr, src_sect := src_sect, mem := mem }).bind fun mem =>
  run (clearBody memsz) fuel (end_ptr, mem)

/-! ## `boot` -/

/-- A number of `n` bytes in memory, least significant byte first. -/
def readLE (mem : Mem) (a : Addr) : Nat → Nat
  | 0 => 0
  | n + 1 => (mem a).toNat + 256 * readLE mem (a + 1) n

/-- A little-endian number of eight bytes. -/
def read64 (mem : Mem) (a : Addr) : Addr := BitVec.ofNat 64 (readLE mem a 8)

/-- `elfhdr->e_magic`. -/
def eMagic (mem : Mem) (elfhdr : Addr) : BitVec 32 := BitVec.ofNat 32 (readLE mem elfhdr 4)
/-- `elfhdr->e_entry`. -/
def eEntry (mem : Mem) (elfhdr : Addr) : Addr := read64 mem (elfhdr + 0x18)
/-- `elfhdr->e_phoff`. -/
def ePhoff (mem : Mem) (elfhdr : Addr) : Addr := read64 mem (elfhdr + 0x20)
/-- `elfhdr->e_phnum`. -/
def ePhnum (mem : Mem) (elfhdr : Addr) : Nat := readLE mem (elfhdr + 0x38) 2

/-- `elf_program`, as far as the loader reads it. -/
structure ElfProgram where
  p_offset : Addr
  p_va : Addr
  p_filesz : Addr
  p_memsz : Addr

/-- The program header at `ph`. -/
def elfProgram (mem : Mem) (ph : Addr) : ElfProgram where
  p_offset := read64 mem (ph + 0x08)
  p_va := read64 mem (ph + 0x10)
  p_filesz := read64 mem (ph + 0x20)
  p_memsz := read64 mem (ph + 0x28)

/-- `sizeof(elf_program)`. -/
def sizeofProgram : Addr := 56

/-- `KERNEL_START_SECTOR + ph->p_offset / SECTORSIZE`, as a `uint32_t`. -/
def startSector (ph : ElfProgram) : BitVec 32 :=
  (KERNEL_START_SECTOR.setWidth 64 + ph.p_offset / SECTORSIZE).setWidth 32

/-- The body of the loop over the program headers. -/
def loadSegment (disk : Disk) (fuel : Nat) (s : Addr × Mem) : Option (Addr × Mem) :=
  let ph := elfProgram s.2 s.1
  (bootReadseg disk ph.p_va (startSector ph) ph.p_filesz ph.p_memsz s.2 fuel).map fun mem =>
  (s.1 + sizeofProgram, mem)

/-- `boot()`: the memory in which it jumps, and where to.  It waits forever if
    there is no ELF file. -/
def boot (disk : Disk) (mem : Mem) (inner outer : Nat) : Option (Mem × Addr) :=
  (bootReadseg disk ELFHDR_ADDR KERNEL_START_SECTOR PAGESIZE PAGESIZE mem inner).bind fun mem =>
  if eMagic mem ELFHDR_ADDR ≠ ELF_MAGIC then none
  else
    let ph := ELFHDR_ADDR + ePhoff mem ELFHDR_ADDR
    let eph := ph + sizeofProgram * BitVec.ofNat 64 (ePhnum mem ELFHDR_ADDR)
    (forLoop (fun s => decide (s.1 < eph)) (loadSegment disk inner) outer (ph, mem)).map fun s =>
    (s.2, eEntry s.2 ELFHDR_ADDR)

/-! ## Sectors -/

/-- The disk takes the low 28 bits of a sector number. -/
theorem lba_ataRegs (src_sect : BitVec 32) :
    (ataRegs src_sect).lba = src_sect.toNat % 2 ^ 28 := by
  have hdevice : (((src_sect >>> 24) ||| 0xE0).setWidth 8).toNat % 16
      = src_sect.toNat / 2 ^ 24 % 16 := by
    rw [BitVec.toNat_setWidth, Nat.mod_mod_of_dvd _ (by decide), BitVec.toNat_or,
      show (16 : Nat) = 2 ^ 4 from rfl, Nat.or_mod_two_pow, BitVec.toNat_ushiftRight,
      Nat.shiftRight_eq_div_pow]
    show _ ||| 0 = _
    exact Nat.or_zero _
  rw [AtaRegs.lba]
  show (src_sect.setWidth 8).toNat + 2 ^ 8 * ((src_sect >>> 8).setWidth 8).toNat
    + 2 ^ 16 * ((src_sect >>> 16).setWidth 8).toNat
    + 2 ^ 24 * ((((src_sect >>> 24) ||| 0xE0).setWidth 8).toNat % 16) = _
  rw [hdevice, BitVec.toNat_setWidth, BitVec.toNat_setWidth, BitVec.toNat_setWidth,
    BitVec.toNat_ushiftRight, BitVec.toNat_ushiftRight, Nat.shiftRight_eq_div_pow,
    Nat.shiftRight_eq_div_pow]
  omega

variable {disk : Disk} {mem : Mem}

/-- An address in a range, by its distance from the start. -/
theorem toNat_sub_lt_iff {a p : Addr} {n : Nat} (hfit : p.toNat + n ≤ 2 ^ 64) :
    (a - p).toNat < n ↔ p.toNat ≤ a.toNat ∧ a.toNat < p.toNat + n := by
  have ha := a.isLt
  have hp := p.isLt
  rw [BitVec.toNat_sub]
  omega

/-- Memory with `m` sectors read to `p`. -/
def sectorsAt (disk : Disk) (p : Addr) (src_sect : BitVec 32) (m : Nat) (mem : Mem) : Mem :=
  fun a => if p.toNat ≤ a.toNat ∧ a.toNat < p.toNat + 512 * m then
    disk (ataRegs (src_sect + BitVec.ofNat 32 ((a.toNat - p.toNat) / 512))).lba
      ((a.toNat - p.toNat) % 512)
  else mem a

/-- One sector, and those behind it. -/
theorem sectorsAt_succ {p : Addr} {src_sect : BitVec 32} {m : Nat}
    (hfit : p.toNat + 512 * (m + 1) < 2 ^ 64) :
    sectorsAt disk (p + SECTORSIZE) (src_sect + 1) m (bootReadsect disk p src_sect mem)
      = sectorsAt disk p src_sect (m + 1) mem := by
  have hp : (p + SECTORSIZE).toNat = p.toNat + 512 := by
    rw [BitVec.toNat_add, show SECTORSIZE.toNat = 512 from rfl]
    omega
  funext a
  have hiff := @toNat_sub_lt_iff a p 512 (by omega)
  rw [sectorsAt, sectorsAt, hp]
  by_cases hfirst : p.toNat ≤ a.toNat ∧ a.toNat < p.toNat + 512
  · have hsub : (a - p).toNat = a.toNat - p.toNat :=
      BitVec.toNat_sub_of_le (BitVec.le_def.mpr hfirst.1)
    have hout : ¬ (p.toNat + 512 ≤ a.toNat ∧ a.toNat < p.toNat + 512 + 512 * m) := fun h =>
      absurd hfirst.2 (Nat.not_lt.mpr h.1)
    have hin : p.toNat ≤ a.toNat ∧ a.toNat < p.toNat + 512 * (m + 1) := by
      refine ⟨hfirst.1, Nat.lt_of_lt_of_le hfirst.2 (Nat.add_le_add_left ?_ _)⟩
      exact Nat.le_mul_of_pos_right 512 (Nat.succ_pos m)
    have hsmall : a.toNat - p.toNat < 512 := Nat.sub_lt_left_of_lt_add hfirst.1 hfirst.2
    rw [if_neg hout, if_pos hin, bootReadsect, if_pos (hiff.mpr hfirst), hsub,
      Nat.div_eq_of_lt hsmall, Nat.mod_eq_of_lt hsmall, BitVec.add_zero]
  · by_cases hrest : p.toNat + 512 ≤ a.toNat ∧ a.toNat < p.toNat + 512 + 512 * m
    · obtain ⟨k, hk⟩ : ∃ k, a.toNat = p.toNat + 512 + k := Nat.exists_eq_add_of_le hrest.1
      have hin : p.toNat ≤ a.toNat ∧ a.toNat < p.toNat + 512 * (m + 1) := by
        obtain ⟨hge, hlt⟩ := hrest
        exact ⟨by omega, by omega⟩
      have hsub : a.toNat - (p.toNat + 512) = k := by rw [hk, Nat.add_sub_cancel_left]
      have hsub' : a.toNat - p.toNat = k + 512 := by rw [hk]; omega
      rw [if_pos hrest, if_pos hin, hsub, hsub', Nat.add_mod_right,
        Nat.add_div_right _ (by decide), Nat.add_comm (k / 512) 1, BitVec.ofNat_add,
        BitVec.add_assoc]
      rfl
    · have hout : ¬ (p.toNat ≤ a.toNat ∧ a.toNat < p.toNat + 512 * (m + 1)) := by
        rintro ⟨hge, hlt⟩
        by_cases hlow : a.toNat < p.toNat + 512
        · exact hfirst ⟨hge, hlow⟩
        · exact hrest ⟨Nat.not_lt.mp hlow, by omega⟩
      rw [if_neg hrest, if_neg hout, bootReadsect, if_neg fun h => hfirst (hiff.mp h)]

/-- The loop that reads sectors. -/
theorem readLoop_returns {end_ptr : Addr} {m : Nat} {s : Reading}
    (hfit : s.ptr.toNat + 512 * m < 2 ^ 64)
    (hpass : m = 0 ∨ s.ptr.toNat + 512 * (m - 1) < end_ptr.toNat)
    (hstop : end_ptr.toNat ≤ s.ptr.toNat + 512 * m) :
    Returns (fun fuel => run (readBody disk end_ptr) fuel s)
      (sectorsAt disk s.ptr s.src_sect m s.mem) := by
  induction m generalizing s with
  | zero =>
      have hnone : sectorsAt disk s.ptr s.src_sect 0 s.mem = s.mem := by
        funext a
        rw [sectorsAt, if_neg (by omega)]
      have hge : ¬ s.ptr < end_ptr := by
        rw [BitVec.lt_def]
        omega
      rw [hnone]
      exact returns_leave (by rw [readBody, if_neg hge])
  | succ m ih =>
      have hptr : (s.ptr + SECTORSIZE).toNat = s.ptr.toNat + 512 := by
        rw [BitVec.toNat_add, show SECTORSIZE.toNat = 512 from rfl]
        omega
      have hlt : s.ptr < end_ptr := by
        rw [BitVec.lt_def]
        omega
      have hbody : readBody disk end_ptr s = .again
          { ptr := s.ptr + SECTORSIZE, src_sect := s.src_sect + 1
            mem := bootReadsect disk s.ptr s.src_sect s.mem } := by
        rw [readBody, if_pos hlt]
      rw [← sectorsAt_succ hfit]
      refine returns_again hbody (ih ?_ ?_ ?_)
      · rw [hptr]
        omega
      · rw [hptr]
        omega
      · rw [hptr]
        omega

/-- Memory that is zero from `p` on, up to `stop`. -/
def cleared (p stop : Addr) (mem : Mem) : Mem :=
  fun a => if p.toNat ≤ a.toNat ∧ a.toNat < stop.toNat then 0 else mem a

/-- The loop that clears the bss. -/
theorem clearLoop_returns (stop : Addr) (p : Addr) (mem : Mem) :
    Returns (fun fuel => run (clearBody stop) fuel (p, mem)) (cleared p stop mem) := by
  induction hm : stop.toNat - p.toNat generalizing p mem with
  | zero =>
      have hnone : cleared p stop mem = mem := by
        funext a
        rw [cleared, if_neg (by omega)]
      have hge : ¬ p < stop := by
        rw [BitVec.lt_def]
        omega
      rw [hnone]
      exact returns_leave (by rw [clearBody, if_neg hge])
  | succ m ih =>
      have hlt : p.toNat < stop.toNat := by omega
      have hstop := stop.isLt
      have hp : (p + 1).toNat = p.toNat + 1 := by
        rw [BitVec.toNat_add, show (1 : Addr).toNat = 1 from rfl]
        omega
      have hnext : cleared (p + 1) stop (Function.update mem p 0) = cleared p stop mem := by
        funext a
        rw [cleared, cleared, hp]
        by_cases ha : a = p
        · rw [ha, if_neg (by omega), if_pos (by omega), Function.update_self]
        · have hne : a.toNat ≠ p.toNat := fun h => ha (BitVec.eq_of_toNat_eq h)
          rw [Function.update_of_ne ha]
          exact if_congr (by omega) rfl rfl
      rw [← hnext]
      refine returns_again ?_ (ih (p + 1) (Function.update mem p 0) (by omega))
      rw [clearBody, if_pos (by rw [BitVec.lt_def]; exact hlt)]

/-! ## One segment -/

/-- The 512-byte blocks of `n` bytes from `va` on: where they start and end. -/
def blockStart (va : Nat) : Nat := 512 * (va / 512)
/-- The end of the last sector that holds a byte of the segment. -/
def blockStop (va n : Nat) : Nat := 512 * ((va + n + 511) / 512)

/-- An address rounded down to a sector. -/
theorem toNat_blockStart (p : Addr) :
    (p &&& ~~~(SECTORSIZE - 1)).toNat = blockStart p.toNat := by
  have hmask : SECTORSIZE - 1 = WordMasks.lowMask 64 9 := by decide
  rw [hmask, WordMasks.toNat_and_not_lowMask]
  rfl

/-- What is read to `va`: the bytes, zeros behind them, and nothing outside the
    blocks. -/
structure Filled (va : Addr) (filesz memsz : Nat) (content : Nat → UInt8) (mem mem' : Mem) :
    Prop where
  bytes : ∀ i, i < filesz → mem' (va + BitVec.ofNat 64 i) = content i
  zeros : ∀ i, filesz ≤ i → i < memsz → mem' (va + BitVec.ofNat 64 i) = 0
  frame : ∀ a : Addr, a.toNat < blockStart va.toNat ∨ blockStop va.toNat memsz ≤ a.toNat →
    mem' a = mem a

/-- The addresses of a segment that ends below 2^64. -/
structure Ends (va filesz memsz : Nat) : Prop where
  memory : va + memsz < 2 ^ 64
  sectors : blockStop va filesz < 2 ^ 64

theorem toNat_add_ofNat {va : Addr} {i n : Nat} (hi : i ≤ n) (hn : va.toNat + n < 2 ^ 64) :
    (va + BitVec.ofNat 64 i).toNat = va.toNat + i := by
  rw [BitVec.toNat_add, BitVec.toNat_ofNat]
  omega

/-- **SEGMENTS**: `boot_readseg` fills the segment and writes to its blocks only. -/
theorem bootReadseg_returns {va filesz memsz : Addr} (src_sect : BitVec 32)
    (hsz : filesz.toNat ≤ memsz.toNat) (hends : Ends va.toNat filesz.toNat memsz.toNat) :
    ∃ mem', Returns (bootReadseg disk va src_sect filesz memsz mem) mem'
      ∧ Filled va filesz.toNat memsz.toNat
          (fun i => disk (ataRegs (src_sect + BitVec.ofNat 32 ((va.toNat % 512 + i) / 512))).lba
            ((va.toNat % 512 + i) % 512)) mem mem' := by
  obtain ⟨hmemory, hsectors⟩ := hends
  rw [blockStop] at hsectors
  have hend : (va + filesz).toNat = va.toNat + filesz.toNat := by
    rw [BitVec.toNat_add]
    omega
  have hstop : (memsz + va).toNat = va.toNat + memsz.toNat := by
    rw [BitVec.toNat_add]
    omega
  have hptr := toNat_blockStart va
  rw [blockStart] at hptr
  obtain ⟨m, hm⟩ : ∃ m, m = (va.toNat % 512 + filesz.toNat + 511) / 512 := ⟨_, rfl⟩
  have hread := @readLoop_returns disk (va + filesz) m
    { ptr := va &&& ~~~(SECTORSIZE - 1), src_sect := src_sect, mem := mem }
    (by rw [hptr]; omega) (by rw [hptr, hend]; omega) (by rw [hptr, hend]; omega)
  have hclear := clearLoop_returns (memsz + va) (va + filesz)
    (sectorsAt disk (va &&& ~~~(SECTORSIZE - 1)) src_sect m mem)
  refine ⟨_, hread.bind hclear, ?_, ?_, ?_⟩
  · intro i hi
    have ha := toNat_add_ofNat (i := i) (n := memsz.toNat) (by omega) hmemory
    rw [cleared, ha, hend, if_neg (by omega), sectorsAt, ha, hptr, if_pos (by omega),
      show va.toNat + i - 512 * (va.toNat / 512) = va.toNat % 512 + i by omega]
  · intro i hge hi
    have ha := toNat_add_ofNat (i := i) (n := memsz.toNat) (by omega) hmemory
    rw [cleared, ha, hend, hstop, if_pos (by omega)]
  · intro a ha
    rw [blockStart, blockStop] at ha
    rw [cleared, hend, hstop, if_neg (by omega), sectorsAt, hptr, if_neg (by omega)]

/-! ## The file on the disk -/

/-- The disk returns the sectors of an image. -/
def Holds (disk : Disk) (img : List UInt8) : Prop :=
  ∀ sect o, o < 512 → 512 * sect + 512 ≤ img.length → disk sect o = img.getD (512 * sect + o) 0

/-- A file as if it were in memory at address 0. -/
def fileMem (file : List UInt8) : Mem := fun a => file.getD a.toNat 0

variable {bootsector kernel : List UInt8}

/-- What the loader reads for byte `i` of a segment. -/
theorem disk_byte (hboot : bootsector.length ≤ 510) (hdisk : Holds disk (image bootsector kernel))
    (hsmall : sectors kernel < 2 ^ 28) {va off i : Nat} {src_sect : BitVec 32}
    (hcong : off % 512 = va % 512) (hin : off + i < 512 * max 1023 (sectors kernel))
    (hsrc : src_sect.toNat = 1 + off / 512) :
    disk (ataRegs (src_sect + BitVec.ofNat 32 ((va % 512 + i) / 512))).lba ((va % 512 + i) % 512)
      = kernel.getD (off + i) 0 := by
  have hlba : (ataRegs (src_sect + BitVec.ofNat 32 ((va % 512 + i) / 512))).lba
      = 1 + (off + i) / 512 := by
    rw [lba_ataRegs, BitVec.toNat_add, BitVec.toNat_ofNat, hsrc]
    omega
  have hpos : 512 * (1 + (off + i) / 512) + (va % 512 + i) % 512 = 512 + (off + i) := by omega
  rw [hlba, hdisk _ _ (Nat.mod_lt _ (by decide)) (by rw [length_image hboot]; omega), hpos,
    image_getD hboot]

/-! ## Headers -/

/-- Equal bytes are equal numbers. -/
theorem readLE_congr {mem mem' : Mem} {n : Nat} {a b : Addr}
    (h : ∀ i, i < n → mem (a + BitVec.ofNat 64 i) = mem' (b + BitVec.ofNat 64 i)) :
    readLE mem a n = readLE mem' b n := by
  induction n generalizing a b with
  | zero => rfl
  | succ n ih =>
      have h0 : mem (a + 0#64) = mem' (b + 0#64) := h 0 (Nat.succ_pos n)
      rw [BitVec.add_zero, BitVec.add_zero] at h0
      have hrest : readLE mem (a + 1) n = readLE mem' (b + 1) n := by
        refine ih fun i hi => ?_
        have hi' := h (i + 1) (Nat.succ_lt_succ hi)
        rw [Nat.add_comm, BitVec.ofNat_add, ← BitVec.add_assoc, ← BitVec.add_assoc] at hi'
        exact hi'
      rw [readLE, readLE, h0, hrest]

/-- The first page of a file is in the scratch page. -/
def Scratch (kernel : List UInt8) (mem : Mem) : Prop :=
  ∀ i, i < 4096 → mem (ELFHDR_ADDR + BitVec.ofNat 64 i) = kernel.getD i 0

/-- The header that the boot loader has read is that of the file. -/
theorem Scratch.readLE {mem : Mem} (h : Scratch kernel mem) {a b : Addr} {n : Nat}
    (hb : b.toNat + n ≤ 4096) (ha : a = ELFHDR_ADDR + b) :
    readLE mem a n = readLE (fileMem kernel) b n := by
  refine readLE_congr fun i hi => ?_
  have hsum : (b + BitVec.ofNat 64 i).toNat = b.toNat + i :=
    toNat_add_ofNat (n := 4096) (by omega) (by omega)
  have haddr : a + BitVec.ofNat 64 i = ELFHDR_ADDR + BitVec.ofNat 64 (b.toNat + i) := by
    rw [ha, BitVec.add_assoc, BitVec.ofNat_add, BitVec.ofNat_toNat, BitVec.setWidth_eq]
  rw [haddr, h _ (by omega), fileMem, hsum]

/-- A field of the file header. -/
theorem Scratch.header {mem : Mem} (h : Scratch kernel mem) {k : Addr} {n : Nat}
    (hk : k.toNat + n ≤ 4096) :
    BootLoader.readLE mem (ELFHDR_ADDR + k) n = BootLoader.readLE (fileMem kernel) (0 + k) n := by
  have hzero : (0 : Addr) + k = k := BitVec.zero_add k
  exact h.readLE (by rw [hzero]; exact hk) (by rw [hzero])

/-- So are its program headers. -/
theorem Scratch.elfProgram {mem : Mem} (h : Scratch kernel mem) {ph : Addr}
    (hph : ph.toNat + 56 ≤ 4096) :
    elfProgram mem (ELFHDR_ADDR + ph) = elfProgram (fileMem kernel) ph := by
  have hfield : ∀ k : Addr, k.toNat + 8 ≤ 56 →
      read64 mem (ELFHDR_ADDR + ph + k) = read64 (fileMem kernel) (ph + k) := by
    intro k hk
    have hsum : (ph + k).toNat = ph.toNat + k.toNat := by
      rw [BitVec.toNat_add]
      omega
    rw [read64, read64, h.readLE (b := ph + k) (by omega) (BitVec.add_assoc _ _ _)]
  rw [BootLoader.elfProgram, BootLoader.elfProgram, hfield 0x08 (by decide),
    hfield 0x10 (by decide), hfield 0x20 (by decide), hfield 0x28 (by decide)]

/-! ## Kernel files -/

/-- Program header `i` of a file. -/
def programAt (kernel : List UInt8) (i : Nat) : ElfProgram :=
  elfProgram (fileMem kernel) (ePhoff (fileMem kernel) 0 + sizeofProgram * BitVec.ofNat 64 i)

/-- The number of program headers in the kernel's file. -/
def phnum (kernel : List UInt8) : Nat := ePhnum (fileMem kernel) 0

/-- The blocks of 512 bytes that a segment has a part of. -/
def ElfProgram.InBlocks (ph : ElfProgram) (a : Nat) : Prop :=
  blockStart ph.p_va.toNat ≤ a ∧ a < blockStop ph.p_va.toNat ph.p_memsz.toNat

/-- Addresses of the scratch page. -/
def InScratch (a : Nat) : Prop := 0x3000 ≤ a ∧ a < 0x4000

/-- A segment of a file of `size` bytes. -/
structure Segment (size : Nat) (ph : ElfProgram) : Prop where
  congruent : ph.p_offset.toNat % 512 = ph.p_va.toNat % 512
  filesz_le : ph.p_filesz.toNat ≤ ph.p_memsz.toNat
  inFile : ph.p_offset.toNat + ph.p_filesz.toNat ≤ size
  inMemory : ph.p_va.toNat + ph.p_memsz.toNat ≤ 2 ^ 64
  clear : ∀ a, ph.InBlocks a → ¬ InScratch a

/-- A kernel that the loader can load. -/
structure KernelFile (kernel : List UInt8) : Prop where
  magic : eMagic (fileMem kernel) 0 = ELF_MAGIC
  headers : (ePhoff (fileMem kernel) 0).toNat + 56 * phnum kernel ≤ min 4096 kernel.length
  small : sectors kernel < 2 ^ 28
  segment : ∀ i, i < phnum kernel → Segment kernel.length (programAt kernel i)
  apart : ∀ i j, i < j → j < phnum kernel → ∀ a,
    (programAt kernel i).InBlocks a → ¬ (programAt kernel j).InBlocks a

/-- A segment is in memory: the bytes of the file, and zeros behind them. -/
structure InMemory (kernel : List UInt8) (ph : ElfProgram) (mem : Mem) : Prop where
  bytes : ∀ i, i < ph.p_filesz.toNat →
    mem (ph.p_va + BitVec.ofNat 64 i) = kernel.getD (ph.p_offset.toNat + i) 0
  zeros : ∀ i, ph.p_filesz.toNat ≤ i → i < ph.p_memsz.toNat →
    mem (ph.p_va + BitVec.ofNat 64 i) = 0

/-- What is in memory at the end: all segments, and what was there before
    outside their blocks and the scratch page. -/
structure Loaded (kernel : List UInt8) (mem mem' : Mem) : Prop where
  segments : ∀ i, i < phnum kernel → InMemory kernel (programAt kernel i) mem'
  frame : ∀ a : Addr, ¬ InScratch a.toNat →
    (∀ i, i < phnum kernel → ¬ (programAt kernel i).InBlocks a.toNat) → mem' a = mem a

/-- `boot_readseg` for the header of the file. -/
theorem header_returns (hboot : bootsector.length ≤ 510)
    (hdisk : Holds disk (image bootsector kernel)) (hsmall : sectors kernel < 2 ^ 28) (mem : Mem) :
    ∃ mem', Returns (bootReadseg disk ELFHDR_ADDR KERNEL_START_SECTOR PAGESIZE PAGESIZE mem) mem'
      ∧ Scratch kernel mem' ∧ ∀ a : Addr, ¬ InScratch a.toNat → mem' a = mem a := by
  obtain ⟨mem', hrun, hbytes, -, hframe⟩ := @bootReadseg_returns disk mem ELFHDR_ADDR PAGESIZE
    PAGESIZE KERNEL_START_SECTOR (Nat.le_refl _) ⟨by decide, by decide⟩
  refine ⟨mem', hrun, ?_, ?_⟩
  · intro i hi
    rw [hbytes i hi]
    have h := @disk_byte disk bootsector kernel hboot hdisk hsmall ELFHDR_ADDR.toNat 0 i
      KERNEL_START_SECTOR rfl (by omega) rfl
    exact h.trans (by rw [Nat.zero_add])
  · intro a ha
    refine hframe a ?_
    show a.toNat < 0x3000 ∨ 0x4000 ≤ a.toNat
    rw [InScratch] at ha
    omega

/-- Where a program header is. -/
theorem toNat_programAddr {i : Nat} (hk : KernelFile kernel) (hi : i ≤ phnum kernel) :
    (ePhoff (fileMem kernel) 0 + sizeofProgram * BitVec.ofNat 64 i).toNat
      = (ePhoff (fileMem kernel) 0).toNat + 56 * i := by
  have hheaders := hk.headers
  have hmul : (sizeofProgram * BitVec.ofNat 64 i).toNat = 56 * i := by
    rw [BitVec.toNat_mul, BitVec.toNat_ofNat, show sizeofProgram.toNat = 56 from rfl]
    omega
  rw [BitVec.toNat_add, hmul]
  omega

/-- A byte of a segment is in one of the sectors that are read for it. -/
theorem InBlocks.of_mem {ph : ElfProgram} {i : Nat} (hi : i < ph.p_memsz.toNat)
    (hend : ph.p_va.toNat + ph.p_memsz.toNat ≤ 2 ^ 64) :
    ph.InBlocks (ph.p_va + BitVec.ofNat 64 i).toNat := by
  have hlt := ph.p_va.isLt
  have ha : (ph.p_va + BitVec.ofNat 64 i).toNat = ph.p_va.toNat + i := by
    rw [BitVec.toNat_add, BitVec.toNat_ofNat]
    omega
  rw [ElfProgram.InBlocks, ha, blockStart, blockStop]
  omega

/-- Memory that agrees on the blocks of a segment. -/
theorem InMemory.congr {ph : ElfProgram} {mem mem' : Mem} (h : InMemory kernel ph mem)
    (hend : ph.p_va.toNat + ph.p_memsz.toNat ≤ 2 ^ 64)
    (hsz : ph.p_filesz.toNat ≤ ph.p_memsz.toNat)
    (heq : ∀ a : Addr, ph.InBlocks a.toNat → mem' a = mem a) : InMemory kernel ph mem' := by
  refine ⟨fun i hi => ?_, fun i hge hi => ?_⟩
  · rw [heq _ (InBlocks.of_mem (by omega) hend)]
    exact h.bytes i hi
  · rw [heq _ (InBlocks.of_mem hi hend)]
    exact h.zeros i hge hi

/-- The sector of a segment's first byte, behind the boot sector. -/
theorem toNat_startSector {ph : ElfProgram} (h : ph.p_offset.toNat / 512 < 2 ^ 28) :
    (startSector ph).toNat = 1 + ph.p_offset.toNat / 512 := by
  rw [startSector, BitVec.toNat_setWidth, BitVec.toNat_add, BitVec.toNat_udiv,
    show SECTORSIZE.toNat = 512 from rfl,
    show (KERNEL_START_SECTOR.setWidth 64).toNat = 1 from rfl]
  omega

/-- One pass of the loop over the program headers. -/
theorem segment_returns (hboot : bootsector.length ≤ 510)
    (hdisk : Holds disk (image bootsector kernel)) (hsmall : sectors kernel < 2 ^ 28)
    {ph : ElfProgram} (hph : Segment kernel.length ph)
    (hends : Ends ph.p_va.toNat ph.p_filesz.toNat ph.p_memsz.toNat) (mem : Mem) :
    ∃ mem', Returns
        (bootReadseg disk ph.p_va (startSector ph) ph.p_filesz ph.p_memsz mem) mem'
      ∧ InMemory kernel ph mem' ∧ ∀ a : Addr, ¬ ph.InBlocks a.toNat → mem' a = mem a := by
  obtain ⟨mem', hrun, hbytes, hzeros, hframe⟩ :=
    @bootReadseg_returns disk mem _ _ _ (startSector ph) hph.filesz_le hends
  refine ⟨mem', hrun, ⟨?_, hzeros⟩, ?_⟩
  · intro i hi
    have hin := hph.inFile
    have hsectors : kernel.length ≤ 512 * sectors kernel := by
      rw [sectors]
      omega
    rw [hbytes i hi]
    exact disk_byte hboot hdisk hsmall hph.congruent (by omega) (toNat_startSector (by omega))
  · intro a ha
    rw [ElfProgram.InBlocks] at ha
    exact hframe a (by omega)

/-- What holds at the test of the loop over the program headers, after `k`
    passes. -/
structure LoadInv (kernel : List UInt8) (mem₀ : Mem) (k : Nat) (s : Addr × Mem) : Prop where
  ph : s.1 = ELFHDR_ADDR
    + (ePhoff (fileMem kernel) 0 + sizeofProgram * BitVec.ofNat 64 k)
  scratch : Scratch kernel s.2
  loaded : ∀ i, i < k → InMemory kernel (programAt kernel i) s.2
  frame : ∀ a : Addr, ¬ InScratch a.toNat →
    (∀ i, i < phnum kernel → ¬ (programAt kernel i).InBlocks a.toNat) → s.2 a = mem₀ a

/-- One more segment is loaded, and those before it stay. -/
theorem LoadInv.step {mem₀ : Mem} {k : Nat} {s : Addr × Mem} (h : LoadInv kernel mem₀ k s)
    (hboot : bootsector.length ≤ 510) (hdisk : Holds disk (image bootsector kernel))
    (hk : KernelFile kernel) (hlt : k < phnum kernel)
    (hends : Ends (programAt kernel k).p_va.toNat (programAt kernel k).p_filesz.toNat
      (programAt kernel k).p_memsz.toNat) :
    ∃ s', Returns (fun fuel => loadSegment disk fuel s) s' ∧ LoadInv kernel mem₀ (k + 1) s' := by
  have hseg := hk.segment k hlt
  have haddr := toNat_programAddr hk (Nat.le_of_lt hlt)
  have hheaders := hk.headers
  have hph : elfProgram s.2 s.1 = programAt kernel k := by
    rw [h.ph]
    exact h.scratch.elfProgram (by omega)
  obtain ⟨mem', hrun, hin, hframe⟩ :=
    segment_returns hboot hdisk hk.small hseg hends s.2
  refine ⟨(s.1 + sizeofProgram, mem'), ?_, ?_, ?_, ?_, ?_⟩
  · refine (hrun.map fun mem => (s.1 + sizeofProgram, mem)).congr fun fuel => ?_
    rw [loadSegment, hph]
  · rw [h.ph, BitVec.ofNat_add, BitVec.mul_add, ← BitVec.add_assoc, ← BitVec.add_assoc,
      BitVec.add_assoc]
    rfl
  · intro i hi
    have ha : (ELFHDR_ADDR + BitVec.ofNat 64 i).toNat = 0x3000 + i :=
      toNat_add_ofNat (n := 4096) (Nat.le_of_lt hi) (by decide)
    have hscratch : InScratch (ELFHDR_ADDR + BitVec.ofNat 64 i).toNat := by
      rw [ha, InScratch]
      omega
    exact (hframe _ fun hblock => hseg.clear _ hblock hscratch).trans (h.scratch i hi)
  · intro i hi
    rcases Nat.lt_succ_iff_lt_or_eq.mp hi with hi | rfl
    · have hseg' := hk.segment i (Nat.lt_trans hi hlt)
      refine (h.loaded i hi).congr hseg'.inMemory hseg'.filesz_le fun a ha => ?_
      exact hframe a (hk.apart i k hi hlt a.toNat ha)
    · exact hin
  · intro a hscratch hblocks
    exact (hframe a (hblocks k hlt)).trans (h.frame a hscratch hblocks)

/-- `boot` up to the loop over the program headers. -/
theorem boot_start (hboot : bootsector.length ≤ 510)
    (hdisk : Holds disk (image bootsector kernel)) (hk : KernelFile kernel) (mem : Mem) :
    ∃ mem₁, Scratch kernel mem₁ ∧ (∀ a : Addr, ¬ InScratch a.toNat → mem₁ a = mem a)
      ∧ ∀ s', Returns₂ (fun inner outer => forLoop
          (fun s => decide (s.1 < ELFHDR_ADDR + (ePhoff (fileMem kernel) 0
            + sizeofProgram * BitVec.ofNat 64 (phnum kernel))))
          (loadSegment disk inner) outer (ELFHDR_ADDR + ePhoff (fileMem kernel) 0, mem₁)) s' →
        Scratch kernel s'.2 → Returns₂ (boot disk mem) (s'.2, eEntry (fileMem kernel) 0) := by
  obtain ⟨mem₁, ⟨b, hb⟩, hscratch, hframe⟩ := header_returns hboot hdisk hk.small mem
  have hmagic : eMagic mem₁ ELFHDR_ADDR = ELF_MAGIC := by
    rw [← hk.magic]
    exact congrArg (BitVec.ofNat 32)
      (hscratch.readLE (b := 0) (n := 4) (by decide) (BitVec.add_zero _).symm)
  have hphoff : ePhoff mem₁ ELFHDR_ADDR = ePhoff (fileMem kernel) 0 :=
    congrArg (BitVec.ofNat 64) (hscratch.header (k := 0x20) (n := 8) (by decide))
  have hphnum : ePhnum mem₁ ELFHDR_ADDR = phnum kernel :=
    hscratch.header (k := 0x38) (n := 2) (by decide)
  refine ⟨mem₁, hscratch, hframe, ?_⟩
  rintro s' ⟨c, hc⟩ hend
  have hentry : eEntry s'.2 ELFHDR_ADDR = eEntry (fileMem kernel) 0 :=
    congrArg (BitVec.ofNat 64) (hend.header (k := 0x18) (n := 8) (by decide))
  refine ⟨b + c, fun inner outer hi ho => ?_⟩
  rw [boot, hb inner (by omega), Option.bind_some, if_neg (not_not_intro hmagic), hphoff, hphnum]
  have hrun := hc inner outer (by omega) (by omega)
  rw [← BitVec.add_assoc] at hrun
  refine (congrArg (Option.map _) hrun).trans ?_
  rw [Option.map_some, hentry]

/-- **BOOT**: on a disk that holds the image of a kernel, `boot` loads all
    segments and jumps to the entry point. -/
theorem boot_returns (hboot : bootsector.length ≤ 510)
    (hdisk : Holds disk (image bootsector kernel)) (hk : KernelFile kernel)
    (hends : ∀ i, i < phnum kernel → Ends (programAt kernel i).p_va.toNat
      (programAt kernel i).p_filesz.toNat (programAt kernel i).p_memsz.toNat) (mem : Mem) :
    ∃ mem', Returns₂ (boot disk mem) (mem', eEntry (fileMem kernel) 0)
      ∧ Loaded kernel mem mem' := by
  obtain ⟨mem₁, hscratch, hframe, hrest⟩ := boot_start hboot hdisk hk mem
  have heph : ∀ k, k ≤ phnum kernel →
      (ELFHDR_ADDR + (ePhoff (fileMem kernel) 0 + sizeofProgram * BitVec.ofNat 64 k)).toNat
        = 0x3000 + (ePhoff (fileMem kernel) 0).toNat + 56 * k := by
    intro k hle
    have haddr := toNat_programAddr hk hle
    have hheaders := hk.headers
    rw [BitVec.toNat_add, haddr, show ELFHDR_ADDR.toNat = 0x3000 from rfl]
    omega
  have hstart : LoadInv kernel mem 0 (ELFHDR_ADDR + ePhoff (fileMem kernel) 0, mem₁) := by
    refine ⟨?_, hscratch, fun i hi => absurd hi (Nat.not_lt_zero i), fun a ha _ => hframe a ha⟩
    show ELFHDR_ADDR + ePhoff (fileMem kernel) 0 = ELFHDR_ADDR
      + (ePhoff (fileMem kernel) 0 + sizeofProgram * 0#64)
    rw [BitVec.mul_zero, BitVec.add_zero]
  have hpass : ∀ k (s : Addr × Mem), k < phnum kernel → LoadInv kernel mem k s →
      decide (s.1 < ELFHDR_ADDR + (ePhoff (fileMem kernel) 0
          + sizeofProgram * BitVec.ofNat 64 (phnum kernel))) = true
        ∧ ∃ s', Returns (fun fuel => loadSegment disk fuel s) s' ∧ LoadInv kernel mem (k + 1) s' := by
    intro k s hlt hinv
    refine ⟨?_, hinv.step hboot hdisk hk hlt (hends k hlt)⟩
    rw [decide_eq_true_iff, hinv.ph, BitVec.lt_def, heph k (Nat.le_of_lt hlt),
      heph _ (Nat.le_refl _)]
    omega
  have hstop : ∀ s : Addr × Mem, LoadInv kernel mem (phnum kernel) s →
      decide (s.1 < ELFHDR_ADDR + (ePhoff (fileMem kernel) 0
        + sizeofProgram * BitVec.ofNat 64 (phnum kernel))) = false := by
    intro s hinv
    rw [decide_eq_false_iff_not, hinv.ph, BitVec.lt_def]
    exact Nat.lt_irrefl _
  obtain ⟨s', hloop, hend⟩ := returns_forLoop (LoadInv kernel mem) hpass hstop (Nat.zero_le _) hstart
  exact ⟨s'.2, hrest s' hloop hend.scratch, hend.loaded, hend.frame⟩

/-- **LOADING**: the disk that `mkbootdisk` writes, however its writes are cut
    and interrupted, boots: all segments are loaded, nothing else is written but
    the rest of their blocks and the scratch page, and the kernel is entered.
    No segment may touch the end of the address space. -/
theorem boot_loads {sched : Schedule} (hsched : ∀ i, (sched i).Progress)
    (hboot : bootsector.length ≤ 510) (hk : KernelFile kernel)
    (hends : ∀ i, i < phnum kernel → Ends (programAt kernel i).p_va.toNat
      (programAt kernel i).p_filesz.toNat (programAt kernel i).p_memsz.toNat) :
    (∀ fuel r, mkbootdisk sched bootsector [.file kernel] fuel = some r →
        ∃ d, r = .ok d ∧ ∀ disk, Holds disk d.out → ∀ mem,
          ∃ mem', Returns₂ (boot disk mem) (mem', eEntry (fileMem kernel) 0)
            ∧ Loaded kernel mem mem')
      ∧ (Fair sched → ∃ d, Returns (mkbootdisk sched bootsector [.file kernel]) (.ok d)) := by
  obtain ⟨hresult, hreturns⟩ := mkbootdisk_writes hsched hboot kernel
  constructor
  · intro fuel r hr
    obtain ⟨d, rfl, hout⟩ := hresult fuel r hr
    refine ⟨d, rfl, fun disk hdisk mem => ?_⟩
    rw [hout] at hdisk
    exact boot_returns hboot hdisk hk hends mem
  · intro hfair
    obtain ⟨d, hd, -⟩ := hreturns hfair
    exact ⟨d, hd⟩

/-! ## Kernels of one segment -/

/-- An ELF file with one program header, for a segment at offset 512. -/
def oneSegment (va filesz memsz data : List UInt8) : List UInt8 :=
  [0x7F, 0x45, 0x4C, 0x46] ++ zeros 20 ++ [0, 0, 4, 0, 0, 0, 0, 0] ++ [64, 0, 0, 0, 0, 0, 0, 0]
    ++ zeros 16 ++ [1, 0] ++ zeros 6
    ++ (zeros 8 ++ [0, 2, 0, 0, 0, 0, 0, 0] ++ va ++ zeros 8 ++ filesz ++ memsz ++ zeros 8)
    ++ zeros 392 ++ data

/-- Three bytes of file and a page of memory, at 0x40000. -/
def smallKernel : List UInt8 :=
  oneSegment [0, 0, 4, 0, 0, 0, 0, 0] [3, 0, 0, 0, 0, 0, 0, 0] [0, 0x10, 0, 0, 0, 0, 0, 0] [1, 2, 3]

/-- 512 bytes of zeros, for the last 512 bytes of the address space. -/
def topKernel : List UInt8 :=
  oneSegment [0, 0xFE, 0xFF, 0xFF, 0xFF, 0xFF, 0xFF, 0xFF] [0, 2, 0, 0, 0, 0, 0, 0]
    [0, 2, 0, 0, 0, 0, 0, 0] (zeros 512)

/-- A file with one program header. -/
theorem kernelFile_of_one {kernel : List UInt8} (hmagic : eMagic (fileMem kernel) 0 = ELF_MAGIC)
    (hphoff : ePhoff (fileMem kernel) 0 = 64) (hphnum : phnum kernel = 1)
    (hlen : 120 ≤ kernel.length) (hsmall : sectors kernel < 2 ^ 28)
    (hseg : Segment kernel.length (programAt kernel 0)) : KernelFile kernel := by
  refine ⟨hmagic, ?_, hsmall, ?_, ?_⟩
  · rw [hphoff, hphnum, show (64 : Addr).toNat = 64 from rfl]
    omega
  · intro i hi
    obtain rfl : i = 0 := by omega
    exact hseg
  · intro i j hij hj
    omega

/-- The small kernel's file is well formed. -/
theorem smallKernel_kernelFile : KernelFile smallKernel := by
  have hva : (programAt smallKernel 0).p_va.toNat = 0x40000 := by decide +kernel
  have hmemsz : (programAt smallKernel 0).p_memsz.toNat = 0x1000 := by decide +kernel
  have hfilesz : (programAt smallKernel 0).p_filesz.toNat = 3 := by decide +kernel
  have hoffset : (programAt smallKernel 0).p_offset.toNat = 512 := by decide +kernel
  have hlen : smallKernel.length = 515 := by decide +kernel
  refine kernelFile_of_one (by decide +kernel) (by decide +kernel) (by decide +kernel)
    (by omega) (by rw [sectors, hlen]; decide) ⟨?_, ?_, ?_, ?_, ?_⟩
  · rw [hoffset, hva]
  · rw [hfilesz, hmemsz]
    decide
  · rw [hoffset, hfilesz, hlen]
  · rw [hva, hmemsz]
    decide
  · intro a ha
    rw [ElfProgram.InBlocks, hva, hmemsz, blockStart, blockStop] at ha
    rw [InScratch]
    omega

theorem boot_loads_small :
    (∀ fuel r, mkbootdisk (fun i => if i % 2 = 0 then .eintr else .takes 100) [0xF4]
        [.file smallKernel] fuel = some r →
        ∃ d, r = .ok d ∧ ∀ disk, Holds disk d.out → ∀ mem,
          ∃ mem', Returns₂ (boot disk mem) (mem', eEntry (fileMem smallKernel) 0)
            ∧ Loaded smallKernel mem mem')
      ∧ (Fair (fun i => if i % 2 = 0 then .eintr else .takes 100) →
          ∃ d, Returns (mkbootdisk (fun i => if i % 2 = 0 then .eintr else .takes 100) [0xF4]
            [.file smallKernel]) (.ok d)) := by
  refine boot_loads (fun i => ?_) (by decide) smallKernel_kernelFile fun i hi => ?_
  · show WriteCall.Progress (if i % 2 = 0 then .eintr else .takes 100)
    split
    · trivial
    · exact (by decide : 1 ≤ 100)
  · obtain rfl : i = 0 := by
      have hphnum : phnum smallKernel = 1 := by decide +kernel
      omega
    exact ⟨by decide +kernel, by decide +kernel⟩

/-! ## The end of the address space -/

/-- So is one whose segment ends at the top of memory. -/
theorem topKernel_kernelFile : KernelFile topKernel := by
  have hva : (programAt topKernel 0).p_va.toNat = 2 ^ 64 - 512 := by decide +kernel
  have hmemsz : (programAt topKernel 0).p_memsz.toNat = 512 := by decide +kernel
  have hfilesz : (programAt topKernel 0).p_filesz.toNat = 512 := by decide +kernel
  have hoffset : (programAt topKernel 0).p_offset.toNat = 512 := by decide +kernel
  have hlen : topKernel.length = 1024 := by decide +kernel
  refine kernelFile_of_one (by decide +kernel) (by decide +kernel) (by decide +kernel)
    (by omega) (by rw [sectors, hlen]; decide) ⟨?_, ?_, ?_, ?_, ?_⟩
  · rw [hoffset, hva]
    decide
  · rw [hfilesz, hmemsz]
  · rw [hoffset, hfilesz, hlen]
  · rw [hva, hmemsz]
    decide
  · intro a ha
    rw [ElfProgram.InBlocks, hva, hmemsz, blockStart, blockStop] at ha
    rw [InScratch]
    omega

/-- Where the segment ends, `end_ptr` and `memsz` wrap to 0: neither loop of
    `boot_readseg` makes a pass. -/
theorem bootReadseg_top (disk : Disk) (src_sect : BitVec 32) (mem : Mem) :
    Returns (bootReadseg disk (programAt topKernel 0).p_va src_sect
      (programAt topKernel 0).p_filesz (programAt topKernel 0).p_memsz mem) mem := by
  have hend : (programAt topKernel 0).p_va + (programAt topKernel 0).p_filesz = 0 := by
    decide +kernel
  have hstop : (programAt topKernel 0).p_memsz + (programAt topKernel 0).p_va = 0 := by
    decide +kernel
  refine ⟨1, fun fuel hfuel => ?_⟩
  obtain ⟨n, rfl⟩ : ∃ n, fuel = n + 1 := ⟨fuel - 1, by omega⟩
  rw [bootReadseg, hend, hstop]
  have hread : ∀ s : Reading, readBody disk 0 s = .leave s.mem := by
    intro s
    exact if_neg BitVec.not_lt_zero
  have hclear : clearBody 0 (0, mem) = .leave mem := if_neg BitVec.not_lt_zero
  rw [run_leave (hread _), Option.bind_some, run_leave hclear]

/-- A segment that ends where the address space does is not loaded. -/
theorem topKernel_not_loaded :
    KernelFile topKernel
      ∧ ∃ d disk mem mem' entry,
        Returns (mkbootdisk (fun _ => .takes 512) [] [.file topKernel]) (.ok d)
        ∧ Holds disk d.out ∧ Returns₂ (boot disk mem) (mem', entry)
        ∧ ∃ i, i < phnum topKernel ∧ ¬ InMemory topKernel (programAt topKernel i) mem' := by
  -- the disk is written, and the loader reads the file's header from it
  obtain ⟨d, hd, hout⟩ := (@mkbootdisk_writes (fun _ => .takes 512)
    (fun _ => (by decide : 1 ≤ 512)) [] (by decide) topKernel).2 fun i =>
      ⟨i, Nat.le_refl i, WriteCall.noConfusion⟩
  obtain ⟨disk, hdisk⟩ : ∃ disk : Disk, disk = fun sect o =>
    (image [] topKernel).getD (512 * sect + o) 0 := ⟨_, rfl⟩
  have hholds : Holds disk (image [] topKernel) := by
    intro sect o _ _
    rw [hdisk]
  obtain ⟨mem₁, hscratch, hframe, hrest⟩ :=
    boot_start (by decide) hholds topKernel_kernelFile fun _ => 0xFF
  have hphnum : phnum topKernel = 1 := by decide +kernel
  have hphoff : ePhoff (fileMem topKernel) 0 = 64 := by decide +kernel
  have hprogram : programAt topKernel 0 = elfProgram mem₁ (ELFHDR_ADDR + 64) := by
    rw [hscratch.elfProgram (by decide), programAt, hphoff]
    rfl
  -- the segment ends at address 0, and its loop copies nothing
  have hpass : Returns (fun fuel => loadSegment disk fuel (ELFHDR_ADDR + 64, mem₁))
      (ELFHDR_ADDR + 64 + sizeofProgram, mem₁) := by
    refine ((bootReadseg_top disk (startSector (programAt topKernel 0)) mem₁).map fun mem =>
      (ELFHDR_ADDR + 64 + sizeofProgram, mem)).congr fun fuel => ?_
    rw [loadSegment, ← hprogram]
  rw [hphnum, hphoff] at hrest
  have hloop := hrest (ELFHDR_ADDR + 64 + sizeofProgram, mem₁) ?_ hscratch
  · -- so its first byte is what memory held before
    refine ⟨topKernel_kernelFile, d, disk, fun _ => 0xFF, mem₁, _, hd, by rw [hout]; exact hholds,
      hloop, 0, by rw [hphnum]; exact Nat.one_pos, fun hin => ?_⟩
    have hbyte := hin.bytes 0 (by decide +kernel)
    have htop : ((programAt topKernel 0).p_va + BitVec.ofNat 64 0).toNat = 2 ^ 64 - 512 := by
      decide +kernel
    rw [hframe _ (by rw [htop, InScratch]; omega)] at hbyte
    exact absurd hbyte (by decide +kernel)
  · obtain ⟨b, hb⟩ := hpass
    refine ⟨b + 2, fun inner outer hi ho => ?_⟩
    obtain ⟨n, rfl⟩ : ∃ n, outer = n + 2 := ⟨outer - 2, by omega⟩
    have hnext : loadSegment disk inner (ELFHDR_ADDR + 64, mem₁)
        = some (ELFHDR_ADDR + 64 + sizeofProgram, mem₁) := hb inner (by omega)
    have hfirst : decide (ELFHDR_ADDR + 64 < ELFHDR_ADDR + (64 + sizeofProgram * 1#64)) = true := by
      decide
    have hsecond : ¬ decide (ELFHDR_ADDR + 64 + sizeofProgram
        < ELFHDR_ADDR + (64 + sizeofProgram * 1#64)) = true := by
      decide
    show forLoop _ (loadSegment disk inner) (n + 2) _ = _
    rw [forLoop, if_pos hfirst, hnext, Option.bind_some, forLoop, if_neg hsecond]

end BootLoader
