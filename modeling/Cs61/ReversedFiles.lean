import Cs61.CatPrograms

/-! # `reverse61`, `reverseread61` and `reversewrite61`

    Files have a position, and a write beyond the end fills up with zeros.  Two of
    the programs read the input backwards and append; the third reads forwards and
    writes backwards, over a file that is sparse until its last write.  All of them
    write the first bytes of the input in reverse order (`reversed`).

    `io61_readc`, `io61_writec` and `io61_seek` are the same in `slow-io61.cc` and
    `syscall-io61.cc`. -/

namespace ReversedFiles

open Io61 (uchar)
open CatPrograms (File)
open LoopRules

/-! ## Files -/

/-- A seekable file and its position. -/
structure SeekFile where
  bytes : List UInt8
  pos : Nat

/-- `bs` written at `p`. -/
def overwrite (L : List UInt8) (p : Nat) (bs : List UInt8) : List UInt8 :=
  (L ++ List.replicate (p - L.length) 0).take p ++ bs ++ L.drop (p + bs.length)

/-- `read(fd, buf, n)`. -/
def sysRead (n : Nat) (f : SeekFile) : List UInt8 × SeekFile :=
  let bs := (f.bytes.drop f.pos).take n
  (bs, { f with pos := f.pos + bs.length })

/-- `write(fd, buf, n)`, which writes all `n` bytes. -/
def sysWrite (bs : List UInt8) (f : SeekFile) : Int × SeekFile :=
  (bs.length, { bytes := overwrite f.bytes f.pos bs, pos := f.pos + bs.length })

/-- `lseek(fd, off, SEEK_SET)`; an `off_t` is signed. -/
def lseek (off : Nat) (f : SeekFile) : Int × SeekFile :=
  if 2 ^ 63 ≤ off then (-1, f) else (off, { f with pos := off })

/-! ## The functions -/

/-- A failed assertion ends a program with the text of the expression. -/
def assert (b : Prop) [Decidable b] (text : String) : Except String Unit :=
  if b then .ok () else .error text

/-- `io61_readc(f)`. -/
def readc (f : SeekFile) : Except String (Int × SeekFile) :=
  match sysRead 1 f with
  | (ch, f) =>
      if ch.length ≠ 1 then (assert (ch.length = 0) "nr == 0 || nr == -1").map fun _ => (-1, f)
      else .ok ((ch.headD 0).toNat, f)

/-- `io61_writec(f, c)`. -/
def writec (c : Int) (f : SeekFile) : Except String (Int × SeekFile) :=
  match sysWrite [uchar c] f with
  | (nw, f) =>
      if nw ≠ 1 then (assert (nw = 0 ∨ nw = -1) "nw == 0 || nw == -1").map fun _ => (-1, f)
      else .ok (0, f)

/-- `io61_seek(f, off)`. -/
def seek (off : Nat) (f : SeekFile) : Int × SeekFile :=
  match lseek off f with
  | (r, f) => if r = -1 then (-1, f) else (0, f)

/-- `fgetc(f)`: stdio reads from the file what it has in its buffer. -/
def fgetc (f : SeekFile) : Int × SeekFile :=
  match sysRead 1 f with
  | (ch, f) => (if ch.length = 1 then ((ch.headD 0).toNat : Int) else -1, f)

/-- `fputc(c, f)`: it writes to the file what it had in its buffer, at the latest when
    it is closed. -/
def fputc (c : Int) (f : SeekFile) : Int × SeekFile := ((uchar c).toNat, (sysWrite [uchar c] f).2)

/-! ## The programs -/

/-- A pass of a loop, with the size already decreased; it gives both files. -/
abbrev Pass : Type := Nat → SeekFile → SeekFile → Except String (SeekFile × SeekFile)

/-- A pass of the loop of `reverse61`. -/
def reversePass (quiet : Bool) : Pass := fun fileSize inf outf => do
  let (r, inf) := seek fileSize inf
  assert (r = 0 ∨ quiet = true) "r == 0 || args.quiet"
  let (ch, inf) ← readc inf
  assert (0 ≤ ch) "ch >= 0"
  let (r, outf) ← writec ch outf
  assert (r = 0) "r == 0"
  return (inf, outf)

/-- A pass of the loop of `reverseread61`. -/
def reversereadPass (quiet : Bool) : Pass := fun fileSize inf outf => do
  let (r, inf) := seek fileSize inf
  assert (r = 0 ∨ quiet = true) "r == 0 || args.quiet"
  let (ch, inf) ← readc inf
  assert (0 ≤ ch) "ch >= 0"
  let (r, outf) := fputc ch outf
  assert (r = ch) "r == ch"
  return (inf, outf)

/-- A pass of the loop of `reversewrite61`. -/
def reversewritePass : Pass := fun fileSize inf outf => do
  let (ch, inf) := fgetc inf
  assert (0 ≤ ch) "ch >= 0"
  let (r, outf) := seek fileSize outf
  assert (r = 0) "r == 0"
  let (r, outf) ← writec ch outf
  assert (r = 0) "r == 0"
  return (inf, outf)

/-- The variables of the loop, and the two files. -/
structure State where
  fileSize : Nat
  inf : SeekFile
  outf : SeekFile

/-- `while (args.file_size != 0)`. -/
def body (pass : Pass) (s : State) : Turn State (Except String (List UInt8)) :=
  if s.fileSize ≠ 0 then
    match pass (s.fileSize - 1) s.inf s.outf with
    | .error e => .leave (.error e)
    | .ok (inf, outf) => .again { fileSize := s.fileSize - 1, inf := inf, outf := outf }
  else .leave (.ok s.outf.bytes)

/-- `args.file_size`, or the size of the input file if `-s` is absent. -/
def inputSize (fileSize : Nat) (inf : SeekFile) : Nat :=
  if 2 ^ 63 ≤ fileSize then inf.bytes.length else fileSize

/-- What follows when the files are open: the bytes of the output. -/
def copyReversed (name : String) (pass : Pass) (fileSize : Nat) (inf outf : SeekFile)
    (fuel : Nat) : Option (Except String (List UInt8)) :=
  if 2 ^ 63 ≤ inputSize fileSize inf then
    some (.error (name ++ ": can't get size of input file"))
  else run (body pass) fuel { fileSize := inputSize fileSize inf, inf := inf, outf := outf }

/-- The output of `reverse61`. -/
def reverse61 (quiet : Bool) (fileSize : Nat) (inf : SeekFile) (fuel : Nat) :
    Option (Except String (List UInt8)) :=
  match seek 0 inf with
  | (r, inf) =>
      if r < 0 then some (.error "reverse61: input file is not seekable")
      else copyReversed "reverse61" (reversePass quiet) fileSize inf ⟨[], 0⟩ fuel

/-- The output of `reverseread61`. -/
def reverseread61 (quiet : Bool) (fileSize : Nat) (inf : SeekFile) (fuel : Nat) :
    Option (Except String (List UInt8)) :=
  match seek 0 inf with
  | (r, inf) =>
      if r < 0 then some (.error "reverseread61: input file is not seekable")
      else copyReversed "reverseread61" (reversereadPass quiet) fileSize inf ⟨[], 0⟩ fuel

/-- The output of `reversewrite61`. -/
def reversewrite61 (fileSize : Nat) (inf : SeekFile) (fuel : Nat) :
    Option (Except String (List UInt8)) :=
  match seek 0 ⟨[], 0⟩ with
  | (r, outf) =>
      if r < 0 then some (.error "reversewrite61: output file is not seekable")
      else copyReversed "reversewrite61" reversewritePass fileSize inf outf fuel

variable {bytes : List UInt8} {n size p : Nat} {inf outf : SeekFile} {L : List UInt8}

/-! ## Single bytes -/

/-- A seek below 2 ^ 63 succeeds. -/
theorem seek_eq (h : n < 2 ^ 63) (f : SeekFile) : seek n f = (0, { f with pos := n }) := by
  rw [seek, lseek, if_neg (Nat.not_le.mpr h)]
  exact if_neg (by omega)

/-- A byte at the position. -/
theorem sysRead_one (f : SeekFile) (h : f.pos < f.bytes.length) :
    sysRead 1 f = ([f.bytes[f.pos]], { f with pos := f.pos + 1 }) := by
  rw [sysRead, List.drop_eq_getElem_cons h]
  rfl

/-- A read within the file. -/
theorem readc_eq (f : SeekFile) (h : f.pos < f.bytes.length) :
    readc f = .ok ((f.bytes[f.pos].toNat : Int), { f with pos := f.pos + 1 }) := by
  rw [readc, sysRead_one f h]
  rfl

/-- A read within the file, of the standard library. -/
theorem fgetc_eq (f : SeekFile) (h : f.pos < f.bytes.length) :
    fgetc f = ((f.bytes[f.pos].toNat : Int), { f with pos := f.pos + 1 }) := by
  rw [fgetc, sysRead_one f h]
  rfl

/-- A write of one byte. -/
theorem writec_eq (b : UInt8) (f : SeekFile) :
    writec b.toNat f = .ok (0, { bytes := overwrite f.bytes f.pos [b], pos := f.pos + 1 }) := by
  rw [writec, sysWrite, Io61.uchar_toNat]
  rfl

/-- A write of one byte, of the standard library. -/
theorem fputc_eq (b : UInt8) (f : SeekFile) :
    fputc b.toNat f
      = ((b.toNat : Int), { bytes := overwrite f.bytes f.pos [b], pos := f.pos + 1 }) := by
  rw [fputc, sysWrite, Io61.uchar_toNat]
  rfl

theorem ok_bind {α β : Type} (a : α) (f : α → Except String β) : (Except.ok a >>= f) = f a := rfl

theorem assert_eq {b : Prop} [Decidable b] (h : b) (text : String) : assert b text = .ok () :=
  if_pos h

/-- A write at the end. -/
theorem overwrite_end (L : List UInt8) (b : UInt8) : overwrite L L.length [b] = L ++ [b] := by
  rw [overwrite, Nat.sub_self, List.replicate_zero, List.append_nil, List.take_length,
    List.drop_eq_nil_of_le (Nat.le_add_right _ _), List.append_nil]

/-- A file that is written from its end down to `n`. -/
def sparse (n : Nat) (L : List UInt8) : List UInt8 :=
  if L = [] then [] else List.replicate n 0 ++ L

/-- A write just below what is written. -/
theorem overwrite_sparse (n : Nat) (L : List UInt8) (b : UInt8) :
    overwrite (sparse (n + 1) L) n [b] = sparse n (b :: L) := by
  rw [sparse, sparse, if_neg (List.cons_ne_nil b L)]
  split_ifs with hL
  · rw [hL, overwrite, List.nil_append, List.length_nil, Nat.sub_zero, List.drop_nil,
      List.append_nil, List.take_of_length_le (Nat.le_of_eq List.length_replicate)]
  · have hlength : (List.replicate (n + 1) (0 : UInt8)).length = n + 1 := List.length_replicate
    have hpad : n - (List.replicate (n + 1) (0 : UInt8) ++ L).length = 0 := by
      rw [List.length_append, hlength]
      omega
    rw [overwrite, hpad, List.replicate_zero, List.append_nil, List.append_assoc]
    congr 1
    · rw [List.take_append_of_le_length (by rw [hlength]; omega), List.take_replicate,
        Nat.min_eq_left (Nat.le_succ n)]
    · show [b] ++ List.drop (n + 1) _ = b :: L
      rw [List.drop_left' hlength]
      rfl

/-! ## The loops -/

/-- **LOOP**: what each pass preserves, going down, holds in the end. -/
theorem returns_copy {pass : Pass} {out : List UInt8} (I : Nat → SeekFile → SeekFile → Prop)
    (hpass : ∀ n inf outf, n < size → I (n + 1) inf outf →
      ∃ inf' outf', pass n inf outf = .ok (inf', outf') ∧ I n inf' outf')
    (hend : ∀ inf outf, I 0 inf outf → outf.bytes = out) (hn : n ≤ size) (h : I n inf outf) :
    Returns (fun fuel => run (body pass) fuel ⟨n, inf, outf⟩) (.ok out) := by
  induction n generalizing inf outf with
  | zero =>
      refine returns_leave ?_
      rw [body, if_neg (not_not.mpr rfl), hend inf outf h]
  | succ n ih =>
      obtain ⟨inf', outf', hrun, hI⟩ := hpass n inf outf hn h
      refine returns_again ?_ (ih (Nat.le_of_succ_le hn) hI)
      have hbody : body pass ⟨n + 1, inf, outf⟩ = match pass n inf outf with
          | .error e => .leave (.error e)
          | .ok (inf, outf) => .again { fileSize := n, inf := inf, outf := outf } :=
        if_pos (Nat.succ_ne_zero n)
      rw [hbody, hrun]

/-- What both programs that read backwards keep: the bytes from `n` on are written. -/
structure Appended (bytes : List UInt8) (size n : Nat) (inf outf : SeekFile) : Prop where
  input : inf.bytes = bytes
  output : outf.bytes = ((bytes.take size).drop n).reverse
  atEnd : outf.pos = outf.bytes.length

/-- Nothing has been appended at the start. -/
theorem appended_start (bytes : List UInt8) (size p : Nat) :
    Appended bytes size size ⟨bytes, p⟩ ⟨[], 0⟩ := by
  refine ⟨rfl, ?_, rfl⟩
  rw [List.drop_eq_nil_of_le (List.length_take_le size bytes)]
  rfl

/-- One more byte is appended. -/
theorem appended_step (hn : n < size) (hsize : size ≤ bytes.length)
    (h : Appended bytes size (n + 1) inf outf) :
    Appended bytes size n ⟨bytes, p⟩
      ⟨overwrite outf.bytes outf.pos [bytes[n]], outf.pos + 1⟩ := by
  have hwrite : overwrite outf.bytes outf.pos [bytes[n]] = outf.bytes ++ [bytes[n]] := by
    rw [h.atEnd, overwrite_end]
  have hlength : (bytes.take size).length = size := List.length_take_of_le hsize
  have hcons : (bytes.take size).drop n = bytes[n] :: (bytes.take size).drop (n + 1) := by
    rw [List.drop_eq_getElem_cons (by rw [hlength]; exact hn), List.getElem_take]
  refine ⟨rfl, ?_, ?_⟩
  · show overwrite outf.bytes outf.pos [bytes[n]] = _
    rw [hwrite, h.output, hcons, List.reverse_cons]
  · show outf.pos + 1 = (overwrite outf.bytes outf.pos [bytes[n]]).length
    rw [hwrite, List.length_append, h.atEnd]
    rfl

/-- A pass of `reverse61` appends one byte. -/
theorem reversePass_step {quiet : Bool} (hn : n < size) (hsize : size ≤ bytes.length)
    (hbytes : bytes.length < 2 ^ 63) (h : Appended bytes size (n + 1) inf outf) :
    ∃ inf' outf', reversePass quiet n inf outf = .ok (inf', outf')
      ∧ Appended bytes size n inf' outf' := by
  have hread := readc_eq ⟨bytes, n⟩ (show n < bytes.length by omega)
  refine ⟨⟨bytes, n + 1⟩, ⟨overwrite outf.bytes outf.pos [bytes[n]], outf.pos + 1⟩, ?_,
    appended_step hn hsize h⟩
  rw [reversePass, seek_eq (by omega), h.input]
  dsimp only
  rw [assert_eq (Or.inl rfl), ok_bind, hread, ok_bind]
  dsimp only
  rw [assert_eq (Int.natCast_nonneg _), ok_bind, writec_eq, ok_bind]
  rfl

/-- A pass of `reverseread61` appends one byte. -/
theorem reversereadPass_step {quiet : Bool} (hn : n < size) (hsize : size ≤ bytes.length)
    (hbytes : bytes.length < 2 ^ 63) (h : Appended bytes size (n + 1) inf outf) :
    ∃ inf' outf', reversereadPass quiet n inf outf = .ok (inf', outf')
      ∧ Appended bytes size n inf' outf' := by
  have hread := readc_eq ⟨bytes, n⟩ (show n < bytes.length by omega)
  refine ⟨⟨bytes, n + 1⟩, ⟨overwrite outf.bytes outf.pos [bytes[n]], outf.pos + 1⟩, ?_,
    appended_step hn hsize h⟩
  rw [reversereadPass, seek_eq (by omega), h.input]
  dsimp only
  rw [assert_eq (Or.inl rfl), ok_bind, hread, ok_bind]
  dsimp only
  rw [assert_eq (Int.natCast_nonneg _), ok_bind, fputc_eq]
  dsimp only
  rw [assert_eq rfl, ok_bind]
  rfl

/-- What the program that writes backwards keeps: the first bytes of the input stand
    from `n` on, in reverse order. -/
structure Prepended (bytes : List UInt8) (size n : Nat) (inf outf : SeekFile) : Prop where
  input : inf.bytes = bytes
  place : inf.pos = size - n
  output : outf.bytes = sparse n (bytes.take (size - n)).reverse

/-- A pass of `reversewrite61` writes one byte before the others. -/
theorem reversewritePass_step (hn : n < size) (hsize : size ≤ bytes.length)
    (hbytes : bytes.length < 2 ^ 63) (h : Prepended bytes size (n + 1) inf outf) :
    ∃ inf' outf', reversewritePass n inf outf = .ok (inf', outf')
      ∧ Prepended bytes size n inf' outf' := by
  have hinf : inf = ⟨bytes, size - (n + 1)⟩ := by
    rw [← h.input, ← h.place]
  have hlt : size - (n + 1) < bytes.length := by omega
  have hread := fgetc_eq ⟨bytes, size - (n + 1)⟩ hlt
  refine ⟨⟨bytes, size - (n + 1) + 1⟩,
    ⟨overwrite outf.bytes n [bytes[size - (n + 1)]], n + 1⟩, ?_, rfl, ?_, ?_⟩
  · rw [reversewritePass, hinf, hread]
    dsimp only
    rw [assert_eq (Int.natCast_nonneg _), ok_bind, seek_eq (by omega)]
    dsimp only
    rw [assert_eq rfl, ok_bind, writec_eq, ok_bind]
    rfl
  · show size - (n + 1) + 1 = size - n
    omega
  · have hnext : size - n = size - (n + 1) + 1 := by omega
    show overwrite outf.bytes n [bytes[size - (n + 1)]] = _
    rw [h.output, overwrite_sparse, hnext, List.take_succ_eq_append_getElem hlt,
      List.reverse_append]
    rfl

/-! ## The output -/

/-- The three programs are one loop, over their own passes. -/
theorem copyReversed_eq {pass : Pass} {name : String} {fileSize fuel : Nat}
    (h : inputSize fileSize inf < 2 ^ 63) :
    copyReversed name pass fileSize inf outf fuel
      = run (body pass) fuel ⟨inputSize fileSize inf, inf, outf⟩ :=
  if_neg (Nat.not_le.mpr h)

/-- **REVERSAL**: the three programs write the first bytes of the input, as many as they
    are asked for, in reverse order. -/
theorem reversed (file : File) (fileSize : Nat) (quiet : Bool)
    (h : inputSize fileSize ⟨file.bytes, 0⟩ ≤ file.bytes.length) :
    let out := (file.bytes.take (inputSize fileSize ⟨file.bytes, 0⟩)).reverse
    Returns (reverse61 quiet fileSize ⟨file.bytes, 0⟩) (.ok out)
      ∧ Returns (reverseread61 quiet fileSize ⟨file.bytes, 0⟩) (.ok out)
      ∧ Returns (reversewrite61 fileSize ⟨file.bytes, 0⟩) (.ok out) := by
  have hbytes := file.size_lt
  have hsize : inputSize fileSize ⟨file.bytes, 0⟩ < 2 ^ 63 := Nat.lt_of_le_of_lt h hbytes
  have hend : ∀ inf outf, Appended file.bytes (inputSize fileSize ⟨file.bytes, 0⟩) 0 inf outf →
      outf.bytes = (file.bytes.take (inputSize fileSize ⟨file.bytes, 0⟩)).reverse :=
    fun _ _ hI => hI.output
  refine ⟨?_, ?_, ?_⟩
  · refine Returns.congr (fun fuel => copyReversed_eq hsize) ?_
    exact returns_copy (Appended file.bytes _)
      (fun n inf outf hn hI => reversePass_step hn h hbytes hI) hend (Nat.le_refl _)
      (appended_start _ _ _)
  · refine Returns.congr (fun fuel => copyReversed_eq hsize) ?_
    exact returns_copy (Appended file.bytes _)
      (fun n inf outf hn hI => reversereadPass_step hn h hbytes hI) hend (Nat.le_refl _)
      (appended_start _ _ _)
  · refine Returns.congr (fun fuel => copyReversed_eq hsize) ?_
    refine returns_copy (Prepended file.bytes _)
      (fun n inf outf hn hI => reversewritePass_step hn h hbytes hI) ?_ (Nat.le_refl _)
      ⟨rfl, (Nat.sub_self _).symm, ?_⟩
    · intro inf outf hI
      rw [hI.output, Nat.sub_zero, sparse]
      split_ifs with hnil
      · exact hnil.symm
      · rfl
    · rw [Nat.sub_self, List.take_zero]
      rfl

/-- Two of three bytes. -/
theorem reversed_twoBytes :
    let out := ([1, 2, 3].take (inputSize 2 ⟨[1, 2, 3], 0⟩)).reverse
    Returns (reverse61 false 2 ⟨[1, 2, 3], 0⟩) (.ok out)
      ∧ Returns (reverseread61 false 2 ⟨[1, 2, 3], 0⟩) (.ok out)
      ∧ Returns (reversewrite61 2 ⟨[1, 2, 3], 0⟩) (.ok out) :=
  reversed ⟨[1, 2, 3], by decide⟩ 2 false (by decide)

end ReversedFiles
