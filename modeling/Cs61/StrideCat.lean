import Cs61.IoContract
import Cs61.LoopRules

/-! # `stridecat61` — copying in strides

    The program copies blocks at positions that go up by the stride; at the end of
    the file it goes back and starts the next pass one block further on.  Positions
    are 64-bit numbers.  `body_step` says what one turn of its loop does from a
    position before, at or after the end, and `Comes` strings turns together. -/

namespace StrideCat

open Io61 LoopRules

/-! ## The program -/

/-- What the program is given: `-b`, `-t`, `-s` (all ones if it is absent), `-p`, `-R`
    and `-W`, and the input file, whose size is an `off_t`.  `parse` rejects blocks
    and strides of 0, and larger blocks cannot be allocated. -/
structure Args where
  blockSize : Nat
  stride : Nat
  fileSize : Nat
  initialOffset : Nat
  readBytewise : Bool
  writeBytewise : Bool
  bytes : List UInt8
  blockSize_pos : 1 ≤ blockSize
  blockSize_lt : blockSize < 2 ^ 63
  stride_pos : 1 ≤ stride
  stride_lt : stride < 2 ^ 64
  initialOffset_lt : initialOffset < 2 ^ 64
  bytes_lt : bytes.length < 2 ^ 63

/-- How a run ends: after its loop, with a failed assertion, or with a read request
    that is larger than the buffer.  The blocks are not kept by the program; each is
    its position and its length. -/
inductive End where
  | done (blocks : List (Nat × Nat)) (output : List UInt8)
  | failed (text : String)
  | overrun (request : Nat)
deriving DecidableEq

/-- The variables of the loop, and the two files. -/
structure State where
  pos : Nat
  written : Nat
  buf : Buffer
  world : World
  blocks : List (Nat × Nat)

variable (lib : Library) (args : Args)

/-- `if (ssize_t(args.file_size) < 0)`, the size of the input file. -/
def size : Nat := if 2 ^ 63 ≤ args.fileSize then args.bytes.length else args.fileSize

/-- The number of bytes that a read at `pos` asks for. -/
def request (pos : Nat) : Nat :=
  if size args < (pos + args.blockSize) % 2 ^ 64 then (size args + 2 ^ 64 - pos) % 2 ^ 64
  else args.blockSize

/-- The next file position. -/
def nextPos (pos : Nat) : Nat :=
  let pos := (pos + args.stride) % 2 ^ 64
  if size args ≤ pos then (pos % args.stride + args.blockSize) % 2 ^ 64 else pos

/-- A block is read, at once or byte by byte. -/
def readBlock (sz : Nat) (buf : Buffer) (w : World) : Except String (Int × Buffer × World) :=
  if args.readBytewise = true then readBytewise lib buf sz w else lib.read buf sz w

/-- A block is written, at once or byte by byte. -/
def writeBlock (buf : Buffer) (sz : Nat) (w : World) : Except String (Int × World) :=
  if args.writeBytewise = true then writeBytewise lib buf sz w else lib.write buf sz w

/-- `while (written < args.file_size)`; a seek fails for a negative `off_t`. -/
def body (s : State) : Turn State End :=
  if s.written < size args then
    if 2 ^ 63 ≤ s.pos then .leave (.failed "r >= 0")
    else if args.blockSize < request args s.pos then .leave (.overrun (request args s.pos))
    else
      match readBlock lib args (request args s.pos) s.buf
          { s.world with input := args.bytes.drop s.pos } with
      | .error e => .leave (.failed e)
      | .ok (nr, buf, w) =>
          if nr ≤ 0 then .leave (.done s.blocks w.output)
          else
            match writeBlock lib args buf nr.toNat w with
            | .error e => .leave (.failed e)
            | .ok (nw, w) =>
                if nw = nr then
                  .again { pos := nextPos args s.pos, written := (s.written + nw.toNat) % 2 ^ 64
                           buf := buf, world := w, blocks := s.blocks ++ [(s.pos, nw.toNat)] }
                else .leave (.failed "nw == nr")
  else .leave (.done s.blocks s.world.output)

/-- Before the loop; the buffer is not initialized. -/
def start (buf : Buffer) : State :=
  { pos := args.initialOffset, written := 0, buf := buf
    world := { input := args.bytes, output := [], errno := 0, reads := 0 }, blocks := [] }

/-- The program, from its arguments to its end. -/
def stridecat61 (buf : Buffer) (fuel : Nat) : Option End := run (body lib args) fuel (start args buf)

variable {lib args}

/-! ## Libraries -/

/-- Reads that give all they are asked for, up to the end of the file. -/
structure Complete (lib : Library) : Prop where
  readc : GivesBytes lib.readc
  read : ∀ sz, GivesAll sz fun buf w => lib.read buf sz w
  writec : PutsBytes lib.writec
  write : PutsBlocks lib.write

/-- The slow library transfers all it is asked to. -/
theorem slow_complete (short accept : Nat → Nat) : Complete (IoContract.slow short accept) := by
  refine ⟨readc_gives short, IoContract.slow_read_givesAll, IoContract.writec_puts accept, ?_⟩
  refine writeLoop_puts (IoContract.writec_puts accept) rfl
    (fun sz n => if n = 0 ∧ sz ≠ 0 then -1 else ssize n) ?_
  intro sz hsz
  show (if sz = 0 ∧ sz ≠ 0 then -1 else ssize sz) = (sz : Int)
  rw [if_neg (by omega), ssize_eq hsz]

/-- The kernel gives all that it is asked for. -/
theorem syscall_complete {short : Nat → Nat} (h : ∀ n, 2 ^ 63 ≤ short n) :
    Complete (Io61.syscall short) := by
  refine ⟨readc_gives short, ?_, writec_puts, sysWrite_puts⟩
  intro sz buf w hinput
  have hshort := h w.reads
  have hmin : min (min (max 1 (short w.reads)) sz) w.input.length = min sz w.input.length := by
    omega
  have hlength : (w.input.take sz).length = min sz w.input.length := List.length_take
  refine ⟨fun k => if k < min sz w.input.length then w.input.getD k 0 else buf k,
    { w with input := w.input.drop sz, reads := w.reads + 1 }, ?_, ?_, rfl, rfl⟩
  · show Except.ok (sysRead short buf sz w) = _
    rw [sysRead, hmin, ← List.drop_eq_drop_min]
  · rw [← hlength]
    refine slice_eq ?_
    intro k hk
    rw [hlength] at hk
    rw [hlength, if_pos hk, List.getD_eq_getElem?_getD, List.getD_eq_getElem?_getD,
      List.getElem?_take_of_lt (by omega)]

/-- A block is read whole. -/
theorem readBlock_gives (hlib : Complete lib) (sz : Nat) : GivesAll sz (readBlock lib args sz) := by
  intro buf w hinput
  rw [readBlock]
  split_ifs
  · refine readLoop_givesAll hlib.readc rfl ?_ sz (fun n _ => ssize n) ?_ buf w hinput
    · intro b
      exact decide_eq_false (by omega)
    · exact fun n _ hn _ => ssize_eq hn
  · exact hlib.read sz buf w hinput

/-- A block is written whole. -/
theorem writeBlock_puts (hlib : Complete lib) : PutsBlocks (writeBlock lib args) := by
  intro buf sz w hsz
  rw [writeBlock]
  split_ifs
  · refine writeLoop_puts hlib.writec rfl (fun _ n => ssize n) ?_ buf sz w hsz
    exact fun n hn => ssize_eq hn
  · exact hlib.write buf sz w hsz

/-! ## One turn of the loop -/

/-- The size is below 2 ^ 63. -/
theorem size_lt (args : Args) : size args < 2 ^ 63 := by
  rw [size]
  split_ifs
  · exact args.bytes_lt
  · omega

/-- The number of bytes that are copied from a position up to the end. -/
def transfer (args : Args) (pos : Nat) : Nat :=
  min (min args.blockSize (size args - pos)) (args.bytes.length - pos)

/-- The request of a pass that starts inside the file. -/
theorem request_of_le {pos : Nat} (h : pos ≤ size args) :
    request args pos = min args.blockSize (size args - pos) := by
  have hsize := size_lt args
  have hblock := args.blockSize_lt
  rw [request, Nat.mod_eq_of_lt (by omega)]
  split_ifs <;> omega

/-- After the end the subtraction goes below 0. -/
theorem lt_request {pos : Nat} (h : size args < pos) (hpos : pos < 2 ^ 63) :
    args.blockSize < request args pos := by
  have hblock := args.blockSize_lt
  rw [request, Nat.mod_eq_of_lt (by omega), if_pos (by omega)]
  omega

/-- The bytes of a block. -/
def blockBytes (args : Args) (b : Nat × Nat) : List UInt8 := (args.bytes.drop b.1).take b.2

/-- The number of bytes of some blocks. -/
def total (blocks : List (Nat × Nat)) : Nat := (blocks.map Prod.snd).sum

/-- A state of the loop, as far as it matters. -/
structure At (args : Args) (pos : Nat) (blocks : List (Nat × Nat)) (s : State) : Prop where
  place : s.pos = pos
  copied : s.blocks = blocks
  count : s.written = total blocks
  output : s.world.output = blocks.flatMap (blockBytes args)

theorem at_start (args : Args) (buf : Buffer) : At args args.initialOffset [] (start args buf) :=
  ⟨rfl, rfl, rfl, rfl⟩

section Turns

variable {pos : Nat} {blocks : List (Nat × Nat)} {s : State}

/-- The loop ends when all is written. -/
theorem body_written (h : At args pos blocks s) (htotal : size args ≤ total blocks) :
    body lib args s = .leave (.done blocks (blocks.flatMap (blockBytes args))) := by
  rw [body, h.count, if_neg (Nat.not_lt.mpr htotal), h.copied, h.output]

/-- An offset of 2 ^ 63 or more fails the assertion. -/
theorem body_negative (h : At args pos blocks s) (htotal : total blocks < size args)
    (hpos : 2 ^ 63 ≤ pos) : body lib args s = .leave (.failed "r >= 0") := by
  rw [body, h.count, if_pos htotal, h.place, if_pos hpos]

/-- An offset behind the end asks for more than the buffer has. -/
theorem body_overrun (h : At args pos blocks s) (htotal : total blocks < size args)
    (hpos : size args < pos) (hlt : pos < 2 ^ 63) :
    body lib args s = .leave (.overrun (request args pos)) := by
  rw [body, h.count, if_pos htotal, h.place, if_neg (Nat.not_le.mpr hlt),
    if_pos (lt_request hpos hlt)]

/-- A read at a position up to the end. -/
theorem body_read (hlib : Complete lib) (h : At args pos blocks s)
    (htotal : total blocks < size args) (hpos : pos ≤ size args) :
    (transfer args pos = 0 ∧
      body lib args s = .leave (.done blocks (blocks.flatMap (blockBytes args))))
    ∨ (0 < transfer args pos ∧ ∃ s', body lib args s = .again s'
      ∧ At args (nextPos args pos) (blocks ++ [(pos, transfer args pos)]) s') := by
  have hsize := size_lt args
  have hrequest := request_of_le hpos
  have hfits : request args pos ≤ args.blockSize := by omega
  have hlength : (args.bytes.drop pos).length = args.bytes.length - pos := List.length_drop
  -- the block is read
  have hbytes := args.bytes_lt
  obtain ⟨buf, w, hread, hslice, -, hout⟩ :=
    @readBlock_gives lib args hlib (request args pos) s.buf
      { s.world with input := args.bytes.drop pos } (by
        show (args.bytes.drop pos).length < 2 ^ 63
        omega)
  have hcount : min (request args pos) (args.bytes.drop pos).length = transfer args pos := by
    rw [hlength, hrequest, transfer]
  dsimp only at hread hslice hout
  rw [hcount] at hread hslice
  rw [body, h.count, if_pos htotal, h.place, if_neg (by omega), if_neg (Nat.not_lt.mpr hfits),
    hread]
  dsimp only
  by_cases hzero : transfer args pos = 0
  · refine Or.inl ⟨hzero, ?_⟩
    rw [if_pos (by omega), h.copied, hout, h.output]
  · -- and written
    obtain ⟨w', hwrite, -, hput⟩ := @writeBlock_puts lib args hlib buf (transfer args pos) w (by
      rw [transfer]
      omega)
    refine Or.inr ⟨Nat.pos_of_ne_zero hzero, ?_⟩
    rw [if_neg (by omega), Int.toNat_natCast, hwrite]
    dsimp only
    rw [if_pos rfl]
    refine ⟨_, rfl, rfl, ?_, ?_, ?_⟩
    · rw [h.copied, Int.toNat_natCast]
    · show (total blocks + Int.toNat _) % 2 ^ 64 = _
      have htransfer : transfer args pos ≤ size args := by
        rw [transfer]
        omega
      rw [Int.toNat_natCast, Nat.mod_eq_of_lt (by omega), total, total, List.map_append,
        List.sum_append]
      rfl
    · have htake : slice buf (transfer args pos) = blockBytes args (pos, transfer args pos) := by
        rw [hslice, blockBytes, ← hcount, ← List.take_eq_take_min]
      rw [hput, hout, h.output, htake, List.flatMap_append, List.flatMap_singleton]

end Turns

/-! ## Turns in a row -/

/-- From every state at a position, with some blocks copied, the loop ends with `r`. -/
def Ends (lib : Library) (args : Args) (pos : Nat) (blocks : List (Nat × Nat)) (r : End) : Prop :=
  ∀ s, At args pos blocks s → Returns (fun fuel => run (body lib args) fuel s) r

/-- The blocks at some positions. -/
def copies (args : Args) (ps : List Nat) : List (Nat × Nat) := ps.map fun p => (p, transfer args p)

/-- From `p` the loop goes through some positions, all before the end, to `q`. -/
def Comes (args : Args) : Nat → List Nat → Nat → Prop
  | p, [], q => p = q
  | p, x :: ps, q => p = x ∧ x < size args ∧ Comes args (nextPos args x) ps q

section Rows

variable {p q : Nat} {ps : List Nat} {blocks : List (Nat × Nat)} {r : End}

/-- The run ends when all is written. -/
theorem ends_written (htotal : size args ≤ total blocks) :
    Ends lib args p blocks (.done blocks (blocks.flatMap (blockBytes args))) :=
  fun _ hs => returns_leave (body_written hs htotal)

theorem ends_negative (htotal : total blocks < size args) (hp : 2 ^ 63 ≤ p) :
    Ends lib args p blocks (.failed "r >= 0") :=
  fun _ hs => returns_leave (body_negative hs htotal hp)

theorem ends_overrun (htotal : total blocks < size args) (hp : size args < p)
    (hlt : p < 2 ^ 63) : Ends lib args p blocks (.overrun (request args p)) :=
  fun _ hs => returns_leave (body_overrun hs htotal hp hlt)

/-- The run ends when a pass transfers nothing. -/
theorem ends_stop (hlib : Complete lib) (htotal : total blocks < size args) (hp : p ≤ size args)
    (hzero : transfer args p = 0) :
    Ends lib args p blocks (.done blocks (blocks.flatMap (blockBytes args))) := by
  intro s hs
  rcases body_read hlib hs htotal hp with ⟨-, hbody⟩ | ⟨hpos, -⟩
  · exact returns_leave hbody
  · omega

/-- A pass that transfers something goes on. -/
theorem ends_turn (hlib : Complete lib) (htotal : total blocks < size args) (hp : p ≤ size args)
    (hpos : 0 < transfer args p)
    (h : Ends lib args (nextPos args p) (blocks ++ [(p, transfer args p)]) r) :
    Ends lib args p blocks r := by
  intro s hs
  rcases body_read hlib hs htotal hp with ⟨hzero, -⟩ | ⟨-, s', hbody, hs'⟩
  · omega
  · exact returns_again hbody (h s' hs')

theorem transfer_pos (hsize : p < size args) (hp : p < args.bytes.length) :
    0 < transfer args p := by
  have hblock := args.blockSize_pos
  rw [transfer]
  omega

theorem total_append (blocks blocks' : List (Nat × Nat)) :
    total (blocks ++ blocks') = total blocks + total blocks' := by
  rw [total, total, total, List.map_append, List.sum_append]

theorem total_copies_cons (args : Args) (p : Nat) (ps : List Nat) :
    total (copies args (p :: ps)) = transfer args p + total (copies args ps) := by
  rw [copies, total, List.map_cons, List.map_cons, List.sum_cons]
  rfl

/-- Positions reached one after another. -/
theorem Comes.append {q' : Nat} {qs : List Nat} (h : Comes args p ps q) (h' : Comes args q qs q') :
    Comes args p (ps ++ qs) q' := by
  induction ps generalizing p with
  | nil => exact (show p = q from h) ▸ h'
  | cons x ps ih => exact ⟨h.1, h.2.1, ih h.2.2⟩

/-- The loop goes on as long as there are bytes to be copied. -/
theorem ends_of_comes (hlib : Complete lib) (h : Comes args p ps q)
    (hinside : ∀ x ∈ ps, x < args.bytes.length)
    (htotal : total blocks + total (copies args ps) ≤ size args)
    (hend : Ends lib args q (blocks ++ copies args ps) r) : Ends lib args p blocks r := by
  induction ps generalizing p blocks with
  | nil =>
      obtain rfl : p = q := h
      rw [copies, List.map_nil, List.append_nil] at hend
      exact hend
  | cons x ps ih =>
      obtain ⟨rfl, hx, hrest⟩ := h
      have hpos := transfer_pos hx (hinside p List.mem_cons_self)
      rw [total_copies_cons] at htotal
      have hone : total [(p, transfer args p)] = transfer args p := rfl
      refine ends_turn hlib (by omega) (Nat.le_of_lt hx) hpos ?_
      refine ih hrest (fun y hy => hinside y (List.mem_cons_of_mem p hy)) ?_ ?_
      · rw [total_append, hone]
        omega
      · rw [List.append_assoc]
        exact hend

/-- It ends on the way when there are not, or when a position is after the end of the
    file. -/
theorem ends_within (hlib : Complete lib) (h : Comes args p ps q)
    (hnot : (∀ x ∈ ps, x < args.bytes.length) →
      size args ≤ total blocks + total (copies args ps)) :
    ∃ c out, Ends lib args p blocks (.done c out) := by
  induction ps generalizing p blocks with
  | nil => exact ⟨_, _, ends_written (hnot fun x hx => absurd hx List.not_mem_nil)⟩
  | cons x ps ih =>
      obtain ⟨rfl, hx, hrest⟩ := h
      by_cases htotal : total blocks < size args
      · by_cases hp : p < args.bytes.length
        · have hpos := transfer_pos hx hp
          have hone : total [(p, transfer args p)] = transfer args p := rfl
          obtain ⟨c, out, hend⟩ :=
            @ih (nextPos args p) (blocks ++ [(p, transfer args p)]) hrest (by
              intro hall
              rw [total_append, hone, Nat.add_assoc, ← total_copies_cons]
              refine hnot ?_
              intro y hy
              rcases List.mem_cons.mp hy with rfl | hy
              · exact hp
              · exact hall y hy)
          exact ⟨c, out, ends_turn hlib htotal (Nat.le_of_lt hx) hpos hend⟩
        · refine ⟨_, _, ends_stop hlib htotal (Nat.le_of_lt hx) ?_⟩
          rw [transfer]
          omega
      · exact ⟨_, _, ends_written (Nat.le_of_not_lt htotal)⟩

/-- A program whose loop ends from its start ends. -/
theorem Ends.returns (h : Ends lib args args.initialOffset [] r) (buf : Buffer) :
    Returns (stridecat61 lib args buf) r :=
  h (start args buf) (at_start args buf)

end Rows

/-! ## Positions of a pass -/

/-- The positions from `r` on, up by the stride. -/
def ascent (args : Args) (r : Nat) : List Nat :=
  List.range' r ((size args - r - 1) / args.stride + 1) args.stride

/-- The positions from `r` on, down by what the stride lacks to `2 ^ 64`. -/
def descent (args : Args) (r : Nat) : List Nat :=
  (List.range (r / (2 ^ 64 - args.stride) + 1)).map fun j => r - j * (2 ^ 64 - args.stride)

/-- The positions of a pass, when no sum wraps. -/
theorem comes_range' (hfit : size args + args.stride ≤ 2 ^ 64) {r n : Nat}
    (hlast : r + n * args.stride < size args) (hend : size args ≤ r + (n + 1) * args.stride) :
    Comes args r (List.range' r (n + 1) args.stride) (r % args.stride + args.blockSize) := by
  have hsize := size_lt args
  have hblock := args.blockSize_lt
  induction n generalizing r with
  | zero =>
      rw [Nat.zero_mul, Nat.add_zero] at hlast
      rw [Nat.zero_add, Nat.one_mul] at hend
      have hmod := Nat.mod_le r args.stride
      refine ⟨rfl, hlast, ?_⟩
      show nextPos args r = r % args.stride + args.blockSize
      rw [nextPos, Nat.mod_eq_of_lt (by omega), if_pos hend, Nat.add_mod_right,
        Nat.mod_eq_of_lt (by omega)]
  | succ n ih =>
      rw [Nat.succ_mul] at hlast hend
      have hnext : nextPos args r = r + args.stride := by
        rw [nextPos, Nat.mod_eq_of_lt (by omega), if_neg (by omega)]
      have hrest := @ih (r + args.stride) (by omega) (by
        rw [Nat.succ_mul] at hend ⊢
        omega)
      rw [Nat.add_mod_right] at hrest
      refine ⟨rfl, by omega, ?_⟩
      rw [hnext]
      exact hrest

/-- Up by the stride, when positions do not wrap around. -/
theorem comes_ascent (hfit : size args + args.stride ≤ 2 ^ 64) {r : Nat} (hr : r < size args) :
    Comes args r (ascent args r) (r % args.stride + args.blockSize) := by
  have hle := Nat.div_mul_le_self (size args - r - 1) args.stride
  have hlt := Nat.lt_mul_div_succ (size args - r - 1) args.stride_pos
  rw [Nat.mul_comm] at hlt
  exact comes_range' hfit (by omega) (by omega)

/-- The positions of a pass, when the sum with the stride wraps. -/
theorem comes_map_range (hwrap : 2 ^ 64 < size args + args.stride) {r : Nat} (n : Nat)
    (hr : r < size args) (hn : r / (2 ^ 64 - args.stride) = n) :
    Comes args r ((List.range (n + 1)).map fun j => r - j * (2 ^ 64 - args.stride))
      (r % (2 ^ 64 - args.stride) + args.blockSize) := by
  have hsize := size_lt args
  have hblock := args.blockSize_lt
  have hstride := args.stride_lt
  generalize hd : 2 ^ 64 - args.stride = d at hn ⊢
  have hpos : 0 < d := by omega
  induction n generalizing r with
  | zero =>
      -- one position is left below the distance
      have hlt : r < d := (Nat.div_eq_zero_iff_lt hpos).mp hn
      have hfirst : r - 0 * d = r := by rw [Nat.zero_mul, Nat.sub_zero]
      have hsum : (r + args.stride) % 2 ^ 64 = r + args.stride := Nat.mod_eq_of_lt (by omega)
      have hmod : r % args.stride = r := Nat.mod_eq_of_lt (by omega)
      refine ⟨hfirst.symm, Nat.lt_of_le_of_lt (Nat.sub_le r _) hr, ?_⟩
      show nextPos args (r - 0 * d) = r % d + args.blockSize
      rw [hfirst, Nat.mod_eq_of_lt hlt, nextPos, hsum, if_pos (by omega), Nat.add_mod_right, hmod,
        Nat.mod_eq_of_lt (by omega)]
  | succ n ih =>
      have hle : d ≤ r := by
        refine Nat.le_of_not_lt fun hlt => ?_
        rw [Nat.div_eq_of_lt hlt] at hn
        omega
      -- the sum wraps, which takes the position back
      have hnext : nextPos args r = r - d := by
        have hmod : (r + args.stride) % 2 ^ 64 = r - d := by
          rw [show r + args.stride = r - d + 2 ^ 64 by omega, Nat.add_mod_right,
            Nat.mod_eq_of_lt (by omega)]
        rw [nextPos, hmod, if_neg (by omega)]
      -- one turn less is left from there
      have hdiv : (r - d) / d = n := by
        have hsub := Nat.div_eq_sub_div hpos hle
        omega
      have hrest := @ih (r - d) (by omega) hdiv
      have hmod : (r - d) % d = r % d := by
        rw [← Nat.add_mod_right, Nat.sub_add_cancel hle]
      rw [hmod] at hrest
      rw [List.range_succ_eq_map, List.map_cons, List.map_map]
      have hfirst : r - 0 * d = r := by rw [Nat.zero_mul, Nat.sub_zero]
      have hmap : ((fun j => r - j * d) ∘ Nat.succ) = fun j => r - d - j * d := by
        funext j
        show r - (j + 1) * d = r - d - j * d
        rw [Nat.succ_mul]
        omega
      refine ⟨hfirst.symm, Nat.lt_of_le_of_lt (Nat.sub_le r _) hr, ?_⟩
      rw [hfirst, hnext, hmap]
      exact hrest

/-- Down, when the stride is so large that adding it wraps around. -/
theorem comes_descent (hwrap : 2 ^ 64 < size args + args.stride) {r : Nat} (hr : r < size args) :
    Comes args r (descent args r) (r % (2 ^ 64 - args.stride) + args.blockSize) :=
  comes_map_range hwrap _ hr rfl

end StrideCat
