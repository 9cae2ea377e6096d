import Cs61.StrideCat
import Mathlib.Data.List.Nodup
import Mathlib.Data.List.Perm.Basic

/-! # The order of the blocks of `stridecat61`

    From offset 0 on, and with a stride that is a multiple of the block size, the
    passes start at the multiples of the block size below the stride, and each goes
    up by the stride.  So the blocks come in the order of the position modulo the
    stride, and then of the position, each of them once (`order_shuffle`).  A stride
    near `2 ^ 64` breaks this: before the last block a position may wrap around
    (`shuffles_iff`). -/

namespace StrideOrder

open Io61 LoopRules StrideCat

/-! ## The order -/

/-- The order of blocks: by the position modulo the stride, then by the position. -/
def InOrder (args : Args) (p q : Nat) : Prop :=
  p % args.stride < q % args.stride ∨ p % args.stride = q % args.stride ∧ p < q

/-- All blocks, in order. -/
structure Shuffle (args : Args) (order : List Nat) : Prop where
  members : ∀ p, p ∈ order ↔ args.blockSize ∣ p ∧ p < size args
  sorted : order.Pairwise (InOrder args)

/-- The blocks at some positions, the last of the file cut at its end. -/
def cut (args : Args) (order : List Nat) : List (Nat × Nat) :=
  order.map fun p => (p, min args.blockSize (size args - p))

/-- The program ends, having copied all blocks in order, and its output is a
    permutation of the bytes. -/
def Shuffles (args : Args) (lib : Library) (buf : Buffer) : Prop :=
  ∃ order, Shuffle args order
    ∧ Returns (stridecat61 lib args buf)
        (.done (cut args order) ((cut args order).flatMap (blockBytes args)))
    ∧ ((cut args order).flatMap (blockBytes args)).Perm (args.bytes.take (size args))

variable {lib : Library} {args : Args} {order : List Nat} {i n : Nat}

/-- The number of blocks. -/
def blockCount (args : Args) : Nat := (size args + args.blockSize - 1) / args.blockSize

/-- The passes, one after the other. -/
def passes (args : Args) (i : Nat) : List Nat :=
  (List.range i).flatMap fun j => ascent args (j * args.blockSize)

theorem passes_succ (args : Args) (i : Nat) :
    passes args (i + 1) = passes args i ++ ascent args (i * args.blockSize) := by
  rw [passes, passes, List.range_succ, List.flatMap_append, List.flatMap_singleton]

/-- The blocks in the order in which the program gets to them. -/
def blockOrder (args : Args) : List Nat :=
  passes args (min (args.stride / args.blockSize) (blockCount args))

theorem lt_blockCount_iff (args : Args) (i : Nat) :
    i < blockCount args ↔ i * args.blockSize < size args := by
  have hpos := args.blockSize_pos
  rw [blockCount, Nat.lt_div_iff_mul_lt hpos]
  omega

theorem lt_passes_iff (args : Args) (i : Nat) :
    i < args.stride / args.blockSize ↔ i * args.blockSize + args.blockSize ≤ args.stride := by
  rw [← Nat.succ_le_iff, Nat.le_div_iff_mul_le args.blockSize_pos, Nat.succ_mul]

/-! ## What the order is -/

/-- The positions of a pass. -/
theorem mem_ascent {p r : Nat} (hr : r < size args) :
    p ∈ ascent args r ↔ ∃ j, p = r + args.stride * j ∧ p < size args := by
  have hpos := args.stride_pos
  rw [ascent, List.mem_range']
  constructor
  · rintro ⟨j, hj, rfl⟩
    refine ⟨j, rfl, ?_⟩
    have hle := Nat.mul_le_of_le_div args.stride j _ (Nat.lt_succ_iff.mp hj)
    rw [Nat.mul_comm]
    omega
  · rintro ⟨j, rfl, hlt⟩
    refine ⟨j, Nat.lt_succ_iff.mpr ?_, rfl⟩
    rw [Nat.le_div_iff_mul_le hpos, Nat.mul_comm]
    omega

/-- The positions of all passes are those of the blocks. -/
theorem mem_blockOrder (hdvd : args.blockSize ∣ args.stride) (p : Nat) :
    p ∈ blockOrder args ↔ args.blockSize ∣ p ∧ p < size args := by
  have hpos := args.blockSize_pos
  rw [blockOrder, passes, List.mem_flatMap]
  constructor
  · rintro ⟨i, hi, hp⟩
    have hlt := (lt_blockCount_iff args i).mp (by
      have := List.mem_range.mp hi
      omega)
    obtain ⟨j, rfl, hsize⟩ := (mem_ascent hlt).mp hp
    exact ⟨Nat.dvd_add (Nat.dvd_mul_left _ i) (Nat.dvd_mul_right_of_dvd hdvd j), hsize⟩
  · rintro ⟨hp, hsize⟩
    have hmod : args.blockSize ∣ p % args.stride := (Nat.dvd_mod_iff hdvd).mpr hp
    have hrest : p % args.stride / args.blockSize * args.blockSize = p % args.stride :=
      Nat.div_mul_cancel hmod
    have hlt : p % args.stride < args.stride := Nat.mod_lt p args.stride_pos
    have hle : p % args.stride ≤ p := Nat.mod_le p args.stride
    refine ⟨p % args.stride / args.blockSize, List.mem_range.mpr (Nat.lt_min.mpr ⟨?_, ?_⟩), ?_⟩
    · exact Nat.div_lt_div_of_lt_of_dvd hdvd hlt
    · rw [lt_blockCount_iff, hrest]
      omega
    · rw [hrest, mem_ascent (by omega)]
      exact ⟨p / args.stride, (Nat.mod_add_div p args.stride).symm, hsize⟩

/-- The passes come one after another. -/
theorem blockOrder_sorted (args : Args) : (blockOrder args).Pairwise (InOrder args) := by
  have hlt : ∀ i ∈ List.range (min (args.stride / args.blockSize) (blockCount args)),
      i * args.blockSize < args.stride ∧ i * args.blockSize < size args := by
    intro i hi
    have hmin := List.mem_range.mp hi
    have hblock := args.blockSize_pos
    have hstride := (lt_passes_iff args i).mp (by omega)
    exact ⟨by omega, (lt_blockCount_iff args i).mp (by omega)⟩
  have hmod : ∀ i ∈ List.range (min (args.stride / args.blockSize) (blockCount args)),
      ∀ p ∈ ascent args (i * args.blockSize), p % args.stride = i * args.blockSize := by
    intro i hi p hp
    obtain ⟨j, rfl, -⟩ := (mem_ascent (hlt i hi).2).mp hp
    rw [Nat.add_mul_mod_self_left, Nat.mod_eq_of_lt (hlt i hi).1]
  rw [blockOrder, passes, List.pairwise_flatMap]
  constructor
  · intro i hi
    have hup : (ascent args (i * args.blockSize)).Pairwise (· < ·) :=
      List.pairwise_lt_range' _ args.stride_pos
    refine List.Pairwise.imp_of_mem ?_ hup
    intro p q hp hq hpq
    exact Or.inr ⟨(hmod i hi p hp).trans (hmod i hi q hq).symm, hpq⟩
  · refine List.Pairwise.imp_of_mem ?_ List.pairwise_lt_range
    intro i j hi hj hij p hp q hq
    refine Or.inl ?_
    rw [hmod i hi p hp, hmod j hj q hq]
    exact Nat.mul_lt_mul_of_pos_right hij args.blockSize_pos

/-- The blocks are visited in the order the program promises. -/
theorem order_shuffle (hdvd : args.blockSize ∣ args.stride) : Shuffle args (blockOrder args) :=
  ⟨mem_blockOrder hdvd, blockOrder_sorted args⟩

/-- All blocks of the file, from its start to its end. -/
theorem Shuffle.perm (h : Shuffle args order) :
    order.Perm ((List.range (blockCount args)).map (· * args.blockSize)) := by
  have hpos := args.blockSize_pos
  have hnodup : order.Nodup := by
    refine List.Pairwise.imp ?_ h.sorted
    rintro p q hpq rfl
    rcases hpq with hlt | ⟨-, hlt⟩ <;> exact absurd hlt (Nat.lt_irrefl _)
  have hnodup' : ((List.range (blockCount args)).map (· * args.blockSize)).Nodup :=
    List.Nodup.map (fun i j hij => Nat.eq_of_mul_eq_mul_right hpos hij) List.nodup_range
  refine (List.perm_ext_iff_of_nodup hnodup hnodup').mpr ?_
  intro p
  rw [h.members, List.mem_map]
  constructor
  · rintro ⟨⟨i, rfl⟩, hlt⟩
    refine ⟨i, List.mem_range.mpr ((lt_blockCount_iff args i).mpr ?_), Nat.mul_comm i _⟩
    rw [Nat.mul_comm]
    exact hlt
  · rintro ⟨i, hi, rfl⟩
    exact ⟨Nat.dvd_mul_left _ i, (lt_blockCount_iff args i).mp (List.mem_range.mp hi)⟩

/-! ## The bytes of the blocks -/

/-- The blocks in the order of the file are the file. -/
theorem flatMap_chunks (args : Args) (n : Nat) :
    (cut args ((List.range n).map (· * args.blockSize))).flatMap (blockBytes args)
      = args.bytes.take (min (size args) (n * args.blockSize)) := by
  induction n with
  | zero =>
      rw [Nat.zero_mul, Nat.min_zero, List.take_zero]
      rfl
  | succ n ih =>
      have hlast : (cut args [n * args.blockSize]).flatMap (blockBytes args)
          = (args.bytes.drop (n * args.blockSize)).take
              (min args.blockSize (size args - n * args.blockSize)) := List.append_nil _
      rw [List.range_succ, List.map_append, cut, List.map_append, List.flatMap_append]
      show (cut args ((List.range n).map _)).flatMap _ ++ (cut args [n * args.blockSize]).flatMap _ = _
      rw [ih, hlast, Nat.succ_mul]
      by_cases hle : n * args.blockSize ≤ size args
      · rw [Nat.min_eq_right hle, ← List.take_add]
        congr 1
        omega
      · have hzero : size args - n * args.blockSize = 0 := by omega
        rw [Nat.min_eq_left (by omega), hzero, Nat.min_zero, List.take_zero, List.append_nil,
          Nat.min_eq_left (by omega)]

theorem blockCount_covers (args : Args) : size args ≤ blockCount args * args.blockSize := by
  have hpos := args.blockSize_pos
  have hlt := Nat.lt_mul_div_succ (size args + args.blockSize - 1) hpos
  rw [Nat.mul_add, Nat.mul_one, Nat.mul_comm] at hlt
  rw [blockCount]
  omega

/-- The blocks hold the bytes of the file. -/
theorem Shuffle.bytes_perm (h : Shuffle args order) :
    ((cut args order).flatMap (blockBytes args)).Perm (args.bytes.take (size args)) := by
  have hall := flatMap_chunks args (blockCount args)
  rw [Nat.min_eq_left (blockCount_covers args)] at hall
  rw [← hall]
  exact (h.perm.map _).flatMap_right _

/-- Blocks in the file are read in full. -/
theorem copies_eq_cut (hsize : size args ≤ args.bytes.length) (ps : List Nat) :
    copies args ps = cut args ps := by
  refine List.map_congr_left ?_
  intro p _
  rw [transfer]
  congr 1
  omega

/-- The blocks have as many bytes as they transfer. -/
theorem length_blocks (hsize : size args ≤ args.bytes.length) (ps : List Nat) :
    ((cut args ps).flatMap (blockBytes args)).length = total (cut args ps) := by
  rw [List.length_flatMap, total, cut, List.map_map, List.map_map]
  congr 1
  refine List.map_congr_left ?_
  intro p _
  show (blockBytes args (p, min args.blockSize (size args - p))).length
    = min args.blockSize (size args - p)
  rw [blockBytes, List.length_take, List.length_drop]
  omega

/-- A shuffle transfers the whole file. -/
theorem Shuffle.total_eq (h : Shuffle args order) (hsize : size args ≤ args.bytes.length) :
    total (cut args order) = size args := by
  rw [← length_blocks hsize, h.bytes_perm.length_eq, List.length_take,
    Nat.min_eq_left hsize]

/-! ## The run -/

/-- A position after which the loop goes on as in order: either positions do not wrap
    around at all, or the next one does not. -/
def Fits (args : Args) (i : Nat) : Prop :=
  size args + args.stride ≤ 2 ^ 64
    ∨ size args < args.stride ∧ i * args.blockSize + args.stride < 2 ^ 64

/-- A stride beyond the end: a pass is one block. -/
theorem ascent_eq_singleton {r : Nat} (h : size args < args.stride) : ascent args r = [r] := by
  rw [ascent, Nat.div_eq_of_lt (by omega)]
  rfl

/-- The program makes the passes of the order. -/
theorem comes_pass (hfit : Fits args i) (hsize : i * args.blockSize < size args)
    (hstride : i * args.blockSize < args.stride) :
    Comes args (i * args.blockSize) (ascent args (i * args.blockSize))
      ((i + 1) * args.blockSize) := by
  rw [Nat.succ_mul]
  rcases hfit with hfit | ⟨hlt, hfit⟩
  · have hcomes := comes_ascent hfit hsize
    rw [Nat.mod_eq_of_lt hstride] at hcomes
    exact hcomes
  · have hbig := size_lt args
    have hblock := args.blockSize_lt
    rw [ascent_eq_singleton hlt]
    refine ⟨rfl, hsize, ?_⟩
    show nextPos args (i * args.blockSize) = i * args.blockSize + args.blockSize
    rw [nextPos, Nat.mod_eq_of_lt hfit, if_pos (by omega), Nat.add_mod_right,
      Nat.mod_eq_of_lt hstride, Nat.mod_eq_of_lt (by omega)]

/-- And it makes all of them. -/
theorem comes_passes (i : Nat) (hfit : ∀ j, j < i → Fits args j)
    (hi : ∀ j, j < i → j * args.blockSize < size args ∧ j * args.blockSize < args.stride) :
    Comes args 0 (passes args i) (i * args.blockSize) := by
  induction i with
  | zero => exact (Nat.zero_mul _).symm
  | succ i ih =>
      have hlast := hi i (Nat.lt_succ_self i)
      rw [passes_succ]
      exact (ih (fun j hj => hfit j (Nat.lt_succ_of_lt hj)) fun j hj => hi j (Nat.lt_succ_of_lt hj)).append
        (comes_pass (hfit i (Nat.lt_succ_self i)) hlast.1 hlast.2)

/-- The passes that there are. -/
theorem lt_of_lt_passes (hi : i < min (args.stride / args.blockSize) (blockCount args)) :
    i * args.blockSize < size args ∧ i * args.blockSize < args.stride := by
  have hblock := args.blockSize_pos
  have hstride := (lt_passes_iff args i).mp (by omega)
  exact ⟨(lt_blockCount_iff args i).mp (by omega), by omega⟩

/-- Up to the last block all positions fit. -/
theorem comes_blockOrder
    (hfit : (size args - 1) / args.blockSize * args.blockSize + args.stride
      < 2 ^ 64 + args.blockSize) :
    ∃ q, Comes args 0 (blockOrder args) q := by
  rw [blockOrder]
  cases hn : min (args.stride / args.blockSize) (blockCount args) with
  | zero => exact ⟨0, rfl⟩
  | succ m =>
      have hlt : ∀ j, j < m + 1 → j * args.blockSize < size args ∧ j * args.blockSize < args.stride :=
        fun j hj => lt_of_lt_passes (by omega)
      by_cases hall : size args + args.stride ≤ 2 ^ 64
      · exact ⟨_, comes_passes (m + 1) (fun _ _ => Or.inl hall) hlt⟩
      · have hbig := size_lt args
        have hbeyond : size args < args.stride := by omega
        -- Blocks before the last start a block before it.
        have hbefore : ∀ j, j < m → Fits args j := by
          intro j hj
          have hle : j + 1 ≤ (size args - 1) / args.blockSize := by
            rw [Nat.le_div_iff_mul_le args.blockSize_pos]
            have hm := (hlt (j + 1) (by omega)).1
            omega
          have hmul := Nat.mul_le_mul_right args.blockSize hle
          rw [Nat.succ_mul] at hmul
          exact Or.inr ⟨hbeyond, by omega⟩
        rw [passes_succ, ascent_eq_singleton hbeyond]
        refine ⟨nextPos args (m * args.blockSize), ?_⟩
        exact (comes_passes m hbefore fun j hj => hlt j (by omega)).append
          ⟨rfl, (hlt m (Nat.lt_succ_self m)).1, rfl⟩

/-- All blocks are copied in order when no position before the last block wraps
    around. -/
theorem shuffles_of_fit (hlib : Complete lib) (hoffset : args.initialOffset = 0)
    (hdvd : args.blockSize ∣ args.stride) (hsize : size args ≤ args.bytes.length)
    (hfit : (size args - 1) / args.blockSize * args.blockSize + args.stride
      < 2 ^ 64 + args.blockSize) (buf : Buffer) : Shuffles args lib buf := by
  have hshuffle := order_shuffle hdvd
  obtain ⟨q, hcomes⟩ := comes_blockOrder hfit
  have htotal := hshuffle.total_eq hsize
  refine ⟨blockOrder args, hshuffle, ?_, hshuffle.bytes_perm⟩
  have hend : Ends lib args 0 [] (.done (cut args (blockOrder args))
      ((cut args (blockOrder args)).flatMap (blockBytes args))) := by
    refine ends_of_comes hlib hcomes ?_ ?_ ?_
    · intro p hp
      exact Nat.lt_of_lt_of_le ((hshuffle.members p).mp hp).2 hsize
    · rw [copies_eq_cut hsize, htotal]
      exact Nat.le_of_eq (Nat.zero_add _)
    · rw [copies_eq_cut hsize]
      refine ends_written ?_
      rw [List.nil_append, htotal]
  rw [← hoffset] at hend
  exact hend.returns buf

/-! ## A position that wraps around -/

section Wraps

variable {p q : Nat} {ps : List Nat} {s : State} {blocks c : List (Nat × Nat)} {out : List UInt8}

/-- What is asked of a turn in which the program ends. -/
theorem leave_blocks {r : End} (h : ∀ c out, r = .done c out → c = s.blocks) :
    (∀ c out, (Turn.leave r : Turn State End) = .leave (.done c out) → c = s.blocks)
    ∧ ∀ s', (Turn.leave r : Turn State End) = .again s' →
      ∃ n, s'.blocks = s.blocks ++ [(s.pos, n)] := by
  constructor
  · intro c out hleave
    cases hleave
    exact h c out rfl
  · intro s' hagain
    cases hagain

/-- A turn adds a block at its position, or leaves with those that there are. -/
theorem body_blocks (s : State) :
    (∀ c out, body lib args s = .leave (.done c out) → c = s.blocks)
    ∧ ∀ s', body lib args s = .again s' → ∃ n, s'.blocks = s.blocks ++ [(s.pos, n)] := by
  rw [body]
  -- the tests of the loop, from the first to the last
  by_cases hwritten : s.written < size args
  · rw [if_pos hwritten]
    by_cases hnegative : 2 ^ 63 ≤ s.pos
    · rw [if_pos hnegative]
      refine leave_blocks fun c out hc => ?_
      cases hc
    rw [if_neg hnegative]
    by_cases hlarge : args.blockSize < request args s.pos
    · rw [if_pos hlarge]
      refine leave_blocks fun c out hc => ?_
      cases hc
    rw [if_neg hlarge]
    cases readBlock lib args (request args s.pos) s.buf
        { s.world with input := args.bytes.drop s.pos } with
    | error e =>
        refine leave_blocks fun c out hc => ?_
        cases hc
    | ok read =>
        obtain ⟨nr, buf, w⟩ := read
        dsimp only
        by_cases hnr : nr ≤ 0
        · rw [if_pos hnr]
          refine leave_blocks fun c out hc => ?_
          cases hc
          rfl
        rw [if_neg hnr]
        cases writeBlock lib args buf nr.toNat w with
        | error e =>
            refine leave_blocks fun c out hc => ?_
            cases hc
        | ok write =>
            obtain ⟨nw, w'⟩ := write
            dsimp only
            -- only a block that is written as it was read is added
            by_cases heq : nw = nr
            · rw [if_pos heq]
              constructor
              · intro c out hleave
                cases hleave
              · intro s' hagain
                cases hagain
                exact ⟨nw.toNat, rfl⟩
            · rw [if_neg heq]
              refine leave_blocks fun c out hc => ?_
              cases hc
  · rw [if_neg hwritten]
    refine leave_blocks fun c out hc => ?_
    cases hc
    rfl

/-- Blocks once copied stay. -/
theorem prefix_of_run {fuel : Nat} (h : run (body lib args) fuel s = some (.done c out)) :
    s.blocks <+: c := by
  induction fuel generalizing s with
  | zero => cases h
  | succ fuel ih =>
      obtain ⟨hleave, hagain⟩ := @body_blocks lib args s
      rw [run] at h
      cases hbody : body lib args s with
      | leave r =>
          rw [hbody] at h
          obtain rfl := Option.some.inj h
          exact (hleave c out hbody) ▸ List.prefix_rfl
      | again s' =>
          rw [hbody] at h
          obtain ⟨n, hs'⟩ := hagain s' hbody
          have hrest := ih h
          rw [hs'] at hrest
          exact (List.prefix_append _ _).trans hrest

/-- A run gets to where its positions lead. -/
theorem rest_of_comes (hlib : Complete lib) (h : Comes args p ps q)
    (hinside : ∀ x ∈ ps, x < args.bytes.length)
    (htotal : total blocks + total (copies args ps) ≤ size args) (hs : At args p blocks s)
    {r : End} (hr : Returns (fun fuel => run (body lib args) fuel s) r) :
    ∃ s', At args q (blocks ++ copies args ps) s'
      ∧ Returns (fun fuel => run (body lib args) fuel s') r := by
  induction ps generalizing p blocks s with
  | nil =>
      obtain rfl : p = q := h
      refine ⟨s, ?_, hr⟩
      rw [copies, List.map_nil, List.append_nil]
      exact hs
  | cons x ps ih =>
      obtain ⟨rfl, hx, hrest⟩ := h
      have hpos := transfer_pos hx (hinside p List.mem_cons_self)
      have hone : total [(p, transfer args p)] = transfer args p := rfl
      rw [total_copies_cons] at htotal
      rcases body_read hlib hs (by omega) (Nat.le_of_lt hx) with ⟨hzero, -⟩ | ⟨-, s₁, hbody, hs₁⟩
      · omega
      · obtain ⟨s', hs', hr'⟩ := ih hrest (fun y hy => hinside y (List.mem_cons_of_mem p hy))
          (by rw [total_append, hone]; omega) hs₁ (returns_rest hbody hr)
        rw [List.append_assoc] at hs'
        exact ⟨s', hs', hr'⟩

/-- The first `k + 1` blocks, when each pass is a single block. -/
theorem passes_eq_map (h : size args < args.stride) (k : Nat) :
    passes args k = (List.range k).map (· * args.blockSize) := by
  induction k with
  | zero => rfl
  | succ k ih => rw [passes_succ, ih, ascent_eq_singleton h, List.range_succ, List.map_append]; rfl

/-- Where the position wraps around before the last block, a block follows that is out
    of order. -/
theorem not_shuffles_of_wrap (hlib : Complete lib) (hoffset : args.initialOffset = 0)
    (hsize : size args ≤ args.bytes.length)
    (hwrap : 2 ^ 64 + args.blockSize
      ≤ (size args - 1) / args.blockSize * args.blockSize + args.stride) (buf : Buffer) :
    ¬ Shuffles args lib buf := by
  rintro ⟨order, hshuffle, hreturns, -⟩
  have hbig := size_lt args
  have hblock := args.blockSize_pos
  have hstride := args.stride_lt
  have hlast := Nat.div_mul_le_self (size args - 1) args.blockSize
  have hbeyond : size args < args.stride := by omega
  -- Block `k` is the first after which the position wraps around.
  generalize hk : (2 ^ 64 - args.stride + args.blockSize - 1) / args.blockSize = k
  have hge : 2 ^ 64 ≤ k * args.blockSize + args.stride := by
    have hlt := Nat.lt_mul_div_succ (2 ^ 64 - args.stride + args.blockSize - 1) hblock
    rw [hk, Nat.mul_add, Nat.mul_one, Nat.mul_comm] at hlt
    omega
  have hlt : ∀ j, j < k → j * args.blockSize + args.stride < 2 ^ 64 := by
    intro j hj
    have hle : (j + 1) * args.blockSize ≤ 2 ^ 64 - args.stride + args.blockSize - 1 := by
      rw [← Nat.le_div_iff_mul_le hblock]
      omega
    rw [Nat.succ_mul] at hle
    omega
  -- That block is not the last one.
  have hnotLast : (k + 1) * args.blockSize < size args := by
    have hpos : (size args - 1) / args.blockSize ≠ 0 := by
      intro hzero
      rw [hzero] at hwrap
      omega
    obtain ⟨m, hm⟩ := Nat.exists_eq_succ_of_ne_zero hpos
    have hle : k + 1 ≤ (size args - 1) / args.blockSize := by
      by_contra hnot
      have hfit := hlt m (by omega)
      rw [hm, Nat.succ_mul] at hwrap
      omega
    have hmul := Nat.mul_le_mul_right args.blockSize hle
    omega
  rw [Nat.succ_mul] at hnotLast
  -- Up to it every position is a sum, and each pass reads one block.
  have hcomes : Comes args 0 (passes args (k + 1)) (nextPos args (k * args.blockSize)) := by
    have hfirst : ∀ j, j < k → j * args.blockSize < size args ∧ j * args.blockSize < args.stride := by
      intro j hj
      have hmul := Nat.mul_le_mul_right args.blockSize (Nat.le_of_lt hj)
      omega
    rw [passes_succ, ascent_eq_singleton hbeyond]
    exact (comes_passes k (fun j hj => Or.inr ⟨hbeyond, hlt j hj⟩) hfirst).append
      ⟨rfl, by omega, rfl⟩
  have hinside : ∀ x ∈ passes args (k + 1), x < args.bytes.length := by
    intro x hx
    rw [passes_eq_map hbeyond] at hx
    obtain ⟨j, hj, rfl⟩ := List.mem_map.mp hx
    have hmul := Nat.mul_le_mul_right args.blockSize (Nat.lt_succ_iff.mp (List.mem_range.mp hj))
    omega
  have htotal : total (copies args (passes args (k + 1))) = k * args.blockSize + args.blockSize := by
    rw [copies_eq_cut hsize, ← length_blocks hsize, passes_eq_map hbeyond, flatMap_chunks,
      List.length_take, Nat.succ_mul]
    omega
  -- From there the program goes back below where it has been,
  have hback : nextPos args (k * args.blockSize) = k * args.blockSize + args.stride - 2 ^ 64 := by
    have hmod : (k * args.blockSize + args.stride) % 2 ^ 64
        = k * args.blockSize + args.stride - 2 ^ 64 := by
      rw [Nat.mod_eq_sub_mod hge, Nat.mod_eq_of_lt (by omega)]
    rw [nextPos, hmod, if_neg (by omega)]
  have hstart : At args 0 [] (start args buf) := hoffset ▸ at_start args buf
  obtain ⟨s, hs, hrest⟩ := rest_of_comes hlib hcomes hinside
    (by rw [htotal]; show 0 + _ ≤ _; omega) hstart hreturns
  rw [List.nil_append] at hs
  rcases body_read hlib hs (by omega) (by omega) with ⟨hzero, -⟩ | ⟨-, s', hbody, hs'⟩
  · have hpos := @transfer_pos args (nextPos args (k * args.blockSize)) (by omega) (by omega)
    omega
  · -- and reads a block again: its order is not the one promised.
    obtain ⟨fuel, hfuel⟩ := returns_rest hbody hrest
    have hprefix := prefix_of_run (hfuel fuel (Nat.le_refl fuel))
    rw [hs'.copied] at hprefix
    have hplaces := hprefix.map Prod.fst
    rw [List.map_append, copies, cut, List.map_map, List.map_map] at hplaces
    have hsub := hplaces.sublist
    rw [show (Prod.fst ∘ fun p => (p, min args.blockSize (size args - p))) = id from rfl,
      List.map_id] at hsub
    have hsorted := hshuffle.sorted.sublist hsub
    have hlast : k * args.blockSize ∈ passes args (k + 1) := by
      rw [passes_succ, ascent_eq_singleton hbeyond]
      exact List.mem_append_right _ List.mem_cons_self
    have horder := (List.pairwise_append.mp hsorted).2.2 (k * args.blockSize)
      (List.mem_map.mpr ⟨_, hlast, rfl⟩) _ List.mem_cons_self
    rw [InOrder, Nat.mod_eq_of_lt (by omega), Nat.mod_eq_of_lt (by omega)] at horder
    omega

/-- **ORDER**: with a stride that is a multiple of the block size, all blocks are copied
    in order, exactly when no position before the last block wraps around. -/
theorem shuffles_iff (hlib : Complete lib) (hoffset : args.initialOffset = 0)
    (hdvd : args.blockSize ∣ args.stride) (hsize : size args ≤ args.bytes.length) (buf : Buffer) :
    Shuffles args lib buf ↔
      (size args - 1) / args.blockSize * args.blockSize + args.stride < 2 ^ 64 + args.blockSize := by
  constructor
  · intro hshuffles
    by_contra hnot
    exact not_shuffles_of_wrap hlib hoffset hsize (Nat.le_of_not_lt hnot) buf hshuffles
  · exact fun hfit => shuffles_of_fit hlib hoffset hdvd hsize hfit buf

end Wraps

/-- Three bytes, in blocks of one. -/
def threeBytes (stride : Nat) (hpos : 1 ≤ stride) (hlt : stride < 2 ^ 64) : Args where
  blockSize := 1
  stride := stride
  fileSize := 2 ^ 64 - 1
  initialOffset := 0
  readBytewise := false
  writeBytewise := false
  bytes := [7, 8, 9]
  blockSize_pos := by decide
  blockSize_lt := by decide
  stride_pos := hpos
  stride_lt := hlt
  initialOffset_lt := by decide
  bytes_lt := by decide

theorem shuffles_iff_threeBytes :
    Shuffles (threeBytes 2 (by decide) (by decide)) (IoContract.slow (fun _ => 1) fun _ => 1)
        (fun _ => 0)
      ↔ (3 - 1) / 1 * 1 + 2 < 2 ^ 64 + 1 :=
  shuffles_iff (slow_complete (fun _ => 1) fun _ => 1) rfl (by decide) (by decide) fun _ => 0

/-- Adding the largest stride to position 1 gives position 0 again. -/
theorem shuffles_damaged :
    ¬ ∀ (lib : Library), Complete lib → ∀ args : Args, args.initialOffset = 0 →
      args.blockSize ∣ args.stride → size args ≤ args.bytes.length → ∀ buf,
      Shuffles args lib buf := by
  intro hall
  refine @not_shuffles_of_wrap _ (threeBytes (2 ^ 64 - 1) (by decide) (by decide))
    (slow_complete (fun _ => 1) fun _ => 1) rfl (by decide) (by decide) (fun _ => 0) ?_
  exact hall _ (slow_complete (fun _ => 1) fun _ => 1) _ rfl (by decide) (by decide) _

end StrideOrder
