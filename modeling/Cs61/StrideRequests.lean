import Cs61.StrideCat

/-! # The read requests of `stridecat61`

    A read before the end of the file asks for at most a block, and one after it
    for nearly `2 ^ 64` bytes.  Within a pass all positions are before the end; the
    start of a pass need not be.  So requests fit into the buffer exactly when no
    pass starts after the end while there are bytes to be copied (`requests_iff`).
    Where passes start is known in advance: the first at the initial offset, and
    each of the others a block after what the positions of the one before it leave
    over (`passStart_succ`). -/

namespace StrideRequests

open Io61 LoopRules StrideCat

variable (args : Args)

/-! ## Passes -/

/-- The distance between the positions of a pass; additions wrap around at `2 ^ 64`,
    so that a pass with a very large stride goes down. -/
def distance : Nat :=
  if size args + args.stride ≤ 2 ^ 64 then args.stride else 2 ^ 64 - args.stride

/-- Where the passes start. -/
def passStart : Nat → Nat
  | 0 => args.initialOffset
  | k + 1 => (args.initialOffset + k * args.blockSize) % distance args + args.blockSize

/-- The positions of a pass that starts at `r`, before the end. -/
def pass (r : Nat) : List Nat :=
  if size args + args.stride ≤ 2 ^ 64 then ascent args r else descent args r

/-- The positions of the first `k` passes. -/
def before (k : Nat) : List Nat := (List.range k).flatMap fun i => pass args (passStart args i)

/-- The passes before pass `k` stay in the file, and leave bytes to be copied. -/
structure Reaches (k : Nat) : Prop where
  starts : ∀ i, i < k → passStart args i < size args
  inside : ∀ p ∈ before args k, p < args.bytes.length
  left : total (copies args (before args k)) < size args

/-- No pass starts after the end; a seek to a negative offset stops the program. -/
def PassesFit : Prop :=
  ∀ k, Reaches args k → passStart args k ≤ size args ∨ 2 ^ 63 ≤ passStart args k

/-- The program ends, and every read request fits into the buffer. -/
def RequestsFit (lib : Library) (buf : Buffer) : Prop :=
  ∃ r, Returns (stridecat61 lib args buf) r ∧ ∀ q, r ≠ .overrun q

variable {args} {lib : Library} {r k : Nat}

/-- One pass, the wrap included. -/
theorem comes_pass (hr : r < size args) :
    Comes args r (pass args r) (r % distance args + args.blockSize) := by
  rw [pass, distance]
  by_cases hfit : size args + args.stride ≤ 2 ^ 64
  · rw [if_pos hfit, if_pos hfit]
    exact comes_ascent hfit hr
  · rw [if_neg hfit, if_neg hfit]
    exact comes_descent (Nat.lt_of_not_le hfit) hr

/-- Each pass starts where the one before it leads. -/
theorem passStart_succ (args : Args) (k : Nat) :
    passStart args k % distance args + args.blockSize = passStart args (k + 1) := by
  cases k with
  | zero => rw [passStart, passStart, Nat.zero_mul, Nat.add_zero]
  | succ k => rw [passStart, passStart, Nat.mod_add_mod, Nat.succ_mul, Nat.add_assoc]

theorem before_succ (args : Args) (k : Nat) :
    before args (k + 1) = before args k ++ pass args (passStart args k) := by
  rw [before, before, List.range_succ, List.flatMap_append, List.flatMap_singleton]

/-- The passes before one. -/
theorem comes_before (h : ∀ i, i < k → passStart args i < size args) :
    Comes args args.initialOffset (before args k) (passStart args k) := by
  induction k with
  | zero => rfl
  | succ k ih =>
      rw [before_succ, ← passStart_succ]
      exact (ih fun i hi => h i (Nat.lt_succ_of_lt hi)).append
        (comes_pass (h k (Nat.lt_succ_self k)))

/-- **RUN**: from the start the loop gets to each pass that is reached. -/
theorem ends_of_reaches (hlib : Complete lib) (h : Reaches args k) {e : End}
    (hend : Ends lib args (passStart args k) (copies args (before args k)) e) :
    Ends lib args args.initialOffset [] e := by
  refine ends_of_comes hlib (comes_before h.starts) h.inside ?_ hend
  show 0 + _ ≤ size args
  have := h.left
  omega

/-- A pass copies something. -/
theorem total_pass_pos (hr : r < size args) (hinside : ∀ p ∈ pass args r, p < args.bytes.length) :
    0 < total (copies args (pass args r)) := by
  have hcomes := comes_pass hr
  cases hpass : pass args r with
  | nil =>
      have hlength := congrArg List.length hpass
      rw [pass] at hlength
      split_ifs at hlength
      · rw [ascent, List.length_range'] at hlength
        exact absurd hlength (Nat.succ_ne_zero _)
      · rw [descent, List.length_map, List.length_range] at hlength
        exact absurd hlength (Nat.succ_ne_zero _)
  | cons x ps =>
      rw [hpass] at hcomes hinside
      have hpos := transfer_pos hcomes.2.1 (hinside x List.mem_cons_self)
      rw [total_copies_cons]
      omega

/-- From a pass on, the loop ends without a request that is too large. -/
theorem ends_from (hlib : Complete lib) (hfit : PassesFit args) (n : Nat) : ∀ k,
    size args - total (copies args (before args k)) ≤ n → Reaches args k →
    ∃ e, Ends lib args (passStart args k) (copies args (before args k)) e ∧ ∀ q, e ≠ .overrun q := by
  induction n with
  | zero =>
      intro k hn hreach
      have := hreach.left
      omega
  | succ n ih =>
      intro k hn hreach
      have hleft := hreach.left
      -- the assertion on the offset fails
      by_cases hnegative : 2 ^ 63 ≤ passStart args k
      · exact ⟨_, ends_negative hleft hnegative, fun q hq => by cases hq⟩
      have hle : passStart args k ≤ size args := (hfit k hreach).resolve_right hnegative
      -- at the end of the file, nothing is read
      by_cases heq : passStart args k = size args
      · refine ⟨_, ends_stop hlib hleft hle ?_, fun q hq => by cases hq⟩
        rw [transfer]
        omega
      have hlt : passStart args k < size args := by omega
      have hcomes := comes_pass hlt
      -- within the file, the pass reads all of its blocks
      by_cases hinside : ∀ p ∈ pass args (passStart args k), p < args.bytes.length
      · have hpos := total_pass_pos hlt hinside
        have htotal : total (copies args (before args (k + 1)))
            = total (copies args (before args k))
              + total (copies args (pass args (passStart args k))) := by
          rw [before_succ, copies, List.map_append, total_append]
          rfl
        -- more is left: on to the next pass
        by_cases hleft' : total (copies args (before args (k + 1))) < size args
        · have hreach' : Reaches args (k + 1) := by
            refine ⟨?_, ?_, hleft'⟩
            · intro i hi
              by_cases hik : i = k
              · exact hik ▸ hlt
              · exact hreach.starts i (by omega)
            · intro p hp
              rw [before_succ] at hp
              rcases List.mem_append.mp hp with hp | hp
              · exact hreach.inside p hp
              · exact hinside p hp
          obtain ⟨e, hend, he⟩ := ih (k + 1) (by omega) hreach'
          refine ⟨e, ends_of_comes hlib hcomes hinside (by omega) ?_, he⟩
          rw [passStart_succ]
          rw [before_succ, copies, List.map_append] at hend
          exact hend
        · obtain ⟨c, out, hend⟩ := ends_within hlib hcomes fun _ => by
            rw [← htotal]
            exact Nat.le_of_not_lt hleft'
          exact ⟨_, hend, fun q hq => by cases hq⟩
      · -- the file ends inside the pass
        obtain ⟨c, out, hend⟩ := @ends_within lib args _ _ _
          (copies args (before args k)) hlib hcomes fun hall => absurd hall hinside
        exact ⟨_, hend, fun q hq => by cases hq⟩

/-- **REQUESTS**: they fit into the buffer exactly when no pass starts after the end
    while there are bytes to be copied. -/
theorem requests_iff (hlib : Complete lib) (args : Args) (buf : Buffer) :
    RequestsFit args lib buf ↔ PassesFit args := by
  constructor
  · rintro ⟨e, hreturns, he⟩ k hreach
    by_contra hbad
    rw [not_or, Nat.not_le, Nat.not_le] at hbad
    have hend := ends_of_reaches hlib hreach (ends_overrun hreach.left hbad.1 hbad.2)
    exact he _ (hreturns.unique (hend.returns buf))
  · intro hfit
    by_cases hzero : size args = 0
    · refine ⟨_, (ends_written ?_).returns buf, fun q hq => by cases hq⟩
      rw [hzero]
      exact Nat.zero_le _
    · have hreach : Reaches args 0 := by
        refine ⟨fun i hi => absurd hi (Nat.not_lt_zero i), ?_, Nat.pos_of_ne_zero hzero⟩
        exact fun p hp => absurd hp List.not_mem_nil
      obtain ⟨e, hend, he⟩ := ends_from hlib hfit (size args) 0 (Nat.sub_le _ _) hreach
      exact ⟨e, (ends_of_reaches hlib hreach hend).returns buf, he⟩

/-- Ten bytes in blocks of four, from offset 1 on. -/
def tenBytes : Args where
  blockSize := 4
  stride := 100
  fileSize := 10
  initialOffset := 1
  readBytewise := false
  writeBytewise := false
  bytes := [0, 1, 2, 3, 4, 5, 6, 7, 8, 9]
  blockSize_pos := by decide
  blockSize_lt := by decide
  stride_pos := by decide
  stride_lt := by decide
  initialOffset_lt := by decide
  bytes_lt := by decide

/-- The theorem's condition for a file of ten bytes. -/
theorem requests_iff_tenBytes :
    RequestsFit tenBytes (IoContract.slow (fun _ => 1) fun _ => 1) (fun _ => 0)
      ↔ PassesFit tenBytes :=
  requests_iff (slow_complete (fun _ => 1) fun _ => 1) tenBytes fun _ => 0

/-- The passes start at 1, 5, 9 and 13, when nine bytes have been copied. -/
theorem requests_overrun :
    ¬ ∀ (lib : Library), Complete lib → ∀ (args : Args) (buf : Buffer),
      RequestsFit args lib buf := by
  intro hall
  obtain ⟨e, hreturns, he⟩ :=
    hall _ (slow_complete (fun _ => 1) fun _ => 1) tenBytes fun _ => 0
  have hrun : run (body (IoContract.slow (fun _ => 1) fun _ => 1) tenBytes) 4
      (start tenBytes fun _ => 0) = some (.overrun (2 ^ 64 - 3)) := by
    decide +kernel
  exact he _ (hreturns.unique (returns_of_run hrun))

end StrideRequests
