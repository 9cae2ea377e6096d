import Mathlib.Tactic.Ring
import Cs61.AllocRuns

/-! # The 8 MiB buffer — what the bump allocators share

    `m61-reuseempty`, `m61-lastalloc` and `m61-staff` cut allocations off one
    buffer that the first `m61_malloc` obtains from the system.  `base` is the
    address that the system's `malloc` answers; the assertion after the call
    says that it is not null.

    * `Arena.take` — the common part of `m61_malloc`;
    * `Fits` — where an arena may be, with all live allocations behind it. -/

namespace HeapBuffer

open AllocRuns

/-! ## Statistics -/

/-- `unsigned long long` arithmetic. -/
def wrap (n : Nat) : Nat := n % 2 ^ 64

/-- `m61_statistics`. -/
structure Statistics where
  totalCount : Nat
  totalBytes : Nat
  activeCount : Nat
  activeBytes : Nat
deriving DecidableEq

/-- Nothing has been requested. -/
def Statistics.zero : Statistics :=
  { totalCount := 0, totalBytes := 0, activeCount := 0, activeBytes := 0 }

/-- What every `m61_malloc` that succeeds adds. -/
def Statistics.add (gs : Statistics) (sz : Nat) : Statistics where
  totalCount := wrap (gs.totalCount + 1)
  totalBytes := wrap (gs.totalBytes + sz)
  activeCount := wrap (gs.activeCount + 1)
  activeBytes := wrap (gs.activeBytes + sz)

/-- `gs.active_count -= 1; gs.active_bytes -= sz`. -/
def Statistics.sub (gs : Statistics) (sz : Nat) : Statistics :=
  { gs with
    activeCount := wrap (gs.activeCount + (2 ^ 64 - 1))
    activeBytes := wrap (gs.activeBytes + (2 ^ 64 - sz)) }

theorem Statistics.totalCount_sub (gs : Statistics) (sz : Nat) :
    (gs.sub sz).totalCount = gs.totalCount := by
  rw [Statistics.sub]

theorem Statistics.totalBytes_sub (gs : Statistics) (sz : Nat) :
    (gs.sub sz).totalBytes = gs.totalBytes := by
  rw [Statistics.sub]

theorem Statistics.activeCount_sub {gs : Statistics} {sz n : Nat} (h : gs.activeCount = n + 1)
    (hn : n < 2 ^ 64) : (gs.sub sz).activeCount = n := by
  have hsub : (n + 1 + (2 ^ 64 - 1)) % 2 ^ 64 = n := by omega
  rw [Statistics.sub, h, wrap]
  exact hsub

theorem Statistics.activeBytes_sub {gs : Statistics} {sz n : Nat} (h : gs.activeBytes = sz + n)
    (hn : sz + n < 2 ^ 64) : (gs.sub sz).activeBytes = n := by
  have hsub : (sz + n + (2 ^ 64 - sz)) % 2 ^ 64 = n := by omega
  rw [Statistics.sub, h, wrap]
  exact hsub

/-! ## The buffer -/

/-- `8 << 20`. -/
def bufferSize : Nat := 8 <<< 20

/-- `buffer` and `end_buffer`, where `buffer` is what is left of the buffer. -/
structure Arena where
  buffer : Nat
  endBuffer : Nat
deriving DecidableEq

/-- There is no buffer yet. -/
def Arena.null : Arena := { buffer := 0, endBuffer := 0 }

/-- `if (!buffer)`: the first call obtains the buffer. -/
def Arena.ready (base : Nat) (a : Arena) : Arena :=
  if a.buffer = 0 then { buffer := base, endBuffer := base + bufferSize } else a

/-- Cut `sz` bytes off, unless there is not enough space. -/
def Arena.take (base sz : Nat) (a : Arena) : Option Nat × Arena :=
  let a := a.ready base
  if a.endBuffer - a.buffer < sz then (none, a)
  else (some a.buffer, { a with buffer := a.buffer + sz })

/-- The arena has no buffer yet, or `buffer` is within it. -/
def Arena.Ok (base : Nat) (a : Arena) : Prop :=
  a = .null ∨ (base ≤ a.buffer ∧ a.buffer ≤ a.endBuffer ∧ a.endBuffer = base + bufferSize)

/-- The live allocations are behind `buffer`, and do not overlap. -/
structure Fits (base : Nat) (a : Arena) (live : List Block) : Prop where
  ok : a.Ok base
  safe : Safe base (base + bufferSize) live
  behind : ∀ b ∈ live, b.start + b.size ≤ a.buffer

variable {base sz : Nat} {a : Arena} {live : List Block}

/-- Without a buffer there are no blocks. -/
theorem Fits.null (base : Nat) : Fits base .null [] :=
  ⟨Or.inl rfl, Safe.nil _ _, fun _ h => by cases h⟩

theorem ready_of_ne (h : a.buffer ≠ 0) : a.ready base = a := if_neg h

/-- The buffer is made once. -/
theorem ready_ready (hbase : 0 < base) : (a.ready base).ready base = a.ready base := by
  refine ready_of_ne ?_
  rw [Arena.ready]
  split
  · exact Nat.ne_of_gt hbase
  · assumption

/-- Once the buffer is there, `buffer` is not null. -/
theorem ready_spec (hbase : 0 < base) (h : a.Ok base) :
    base ≤ (a.ready base).buffer ∧ (a.ready base).buffer ≤ (a.ready base).endBuffer
      ∧ (a.ready base).endBuffer = base + bufferSize ∧ a.buffer ≤ (a.ready base).buffer := by
  rcases h with rfl | ⟨hlo, hhi, hend⟩
  · exact ⟨Nat.le_refl _, Nat.le_add_right _ _, rfl, Nat.zero_le _⟩
  · rw [ready_of_ne (show a.buffer ≠ 0 by omega)]
    exact ⟨hlo, hhi, hend, Nat.le_refl _⟩

/-- The buffer does not disturb the blocks. -/
theorem Fits.ready (hbase : 0 < base) (h : Fits base a live) : Fits base (a.ready base) live := by
  obtain ⟨hlo, hhi, hend, hle⟩ := ready_spec hbase h.ok
  exact ⟨Or.inr ⟨hlo, hhi, hend⟩, h.safe, fun b hb => Nat.le_trans (h.behind b hb) hle⟩

/-- A block less fits. -/
theorem Fits.erase (h : Fits base a live) (b : Block) : Fits base a (live.erase b) :=
  ⟨h.ok, h.safe.erase b, fun a ha => h.behind a (List.mem_of_mem_erase ha)⟩

/-- A block is taken from the front of the rest. -/
theorem take_of_le {b e : Nat} (hb : b ≠ 0) (h : sz ≤ e - b) :
    Arena.take base sz { buffer := b, endBuffer := e }
      = (some b, { buffer := b + sz, endBuffer := e }) := by
  rw [Arena.take, ready_of_ne hb]
  exact if_neg (Nat.not_lt.mpr h)

/-- The first request obtains the buffer. -/
theorem take_null (hbase : 0 < base) : Arena.take base sz .null
    = Arena.take base sz { buffer := base, endBuffer := base + bufferSize } := by
  have hready : Arena.ready base { buffer := base, endBuffer := base + bufferSize }
      = Arena.ready base .null := if_neg (Nat.ne_of_gt hbase)
  rw [Arena.take, Arena.take, hready]

/-- The first request, of a buffer that ends at `e`. -/
theorem take_first {e : Nat} (hbase : 0 < base) (he : base + bufferSize = e)
    (hsz : sz ≤ bufferSize) :
    Arena.take base sz .null = (some base, { buffer := base + sz, endBuffer := e }) := by
  rw [take_null hbase, he, take_of_le (Nat.ne_of_gt hbase) (by omega)]

/-- A request that does not fit, or a new allocation at `buffer`. -/
theorem take_cases (sz : Nat) (hbase : 0 < base) (h : Fits base a live) :
    (Arena.take base sz a = (none, a.ready base)
        ∧ base + bufferSize < (a.ready base).buffer + sz)
      ∨ ∃ a', Arena.take base sz a = (some (a.ready base).buffer, a')
          ∧ a'.buffer = (a.ready base).buffer + sz
          ∧ Fits base a' (⟨(a.ready base).buffer, sz⟩ :: live) := by
  obtain ⟨hlo, hhi, hend, -⟩ := ready_spec hbase h.ok
  have hready := h.ready hbase
  rw [Arena.take]
  generalize a.ready base = a₀ at *
  by_cases hsz : a₀.endBuffer - a₀.buffer < sz
  · rw [if_pos hsz]
    exact Or.inl ⟨rfl, by omega⟩
  · rw [if_neg hsz]
    have hroom : a₀.buffer + sz ≤ a₀.endBuffer := by omega
    refine Or.inr ⟨_, rfl, rfl, Or.inr ⟨?_, hroom, hend⟩, ?_, ?_⟩
    · exact Nat.le_trans hlo (Nat.le_add_right _ _)
    · refine hready.safe.cons ⟨hlo, hend ▸ hroom⟩ ?_
      intro b hb
      exact (Block.apart_of_le (hready.behind b hb)).symm
    · intro b hb
      rcases List.mem_cons.mp hb with rfl | hb
      · exact Nat.le_refl _
      · exact Nat.le_trans (hready.behind b hb) (Nat.le_add_right _ _)

end HeapBuffer
