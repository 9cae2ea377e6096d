import Mathlib.Algebra.Order.Group.Nat
import Cs61.HeapBuffer
import Cs61.OrderedMaps

/-! # `m61-derp` — one map of all blocks

    A map from addresses to blocks, allocated and free ones, covers the
    buffer.  `m61_malloc` cuts the first free block that is large enough in
    two.  When nothing is left over, the second part is empty, and its entry
    takes the place of the next block's (`full_not_sound`).

    * `tiles_iff` — the map keeps to the history exactly as long as this only
      happens at the end of the buffer. -/

namespace Derp

open AllocRuns HeapBuffer OrderedMaps

/-- `allocinfo`. -/
structure AllocInfo where
  bsz : Nat
  usz : Nat
  free : Bool
deriving DecidableEq

/-- The variables of `m61-derp.cc`. -/
structure State where
  gs : Statistics
  blocks : OrdMap Nat AllocInfo

/-- `if (blocks.empty())`: the first call obtains the buffer. -/
def ready (base : Nat) (blocks : OrdMap Nat AllocInfo) : OrdMap Nat AllocInfo :=
  if blocks.entries.isEmpty then blocks.insert base { bsz := bufferSize, usz := 0, free := true }
  else blocks

/-- Where the scan stops. -/
def fits (sz : Nat) (e : Nat × AllocInfo) : Bool := e.2.free && decide (sz ≤ e.2.bsz)

/-- `sz && sz % 16 == 0 ? sz : (sz | 15) + 1`. -/
def alignUp (sz : Nat) : Nat := if sz ≠ 0 ∧ sz % 16 = 0 then sz else wrap ((sz ||| 15) + 1)

/-- `m61_malloc(sz)`. -/
def m61Malloc (base sz : Nat) (s : State) : Option Nat × State :=
  let blocks := ready base s.blocks
  match blocks.entries.find? (fits sz) with
  | none => (none, { s with blocks := blocks })
  | some (ptr, info) =>
      let asz := alignUp sz
      let rest : AllocInfo := { bsz := wrap (info.bsz + (2 ^ 64 - asz)), usz := 0, free := true }
      (some ptr, {
        gs := s.gs.add sz
        blocks := (blocks.set (ptr + asz) rest).set ptr { bsz := asz, usz := sz, free := false } })

/-- Without a state after it when an assertion fails. -/
def m61Free (ptr : Nat) (s : State) : Option State :=
  if ptr = 0 then some s
  else match s.blocks.find? ptr with
    | none => none
    | some info =>
        if info.free then none
        else some {
          gs := s.gs.sub info.usz, blocks := s.blocks.set ptr { info with free := true } }

/-- The allocator of `m61-derp.cc`. -/
def derp (base : Nat) : Allocator State where
  init := { gs := .zero, blocks := .empty }
  malloc := m61Malloc base
  free := m61Free

variable {base sz ptr p a e : Nat} {s : State} {b : Block} {c c' : Config State}
variable {info i : AllocInfo} {L M before after : List (Nat × AllocInfo)}

/-! ## Sizes -/

/-- A size rounded up, as `| 15` does it. -/
theorem or_fifteen (n : Nat) : n ||| 15 = 16 * (n / 16) + 15 := by
  have hr : ∀ r < 16, r ||| 15 = 15 := by decide
  have hsplit : n = 2 ^ 4 * (n / 16) ||| n % 16 := by
    rw [← Nat.two_pow_add_eq_or_of_lt (Nat.mod_lt n (by decide))]
    exact (Nat.div_add_mod n 16).symm
  calc n ||| 15 = (2 ^ 4 * (n / 16) ||| n % 16) ||| 15 := by rw [← hsplit]
    _ = 2 ^ 4 * (n / 16) ||| 15 := by rw [Nat.or_assoc, hr _ (Nat.mod_lt n (by decide))]
    _ = 16 * (n / 16) + 15 := (Nat.two_pow_add_eq_or_of_lt (by decide) _).symm

/-- The size of a block for `sz` bytes. -/
theorem alignUp_spec (h : sz ≤ bufferSize) :
    alignUp sz % 16 = 0 ∧ sz ≤ alignUp sz ∧ 0 < alignUp sz ∧ alignUp sz ≤ sz + 16
      ∧ (0 < sz → alignUp sz < sz + 16) := by
  have hroom : bufferSize + 16 < 2 ^ 64 := by decide
  rw [alignUp]
  split
  · omega
  · rename_i hno
    have hlt : 16 * (sz / 16) + 15 + 1 < 2 ^ 64 := by omega
    rw [or_fifteen, wrap, Nat.mod_eq_of_lt hlt]
    omega

/-- In multiples of 16, what is large enough for `sz` bytes is large enough
    for the block, unless it is empty. -/
theorem alignUp_le {n : Nat} (hn : n ≤ bufferSize) (hmod : n % 16 = 0) (h : sz ≤ n)
    (hpos : 0 < n) : alignUp sz ≤ n := by
  obtain ⟨hal, -, -, hle, hlt⟩ := alignUp_spec (Nat.le_trans h hn)
  rcases Nat.eq_zero_or_pos sz with hz | hz
  · omega
  · have := hlt hz
    omega

/-! ## Contiguous blocks -/

/-- The blocks follow each other from `a` to `e`. -/
def Spans : Nat → List (Nat × AllocInfo) → Nat → Prop
  | a, [], e => a = e
  | a, d :: L, e => d.1 = a ∧ Spans (a + d.2.bsz) L e

/-- Two rows of blocks, one behind the other. -/
theorem spans_append : Spans a (L ++ M) e ↔ ∃ m, Spans a L m ∧ Spans m M e := by
  induction L generalizing a with
  | nil => exact ⟨fun h => ⟨a, rfl, h⟩, fun ⟨m, hm, h⟩ => hm ▸ h⟩
  | cons d L ih =>
      constructor
      · rintro ⟨hd, h⟩
        obtain ⟨m, hL, hM⟩ := ih.mp h
        exact ⟨m, ⟨hd, hL⟩, hM⟩
      · rintro ⟨m, ⟨hd, hL⟩, hM⟩
        exact ⟨hd, ih.mpr ⟨m, hL, hM⟩⟩

/-- The sizes add up. -/
theorem Spans.sum (h : Spans a L e) : a + (L.map fun d => d.2.bsz).sum = e := by
  induction L generalizing a with
  | nil => exact h
  | cons d L ih =>
      rw [List.map_cons, List.sum_cons, ← Nat.add_assoc]
      exact ih h.2

theorem Spans.le (h : Spans a L e) : a ≤ e := by
  have := h.sum
  omega

/-- The blocks lie between the ends. -/
theorem Spans.bounds (h : Spans a L e) : ∀ d ∈ L, a ≤ d.1 ∧ d.1 + d.2.bsz ≤ e := by
  intro d hd
  obtain ⟨before, after, rfl⟩ := List.append_of_mem hd
  obtain ⟨m, hbefore, hm, hafter⟩ := spans_append.mp h
  have h1 := hbefore.le
  have h2 := hafter.le
  omega

/-- Of two blocks the first one ends before the second. -/
theorem Spans.pairwise (h : Spans a L e) : L.Pairwise fun d d' => d.1 + d.2.bsz ≤ d'.1 := by
  induction L generalizing a with
  | nil => exact List.Pairwise.nil
  | cons d L ih =>
      refine List.Pairwise.cons (fun d' hd' => ?_) (ih h.2)
      have := (h.2.bounds d' hd').1
      rw [h.1]
      exact this

/-- Different blocks are apart. -/
theorem Spans.apart (h : Spans a L e) {d d' : Nat × AllocInfo} (hd : d ∈ L) (hd' : d' ∈ L)
    (hne : d ≠ d') : d.1 + d.2.bsz ≤ d'.1 ∨ d'.1 + d'.2.bsz ≤ d.1 := by
  have hsymm : Std.Symm fun x y : Nat × AllocInfo => x.1 + x.2.bsz ≤ y.1 ∨ y.1 + y.2.bsz ≤ x.1 :=
    { symm := fun _ _ => Or.symm }
  have hall : L.Pairwise fun x y => x.1 + x.2.bsz ≤ y.1 ∨ y.1 + y.2.bsz ≤ x.1 :=
    h.pairwise.imp Or.inl
  exact hall.forall hd hd' hne

/-- Nothing but an empty block follows the end. -/
theorem Spans.empty (h : Spans e L e) (hL : L.Pairwise fun d d' => d.1 < d'.1) :
    L = [] ∨ ∃ d, L = [d] ∧ d.1 = e ∧ d.2.bsz = 0 := by
  cases L with
  | nil => exact Or.inl rfl
  | cons d L =>
      have hle := h.2.le
      cases L with
      | nil => exact Or.inr ⟨d, rfl, h.1, by omega⟩
      | cons d' L =>
          have hlt := (List.pairwise_cons.mp hL).1 d' List.mem_cons_self
          have := h.1
          have := h.2.1
          omega

/-! ## The invariant -/

/-- The map covers the buffer with blocks of 16 bytes each or more. -/
structure Covers (base : Nat) (L : List (Nat × AllocInfo)) : Prop where
  spans : Spans base L (base + bufferSize)
  aligned : ∀ d ∈ L, d.2.bsz % 16 = 0
  used : ∀ d ∈ L, d.2.free = false → d.2.usz ≤ d.2.bsz ∧ 0 < d.2.bsz

/-- The allocated blocks of the map are the live allocations. -/
def Table (L : List (Nat × AllocInfo)) (live : List Block) : Prop :=
  ∀ p n, ⟨p, n⟩ ∈ live ↔ ∃ i, (p, i) ∈ L ∧ i.free = false ∧ i.usz = n

/-- What is in the map after the first call. -/
structure Inv (base : Nat) (c : Config State) : Prop where
  covers : Covers base (ready base c.state.blocks).entries
  table : Table (ready base c.state.blocks).entries c.live
  distinct : c.live.Pairwise fun a b => a.start ≠ b.start

/-- What the map must be. -/
structure Sound (base : Nat) (c : Config State) : Prop where
  spans : c.state.blocks.entries = [] ∧ c.live = []
    ∨ Spans base c.state.blocks.entries (base + bufferSize)
      ∧ (c.state.blocks.entries.map fun d => d.2.bsz).sum = bufferSize
  table : Table c.state.blocks.entries c.live
  distinct : c.live.Pairwise fun a b => a.start ≠ b.start
  room : ∀ d ∈ c.state.blocks.entries, d.2.free = false → d.2.usz ≤ d.2.bsz
  safe : Safe base (base + bufferSize) c.live
  freeLive : ∀ b ∈ c.live, (derp base).free b.start c.state ≠ none

/-- The block that a request gets is larger than it needs, or the last one. -/
def Splits (base : Nat) (c : Config State) : Call → Prop
  | .malloc sz => ∀ d, (ready base c.state.blocks).entries.find? (fits sz) = some d →
      alignUp sz < d.2.bsz ∨ alignUp sz = d.2.bsz ∧ d.1 + d.2.bsz = base + bufferSize
  | _ => True

/-- The map is not started twice. -/
theorem ready_of_ne {m : OrdMap Nat AllocInfo} (h : m.entries ≠ []) : ready base m = m :=
  if_neg (by rwa [List.isEmpty_iff])

/-- At the start all of the heap is one free block. -/
theorem ready_of_eq {m : OrdMap Nat AllocInfo} (h : m.entries = []) :
    (ready base m).entries = [(base, { bsz := bufferSize, usz := 0, free := true })] := by
  have hnone : m.find? base = none := by
    rw [OrdMap.find?_eq_none, h]
    exact fun d hd => by cases hd
  rw [ready, if_pos (List.isEmpty_iff.mpr h), OrdMap.insert_of_none hnone]
  show place base _ m.entries = _
  rw [h]
  rfl

theorem ready_ne (m : OrdMap Nat AllocInfo) : (ready base m).entries ≠ [] := by
  by_cases h : m.entries = []
  · rw [ready_of_eq h]
    exact List.cons_ne_nil _ _
  · rwa [ready_of_ne h]

/-- The invariant holds at the start. -/
theorem inv_start (base : Nat) : Inv base (derp base).start := by
  have hstart : (ready base (derp base).start.state.blocks).entries
      = [(base, { bsz := bufferSize, usz := 0, free := true })] := ready_of_eq rfl
  refine ⟨?_, ?_, List.Pairwise.nil⟩
  · rw [hstart]
    refine ⟨⟨rfl, rfl⟩, ?_, ?_⟩
    · intro d hd
      rw [List.mem_singleton.mp hd]
      show bufferSize % 16 = 0
      decide
    · intro d hd hfree
      rw [List.mem_singleton.mp hd] at hfree
      cases hfree
  · rw [hstart]
    intro p n
    constructor
    · intro h
      cases h
    · rintro ⟨i, hi, hfree, -⟩
      obtain ⟨rfl, rfl⟩ := Prod.mk.inj (List.mem_singleton.mp hi)
      cases hfree

/-- Only the first call sees an empty map. -/
theorem Inv.cases (h : Inv base c) : c.state.blocks.entries = [] ∧ c.live = []
    ∨ ready base c.state.blocks = c.state.blocks := by
  by_cases hempty : c.state.blocks.entries = []
  · refine Or.inl ⟨hempty, ?_⟩
    have htable := h.table
    rw [ready_of_eq hempty] at htable
    refine List.eq_nil_iff_forall_not_mem.mpr fun b hb => ?_
    obtain ⟨i, hi, hfree, -⟩ := (htable b.start b.size).mp hb
    obtain ⟨-, rfl⟩ := Prod.mk.inj (List.mem_singleton.mp hi)
    cases hfree
  · exact Or.inr (ready_of_ne hempty)

/-- A null pointer is ignored. -/
theorem m61Free_null : (derp base).free 0 s = some s := rfl

/-- A block in use becomes free. -/
theorem m61Free_some (hptr : ptr ≠ 0) (h : (ptr, info) ∈ s.blocks.entries)
    (hfree : info.free = false) : (derp base).free ptr s = some {
      gs := s.gs.sub info.usz, blocks := s.blocks.set ptr { info with free := true } } := by
  show m61Free ptr s = _
  rw [m61Free, if_neg hptr, OrdMap.find?_eq_some.mpr h]
  exact if_neg (by rw [hfree]; exact Bool.noConfusion)

/-- Different live allocations are in different blocks. -/
theorem Inv.safe (h : Inv base c) : Safe base (base + bufferSize) c.live := by
  have hcovers := h.covers
  constructor
  · refine h.distinct.imp_of_mem fun {b d} hb hd hne => ?_
    obtain ⟨i, hi, hifree, hib⟩ := (h.table b.start b.size).mp hb
    obtain ⟨j, hj, hjfree, hjd⟩ := (h.table d.start d.size).mp hd
    have hile : i.usz ≤ i.bsz := (hcovers.used _ hi hifree).1
    have hjle : j.usz ≤ j.bsz := (hcovers.used _ hj hjfree).1
    have hapart : b.start + i.bsz ≤ d.start ∨ d.start + j.bsz ≤ b.start :=
      hcovers.spans.apart hi hj fun heq => hne (congrArg Prod.fst heq)
    rcases hapart with hle | hle
    · exact Block.apart_of_le (by omega)
    · exact (Block.apart_of_le (by omega)).symm
  · intro b hb
    obtain ⟨i, hi, hifree, hib⟩ := (h.table b.start b.size).mp hb
    have hile : i.usz ≤ i.bsz := (hcovers.used _ hi hifree).1
    obtain ⟨hlo, hhi⟩ : base ≤ b.start ∧ b.start + i.bsz ≤ base + bufferSize :=
      hcovers.spans.bounds _ hi
    exact ⟨hlo, by omega⟩

/-- The invariant gives what is claimed. -/
theorem Inv.sound (h : Inv base c) : Sound base c := by
  have hsafe := h.safe
  rcases h.cases with ⟨hempty, hlive⟩ | hready
  · have hno : ∀ b, b ∉ c.live := fun b hb => by
      rw [hlive] at hb
      cases hb
    refine ⟨Or.inl ⟨hempty, hlive⟩, ?_, h.distinct, ?_, hsafe, fun b hb => absurd hb (hno b)⟩
    · intro p n
      rw [hempty]
      exact ⟨fun hb => absurd hb (hno _), fun ⟨i, hi, _⟩ => by cases hi⟩
    · rw [hempty]
      exact fun d hd => by cases hd
  · have hcovers := h.covers
    have htable := h.table
    rw [hready] at hcovers htable
    have hsum := hcovers.spans.sum
    refine ⟨Or.inr ⟨hcovers.spans, by omega⟩, htable, h.distinct,
      fun d hd hfree => (hcovers.used d hd hfree).1, hsafe, ?_⟩
    intro b hb
    obtain ⟨i, hi, hfree, -⟩ := (htable b.start b.size).mp hb
    by_cases hptr : b.start = 0
    · rw [hptr, m61Free_null]
      exact Option.some_ne_none _
    · rw [m61Free_some hptr hi hfree]
      exact Option.some_ne_none _

/-! ## One call -/

/-- Where the scan stops, and what is around it. -/
theorem Covers.first {m : OrdMap Nat AllocInfo} (h : Covers base m.entries)
    (hfind : m.entries.find? (fits sz) = some (p, info)) :
    info.free = true ∧ sz ≤ info.bsz ∧ info.bsz % 16 = 0 ∧ info.bsz ≤ bufferSize
      ∧ ∃ before after, m.entries = before ++ (p, info) :: after ∧ Spans base before p
        ∧ Spans (p + info.bsz) after (base + bufferSize)
        ∧ (∀ d ∈ before, d.1 < p) ∧ (∀ d ∈ after, p < d.1)
        ∧ after.Pairwise fun d d' => d.1 < d'.1 := by
  obtain ⟨hfits, before, after, hm, -⟩ := List.find?_eq_some_iff_append.mp hfind
  obtain ⟨hfree, hsz⟩ : info.free = true ∧ sz ≤ info.bsz := by simpa [fits] using hfits
  have hmem : (p, info) ∈ m.entries := by simp [hm]
  have hspans := h.spans
  rw [hm] at hspans
  obtain ⟨q, hbefore, rfl, hafter⟩ := spans_append.mp hspans
  obtain ⟨hlo, hhi⟩ : base ≤ p ∧ p + info.bsz ≤ base + bufferSize := h.spans.bounds _ hmem
  obtain ⟨-, hsorted, hlt⟩ := List.pairwise_append.mp (hm ▸ m.sorted)
  obtain ⟨hgt, hsorted⟩ := List.pairwise_cons.mp hsorted
  exact ⟨hfree, hsz, h.aligned _ hmem, by omega, before, after, hm, hbefore, hafter,
    fun d hd => hlt d hd _ List.mem_cons_self, hgt, hsorted⟩

/-- The block is cut in two, and what was behind it stays, but for an empty
    block at the end. -/
theorem Covers.split {m : OrdMap Nat AllocInfo} (h : Covers base m.entries)
    (hfind : m.entries.find? (fits sz) = some (p, info))
    (hok : alignUp sz < info.bsz ∨ alignUp sz = info.bsz ∧ p + info.bsz = base + bufferSize)
    (u r : AllocInfo) :
    ∃ before after rest, m.entries = before ++ (p, info) :: after
      ∧ ((m.set (p + alignUp sz) r).set p u).entries
        = before ++ (p, u) :: (p + alignUp sz, r) :: rest
      ∧ Spans base before p ∧ Spans (p + info.bsz) rest (base + bufferSize)
      ∧ (∀ d ∈ rest, d ∈ after) ∧ ∀ d ∈ after, d.2.free = false → d ∈ rest := by
  obtain ⟨-, hsz, -, hle, before, after, hm, hbefore, hafter, hlt, hgt, hsorted⟩ := h.first hfind
  have hpos := (alignUp_spec (Nat.le_trans hsz hle)).2.2.1
  have hm' : m.entries = (before ++ [(p, info)]) ++ after := by rw [hm, List.append_cons]
  have hfront : ∀ d ∈ before ++ [(p, info)], d.1 < p + alignUp sz := by
    intro d hd
    rcases List.mem_append.mp hd with hd | hd
    · exact Nat.lt_add_right _ (hlt d hd)
    · rw [List.mem_singleton.mp hd]
      exact Nat.lt_add_of_pos_right hpos
  -- the rest of the block becomes an entry of its own
  rcases hok with hless | ⟨heq, hend⟩
  · have hset : (m.set (p + alignUp sz) r).entries
        = before ++ (p, info) :: ((p + alignUp sz, r) :: after) := by
      rw [OrdMap.entries_set_new hm' hfront, List.append_assoc]
      · rfl
      · intro d hd
        have := (hafter.bounds d hd).1
        omega
    exact ⟨before, after, after, hm, OrdMap.entries_set_old hset, hbefore, hafter,
      fun d hd => hd, fun d hd _ => hd⟩
  · -- the last block is used up, and the entry behind it is an empty one
    rw [hend] at hafter
    have hset : (m.set (p + alignUp sz) r).entries
        = before ++ (p, info) :: [(p + alignUp sz, r)] := by
      rcases hafter.empty hsorted with rfl | ⟨d, rfl, hd, -⟩
      · rw [OrdMap.entries_set_new hm' hfront (fun d hd => by cases hd), List.append_assoc]
        rfl
      · obtain ⟨q, j⟩ := d
        obtain rfl : q = p + alignUp sz := by
          rw [heq, hend]
          exact hd
        rw [OrdMap.entries_set_old hm', List.append_assoc]
        rfl
    refine ⟨before, after, [], hm, OrdMap.entries_set_old hset, hbefore, hend, ?_, ?_⟩
    · intro d hd
      cases hd
    · -- no block in use is empty
      intro d hd hfree
      have hpos := (h.used d (by rw [hm']; exact List.mem_append_right _ hd) hfree).2
      rcases hafter.empty hsorted with rfl | ⟨d', rfl, -, hzero⟩
      · exact hd
      · rw [List.mem_singleton.mp hd] at hpos
        omega

/-- No free block is large enough. -/
theorem m61Malloc_none (h : (ready base s.blocks).entries.find? (fits sz) = none) :
    (derp base).malloc sz s = (none, { s with blocks := ready base s.blocks }) := by
  show m61Malloc base sz s = _
  rw [m61Malloc]
  dsimp only
  rw [h]

/-- The two blocks that a request makes out of one. -/
def cut (base sz : Nat) (s : State) (p : Nat) (info : AllocInfo) : OrdMap Nat AllocInfo :=
  ((ready base s.blocks).set (p + alignUp sz)
      { bsz := wrap (info.bsz + (2 ^ 64 - alignUp sz)), usz := 0, free := true }).set p
    { bsz := alignUp sz, usz := sz, free := false }

/-- The first block that is large enough is cut. -/
theorem m61Malloc_some
    (h : (ready base s.blocks).entries.find? (fits sz) = some (p, info)) :
    (derp base).malloc sz s
      = (some p, { gs := s.gs.add sz, blocks := cut base sz s p info }) := by
  show m61Malloc base sz s = _
  rw [m61Malloc]
  dsimp only
  rw [h]
  rfl

/-- The map is not empty after a request. -/
theorem ready_cut : ready base (cut base sz s p info) = cut base sz s p info :=
  ready_of_ne (List.ne_nil_of_mem (OrdMap.mem_set.mpr (Or.inl rfl)))

/-- What holds of the blocks of a cut map. -/
theorem forall_cut {Q : Nat × AllocInfo → Prop} {x y z : Nat × AllocInfo}
    {rest : List (Nat × AllocInfo)} (h : ∀ d ∈ before ++ z :: after, Q d)
    (hsub : ∀ d ∈ rest, d ∈ after) (hx : Q x) (hy : Q y) :
    ∀ d ∈ before ++ x :: y :: rest, Q d := by
  intro d hd
  rcases List.mem_append.mp hd with hd | hd
  · exact h d (List.mem_append_left _ hd)
  · rcases List.mem_cons.mp hd with rfl | hd
    · exact hx
    · rcases List.mem_cons.mp hd with rfl | hd
      · exact hy
      · exact h d (List.mem_append_right _ (List.mem_cons_of_mem _ (hsub d hd)))

/-- The allocated part of the block is the new allocation. -/
theorem Table.cut {rest : List (Nat × AllocInfo)} {live : List Block} {n asz q : Nat}
    (h : Table (before ++ (p, info) :: after) live) (hfree : info.free = true)
    (hsub : ∀ d ∈ rest, d ∈ after) (hkeep : ∀ d ∈ after, d.2.free = false → d ∈ rest) :
    Table (before ++ (p, { bsz := asz, usz := sz, free := false })
      :: (q, { bsz := n, usz := 0, free := true }) :: rest) (⟨p, sz⟩ :: live) := by
  intro a k
  rw [List.mem_cons, h a k]
  constructor
  · rintro (heq | ⟨i, hi, hifree, hik⟩)
    · obtain ⟨rfl, rfl⟩ := Block.mk.inj heq
      exact ⟨_, List.mem_append_right _ List.mem_cons_self, rfl, rfl⟩
    · refine ⟨i, ?_, hifree, hik⟩
      rcases List.mem_append.mp hi with hi | hi
      · exact List.mem_append_left _ hi
      · rcases List.mem_cons.mp hi with heq | hi
        · obtain ⟨-, rfl⟩ := Prod.mk.inj heq
          rw [hfree] at hifree
          cases hifree
        · exact List.mem_append_right _ (List.mem_cons_of_mem _ (List.mem_cons_of_mem _
            (hkeep _ hi hifree)))
  · rintro ⟨i, hi, hifree, hik⟩
    rcases List.mem_append.mp hi with hi | hi
    · exact Or.inr ⟨i, List.mem_append_left _ hi, hifree, hik⟩
    · rcases List.mem_cons.mp hi with heq | hi
      · obtain ⟨rfl, rfl⟩ := Prod.mk.inj heq
        exact Or.inl (by rw [← hik])
      · rcases List.mem_cons.mp hi with heq | hi
        · obtain ⟨-, rfl⟩ := Prod.mk.inj heq
          cases hifree
        · exact Or.inr ⟨i, List.mem_append_right _ (List.mem_cons_of_mem _ (hsub _ hi)), hifree,
            hik⟩

/-- A request keeps the invariant. -/
theorem Inv.malloc (h : Inv base c) (hok : Splits base c (.malloc sz)) :
    Inv base ((derp base).grant sz c) := by
  have hroom : bufferSize + 16 < 2 ^ 64 := by decide
  -- by whether a free block is large enough
  cases hfind : (ready base c.state.blocks).entries.find? (fits sz) with
  | none =>
      rw [grant_none (m61Malloc_none hfind)]
      have hready : ready base (ready base c.state.blocks) = ready base c.state.blocks :=
        ready_of_ne (ready_ne c.state.blocks)
      refine ⟨?_, ?_, h.distinct⟩
      · show Covers base (ready base (ready base c.state.blocks)).entries
        rw [hready]
        exact h.covers
      · show Table (ready base (ready base c.state.blocks)).entries c.live
        rw [hready]
        exact h.table
  | some d =>
      obtain ⟨p, info⟩ := d
      rw [grant_some (m61Malloc_some hfind)]
      obtain ⟨hfree, hsz, hmod, hle, -⟩ := h.covers.first hfind
      obtain ⟨hal, hszal, hpos, -, -⟩ := alignUp_spec (Nat.le_trans hsz hle)
      -- the block has room for the request
      have hfit : alignUp sz ≤ info.bsz := by
        rcases hok _ hfind with hlt | ⟨heq, -⟩
        · exact Nat.le_of_lt hlt
        · exact Nat.le_of_eq heq
      have hrest : wrap (info.bsz + (2 ^ 64 - alignUp sz)) = info.bsz - alignUp sz := by
        rw [wrap]
        omega
      obtain ⟨before, after, rest, hm, hcut, hbefore, hspans, hsub, hkeep⟩ :=
        h.covers.split hfind (hok _ hfind) { bsz := alignUp sz, usz := sz, free := false }
          { bsz := wrap (info.bsz + (2 ^ 64 - alignUp sz)), usz := 0, free := true }
      have htable := h.table
      have hcovers := h.covers
      rw [hm] at htable hcovers
      -- the two entries cover what the one did
      refine ⟨?_, ?_, List.Pairwise.cons ?_ h.distinct⟩
      · show Covers base (ready base (cut base sz c.state p info)).entries
        rw [ready_cut, cut, hcut, hrest]
        refine ⟨spans_append.mpr ⟨p, hbefore, rfl, rfl, ?_⟩, ?_, ?_⟩
        · show Spans (p + alignUp sz + (info.bsz - alignUp sz)) rest (base + bufferSize)
          rw [Nat.add_assoc, Nat.add_sub_cancel' hfit]
          exact hspans
        · exact forall_cut hcovers.aligned hsub hal (by show (_ - _) % 16 = 0; omega)
        · exact forall_cut hcovers.used hsub (fun _ => ⟨hszal, hpos⟩)
            (fun hfree => by cases hfree)
      · show Table (ready base (cut base sz c.state p info)).entries (⟨p, sz⟩ :: c.live)
        rw [ready_cut, cut, hcut]
        exact htable.cut hfree hsub hkeep
      · -- the address is at no block in use
        rintro b hb rfl
        obtain ⟨i, hi, hifree, -⟩ := (h.table b.start b.size).mp hb
        obtain rfl := OrdMap.entry_unique (List.mem_of_find?_eq_some hfind) hi
        rw [hfree] at hifree
        cases hifree

/-- A `free` only turns the mark of its block. -/
theorem Inv.free (hbase : 0 < base) (h : Inv base c) (hb : b ∈ c.live)
    (hs : (derp base).free b.start c.state = some s) :
    Inv base { c with state := s, live := c.live.erase b } := by
  -- there has been a request, and the list of blocks is set up
  have hready : ready base c.state.blocks = c.state.blocks := by
    rcases h.cases with ⟨-, hlive⟩ | hready
    · rw [hlive] at hb
      cases hb
    · exact hready
  have hcovers := h.covers
  have htable := h.table
  rw [hready] at hcovers htable
  obtain ⟨i, hi, hfree, -⟩ := (htable b.start b.size).mp hb
  have hstart : b.start ≠ 0 := Nat.ne_of_gt (Nat.lt_of_lt_of_le hbase (hcovers.spans.bounds _ hi).1)
  obtain rfl := Option.some.inj ((m61Free_some hstart hi hfree).symm.trans hs)
  have hset : ready base (c.state.blocks.set b.start { i with free := true })
      = c.state.blocks.set b.start { i with free := true } :=
    ready_of_ne (List.ne_nil_of_mem (OrdMap.mem_set.mpr (Or.inl rfl)))
  refine ⟨?_, ?_, h.distinct.sublist List.erase_sublist⟩
  · show Covers base (ready base (c.state.blocks.set b.start { i with free := true })).entries
    rw [hset]
    obtain ⟨before, after, hm⟩ := List.append_of_mem hi
    refine ⟨?_, ?_, ?_⟩
    · -- the block stays where it is
      rw [OrdMap.entries_set_old hm]
      have hspans := hcovers.spans
      rw [hm] at hspans
      obtain ⟨q, hbefore, hq, hafter⟩ := spans_append.mp hspans
      exact spans_append.mpr ⟨q, hbefore, hq, hafter⟩
    · intro d hd
      rcases OrdMap.mem_set.mp hd with rfl | ⟨hd, -⟩
      · exact (hcovers.aligned (b.start, i) hi : i.bsz % 16 = 0)
      · exact hcovers.aligned d hd
    · intro d hd hdfree
      rcases OrdMap.mem_set.mp hd with rfl | ⟨hd, -⟩
      · cases hdfree
      · exact hcovers.used d hd hdfree
  · show Table (ready base (c.state.blocks.set b.start { i with free := true })).entries _
    rw [hset]
    intro q n
    rw [mem_erase_iff h.distinct hb, htable q n]
    -- the other blocks in use stay
    constructor
    · rintro ⟨⟨j, hj, hjfree, hjn⟩, hne⟩
      exact ⟨j, OrdMap.mem_set.mpr (Or.inr ⟨hj, hne⟩), hjfree, hjn⟩
    · rintro ⟨j, hj, hjfree, hjn⟩
      rcases OrdMap.mem_set.mp hj with heq | ⟨hj, hne⟩
      · obtain ⟨-, rfl⟩ := Prod.mk.inj heq
        cases hjfree
      · exact ⟨⟨j, hj, hjfree, hjn⟩, hne⟩

/-- **ONE CALL** keeps the invariant. -/
theorem Inv.step (hbase : 0 < base) {call : Call} (h : Inv base c) (hok : Splits base c call)
    (hc : (derp base).step c call = some c') : Inv base c' := by
  cases call with
  | malloc sz =>
      obtain rfl := Option.some.inj hc
      exact h.malloc hok
  | free b =>
      obtain ⟨hb, s, hs, rfl⟩ := step_free hc
      exact h.free hbase hb hs
  | freeNull =>
      obtain ⟨s, hs, rfl⟩ := step_freeNull hc
      obtain rfl := Option.some.inj (m61Free_null.symm.trans hs)
      exact h

/-! ## Blocks that are used up -/

/-- A block that is used up before the end of the buffer takes the next one's
    entry, and an empty block cannot be cut. -/
theorem full_not_spans {m : OrdMap Nat AllocInfo} (h : Covers base m.entries)
    (hfind : m.entries.find? (fits sz) = some (p, info))
    (hno : ¬ (alignUp sz < info.bsz ∨ alignUp sz = info.bsz ∧ p + info.bsz = base + bufferSize))
    (u r : AllocInfo) (hu : u.bsz = alignUp sz) (hr : alignUp sz = info.bsz → r.bsz = 0) :
    ¬ Spans base ((m.set (p + alignUp sz) r).set p u).entries (base + bufferSize) := by
  intro hspans
  obtain ⟨-, hsz, hmod, hle, before, after, hm, hbefore, hafter, hlt, hgt, hsorted⟩ := h.first hfind
  rcases Nat.eq_zero_or_pos info.bsz with hzero | hpos
  · -- an empty block is at the end
    have hend : p = base + bufferSize := by
      rw [hzero] at hafter
      cases after with
      | nil => exact hafter
      | cons d after => exact absurd hafter.1 (Nat.ne_of_gt (hgt d List.mem_cons_self))
    have hmem : p + u.bsz ≤ base + bufferSize :=
      (hspans.bounds _ (OrdMap.mem_set.mpr (Or.inl rfl))).2
    have hpos := (alignUp_spec (Nat.le_trans hsz hle)).2.2.1
    omega
  · -- the block is full, and another entry is behind it
    have heq : alignUp sz = info.bsz := by
      have := alignUp_le hle hmod hsz hpos
      omega
    have hend : p + info.bsz ≠ base + bufferSize := fun hend => hno (Or.inr ⟨heq, hend⟩)
    cases after with
    | nil => exact hend hafter
    | cons d after =>
        obtain ⟨q, j⟩ := d
        obtain ⟨rfl, hafter⟩ : q = p + info.bsz ∧ Spans (p + info.bsz + j.bsz) after
          (base + bufferSize) := hafter
        -- that entry is written over with an empty block
        have hset : (m.set (p + alignUp sz) r).entries
            = before ++ (p, info) :: (p + info.bsz, r) :: after := by
          have hm' : m.entries = (before ++ [(p, info)]) ++ (p + info.bsz, j) :: after := by
            rw [hm, List.append_cons]
          rw [heq, OrdMap.entries_set_old hm', List.append_assoc]
          rfl
        rw [OrdMap.entries_set_old hset] at hspans
        obtain ⟨q, -, -, hq, hrest⟩ := spans_append.mp hspans
        have hnext : p + info.bsz = q + u.bsz := hq
        have hrest : Spans (q + u.bsz + r.bsz) after (base + bufferSize) := hrest
        rw [← hnext, hr heq, Nat.add_zero] at hrest
        -- nothing covers what it did
        cases after with
        | nil => exact hend hrest
        | cons d after =>
            have hlt := (List.pairwise_cons.mp hsorted).1 d List.mem_cons_self
            exact absurd hrest.1 (Nat.ne_of_gt hlt)

/-- **ONE CALL** that does not split its block breaks the map. -/
theorem not_splits_not_sound {call : Call} (h : Inv base c) (hno : ¬ Splits base c call) :
    ∃ c', (derp base).step c call = some c' ∧ ¬ Sound base c' := by
  cases call with
  | malloc sz =>
      refine ⟨_, rfl, ?_⟩
      obtain ⟨⟨p, info⟩, hno⟩ := not_forall.mp hno
      obtain ⟨hfind, hno⟩ := Classical.not_imp.mp hno
      have hzero : alignUp sz = info.bsz → wrap (info.bsz + (2 ^ 64 - alignUp sz)) = 0 := by
        intro heq
        have hle := (h.covers.first hfind).2.2.2.1
        have hroom : bufferSize < 2 ^ 64 := by decide
        rw [heq, wrap, Nat.add_sub_cancel' (Nat.le_of_lt (Nat.lt_of_le_of_lt hle hroom)),
          Nat.mod_self]
      intro hsound
      rw [grant_some (m61Malloc_some hfind)] at hsound
      rcases hsound.spans with ⟨hempty, -⟩ | ⟨hspans, -⟩
      · exact List.ne_nil_of_mem (OrdMap.mem_set.mpr (Or.inl rfl)) hempty
      · exact full_not_spans h.covers hfind hno _ _ rfl hzero hspans
  | free b => exact absurd trivial hno
  | freeNull => exact absurd trivial hno

/-- **THE MAP COVERS THE BUFFER**, and keeps to the live allocations, along a
    history if and only if every request splits its block or takes the last
    one. -/
theorem tiles_iff (hbase : 0 < base) {calls : List Call} :
    Along (derp base) (Sound base) (derp base).start calls
      ↔ Meets (derp base) (Splits base) (derp base).start calls := by
  constructor
  · exact meets_of_along (fun _ _ _ hI hok hc => Inv.step hbase hI hok hc)
      (fun _ _ hI hno => not_splits_not_sound hI hno) (inv_start base)
  · intro h
    exact (along_of_meets (fun _ _ _ hI hok hc => Inv.step hbase hI hok hc) (inv_start base)
      h).imp fun _ hI => hI.sound

/-- Two allocations, the second one empty. -/
theorem tiles_iff_small :
    Along (derp 0x1000) (Sound 0x1000) (derp 0x1000).start [.malloc 16, .malloc 0] := by
  refine (tiles_iff (by decide)).mpr ⟨?_, fun c hc => ⟨?_, fun _ _ => trivial⟩⟩
  · intro d hd
    obtain rfl := Option.some.inj (hd.symm.trans (rfl : _ = some (0x1000, _)))
    exact Or.inl (by decide)
  · obtain rfl := Option.some.inj hc
    intro d hd
    obtain rfl := Option.some.inj (hd.symm.trans (rfl : _ = some (0x1010, _)))
    exact Or.inl (by decide)

/-- The first of two blocks is freed and used up again. -/
theorem full_not_sound : ¬ Along (derp 0x1000) (Sound 0x1000) (derp 0x1000).start
    [.malloc 16, .malloc 16, .free ⟨0x1000, 16⟩, .malloc 16] := by
  intro h
  have hmeets := (tiles_iff (by decide)).mp h
  obtain ⟨hsplits, -⟩ := ((hmeets.2 _ rfl).2 _ rfl).2 _ rfl
  exact absurd (hsplits (0x1000, { bsz := 16, usz := 16, free := true }) rfl) (by decide)

end Derp
