import Mathlib.Algebra.Order.BigOperators.Group.List
import Mathlib.Algebra.Order.Group.Nat
import Cs61.HeapBuffer
import Cs61.OrderedMaps

/-! # `m61-staff` — statistics and a table of active allocations

    The allocator never reuses memory, counts what it grants and keeps a map
    from addresses to sizes.  An empty allocation does not move `buffer`; if
    it is live when the next allocation comes, both have the same address and
    the map keeps the entry of the first (`shared_not_sound`).

    * `counts` — as long as this does not happen, and 2^64 allocations are
      not reached, the statistics and the map are those of the history;
    * `second_free_aborts` — once it does, the second `free` aborts. -/

namespace Staff

open AllocRuns HeapBuffer OrderedMaps

/-- The variables of `m61-staff.cc`. -/
structure State where
  arena : Arena
  gs : Statistics
  activeAllocs : OrdMap Nat Nat

/-- `m61_malloc(sz)`. -/
def m61Malloc (base sz : Nat) (s : State) : Option Nat × State :=
  match s.arena.take base sz with
  | (none, a) => (none, { s with arena := a })
  | (some ptr, a) =>
      (some ptr, { arena := a, gs := s.gs.add sz, activeAllocs := s.activeAllocs.insert ptr sz })

/-- Without a state after it when the assertion fails. -/
def m61Free (ptr : Nat) (s : State) : Option State :=
  if ptr = 0 then some s
  else (s.activeAllocs.find? ptr).map fun sz =>
    { s with gs := s.gs.sub sz, activeAllocs := s.activeAllocs.erase ptr }

/-- `m61_get_statistics()`. -/
def m61GetStatistics (s : State) : Statistics := s.gs

/-- The allocator of `m61-staff.cc`. -/
def staff (base : Nat) : Allocator State where
  init := { arena := .null, gs := .zero, activeAllocs := .empty }
  malloc := m61Malloc base
  free := m61Free

variable {base sz ptr : Nat} {s : State} {a : Arena} {b : Block} {c c' : Config State}

/-- A request that the arena refuses. -/
theorem m61Malloc_none (h : s.arena.take base sz = (none, a)) :
    (staff base).malloc sz s = (none, { s with arena := a }) := by
  show m61Malloc base sz s = _
  rw [m61Malloc, h]

/-- A request that the arena grants. -/
theorem m61Malloc_some (h : s.arena.take base sz = (some ptr, a)) :
    (staff base).malloc sz s = (some ptr,
      { arena := a, gs := s.gs.add sz, activeAllocs := s.activeAllocs.insert ptr sz }) := by
  show m61Malloc base sz s = _
  rw [m61Malloc, h]

/-- Nothing is done for a null pointer. -/
theorem m61Free_null : (staff base).free 0 s = some s := rfl

/-- A free of a block in use. -/
theorem m61Free_some (hptr : ptr ≠ 0) (h : s.activeAllocs.find? ptr = some sz) :
    (staff base).free ptr s
      = some { s with gs := s.gs.sub sz, activeAllocs := s.activeAllocs.erase ptr } := by
  show m61Free ptr s = _
  rw [m61Free, if_neg hptr, h]
  rfl

/-- A free of anything else fails. -/
theorem m61Free_none (hptr : ptr ≠ 0) (h : s.activeAllocs.find? ptr = none) :
    (staff base).free ptr s = none := by
  show m61Free ptr s = _
  rw [m61Free, if_neg hptr, h]
  rfl

/-! ## The invariant -/

/-- The bytes of some allocations. -/
def bytes (L : List Block) : Nat := (L.map Block.size).sum

/-- The statistics are the numbers of the history, the map has the live
    allocations, and the allocations fill the buffer up to `buffer`. -/
structure Inv (base : Nat) (c : Config State) : Prop where
  fits : Fits base c.state.arena c.live
  filled : base + bytes c.granted = (c.state.arena.ready base).buffer
  few : c.granted.length < 2 ^ 64
  sub : c.live.Sublist c.granted
  start : ∀ b ∈ c.live, b.start ≠ 0
  distinct : c.live.Pairwise fun a b => a.start ≠ b.start
  table : ∀ p n, (p, n) ∈ c.state.activeAllocs.entries ↔ ⟨p, n⟩ ∈ c.live
  totalCount : c.state.gs.totalCount = c.granted.length
  totalBytes : c.state.gs.totalBytes = bytes c.granted
  activeCount : c.state.gs.activeCount = c.live.length
  activeBytes : c.state.gs.activeBytes = bytes c.live

/-- A request that fits finds no live allocation at the address it gets, and
    is not the 2^64th. -/
def Unshared (base : Nat) (c : Config State) : Call → Prop
  | .malloc sz => (c.state.arena.ready base).buffer + sz ≤ base + bufferSize →
      c.granted.length + 1 < 2 ^ 64 ∧ ∀ b ∈ c.live, b.start ≠ (c.state.arena.ready base).buffer
  | _ => True

/-- What the statistics and `m61_free` must do. -/
structure Sound (base : Nat) (c : Config State) : Prop where
  stats : m61GetStatistics c.state = {
    totalCount := c.granted.length, totalBytes := bytes c.granted
    activeCount := c.live.length, activeBytes := bytes c.live }
  freeLive : ∀ b ∈ c.live, (staff base).free b.start c.state ≠ none
  freeNull : (staff base).free 0 c.state = some c.state
  freeOther : ∀ ptr, ptr ≠ 0 → (∀ b ∈ c.live, b.start ≠ ptr) →
    (staff base).free ptr c.state = none

theorem bytes_cons (b : Block) (L : List Block) : bytes (b :: L) = b.size + bytes L := rfl

theorem bytes_erase {L : List Block} (h : b ∈ L) : b.size + bytes (L.erase b) = bytes L :=
  List.sum_map_erase Block.size h

theorem bytes_sublist {L L' : List Block} (h : L.Sublist L') : bytes L ≤ bytes L' :=
  (h.map Block.size).sum_le_sum (fun _ _ => Nat.zero_le _)

/-- The invariant holds at the start. -/
theorem inv_start (base : Nat) : Inv base (staff base).start where
  fits := Fits.null base
  filled := rfl
  few := Nat.two_pow_pos 64
  sub := List.Sublist.refl _
  start := fun _ h => by cases h
  distinct := List.Pairwise.nil
  table := fun _ _ => ⟨fun h => (by cases h), fun h => (by cases h)⟩
  totalCount := rfl
  totalBytes := rfl
  activeCount := rfl
  activeBytes := rfl

/-- The blocks in use fit into memory. -/
theorem Inv.bytes_lt (hbase : 0 < base) (h : Inv base c) : bytes c.granted < 2 ^ 64 := by
  have hroom : bufferSize < 2 ^ 64 := by decide
  have hfilled := h.filled
  obtain ⟨-, hle, hend, -⟩ := ready_spec hbase h.fits.ok
  omega

/-- What the map answers for a live allocation. -/
theorem Inv.find_live (h : Inv base c) (hb : b ∈ c.live) :
    c.state.activeAllocs.find? b.start = some b.size :=
  OrdMap.find?_eq_some.mpr ((h.table b.start b.size).mpr hb)

/-- And for any other address. -/
theorem Inv.find_other (h : Inv base c) (hptr : ∀ b ∈ c.live, b.start ≠ ptr) :
    c.state.activeAllocs.find? ptr = none := by
  rw [OrdMap.find?_eq_none]
  intro e he heq
  exact hptr ⟨e.1, e.2⟩ ((h.table e.1 e.2).mp he) heq

/-- With the invariant, the statistics are right. -/
theorem Inv.sound (h : Inv base c) : Sound base c := by
  refine ⟨?_, ?_, rfl, ?_⟩
  · show c.state.gs = _
    rw [← h.totalCount, ← h.totalBytes, ← h.activeCount, ← h.activeBytes]
  · intro b hb
    rw [m61Free_some (h.start b hb) (h.find_live hb)]
    exact Option.some_ne_none _
  · intro ptr hptr hother
    exact m61Free_none hptr (h.find_other hother)

/-- A request keeps the invariant. -/
theorem Inv.malloc (hbase : 0 < base) (h : Inv base c) (hok : Unshared base c (.malloc sz)) :
    Inv base ((staff base).grant sz c) := by
  have hroom : bufferSize < 2 ^ 64 := by decide
  -- by whether the arena grants the request
  rcases take_cases sz hbase h.fits with ⟨htake, -⟩ | ⟨a, htake, hbuf, hfits⟩
  · rw [grant_none (m61Malloc_none htake)]
    refine { h with fits := h.fits.ready hbase, filled := ?_ }
    show base + bytes c.granted = ((c.state.arena.ready base).ready base).buffer
    rw [ready_ready hbase]
    exact h.filled
  · rw [grant_some (m61Malloc_some htake)]
    have hfilled := h.filled
    obtain ⟨hlo, -, -, -⟩ := ready_spec hbase h.fits.ok
    generalize hp : (c.state.arena.ready base).buffer = p at *
    have hpos : p ≠ 0 := Nat.ne_of_gt (Nat.lt_of_lt_of_le hbase hlo)
    have hin : p + sz ≤ base + bufferSize := (hfits.safe.within _ List.mem_cons_self).2
    obtain ⟨hfew, hother⟩ := hok (hp ▸ hin)
    rw [hp] at hother
    constructor
    case fits => exact hfits
    case filled =>
      show base + bytes (⟨p, sz⟩ :: c.granted) = (a.ready base).buffer
      rw [ready_of_ne (by omega), hbuf, bytes_cons, ← hfilled]
      show base + (sz + bytes c.granted) = _
      omega
    case few => exact hfew
    case sub => exact h.sub.cons_cons _
    case start =>
      intro b hb
      rcases List.mem_cons.mp hb with rfl | hb
      · exact hpos
      · exact h.start b hb
    -- the new pointer is at no block in use
    case distinct => exact List.Pairwise.cons (fun b hb => Ne.symm (hother b hb)) h.distinct
    -- no entry of the table has it as its key
    case table =>
      intro q n
      rw [OrdMap.insert_of_none (h.find_other hother), OrdMap.mem_set, h.table, List.mem_cons,
        Prod.mk.injEq, Block.mk.injEq]
      refine or_congr_right ⟨And.left, fun hq => ⟨hq, ?_⟩⟩
      exact hother _ hq
    case totalCount =>
      show wrap (c.state.gs.totalCount + 1) = c.granted.length + 1
      rw [h.totalCount]
      exact Nat.mod_eq_of_lt hfew
    case totalBytes =>
      show wrap (c.state.gs.totalBytes + sz) = bytes (⟨p, sz⟩ :: c.granted)
      rw [h.totalBytes, bytes_cons, Nat.add_comm]
      exact Nat.mod_eq_of_lt (show sz + bytes c.granted < 2 ^ 64 by omega)
    case activeCount =>
      show wrap (c.state.gs.activeCount + 1) = c.live.length + 1
      rw [h.activeCount]
      exact Nat.mod_eq_of_lt (Nat.lt_of_le_of_lt (Nat.succ_le_succ h.sub.length_le) hfew)
    case activeBytes =>
      have hle := bytes_sublist h.sub
      show wrap (c.state.gs.activeBytes + sz) = bytes (⟨p, sz⟩ :: c.live)
      rw [h.activeBytes, bytes_cons, Nat.add_comm]
      exact Nat.mod_eq_of_lt (show sz + bytes c.live < 2 ^ 64 by omega)

/-- A `free` keeps the invariant. -/
theorem Inv.free (hbase : 0 < base) (h : Inv base c) (hb : b ∈ c.live)
    (hs : (staff base).free b.start c.state = some s) :
    Inv base { c with state := s, live := c.live.erase b } := by
  obtain ⟨harena, hgs, htable⟩ : s.arena = c.state.arena ∧ s.gs = c.state.gs.sub b.size
      ∧ s.activeAllocs = c.state.activeAllocs.erase b.start := by
    rw [m61Free_some (h.start b hb) (h.find_live hb)] at hs
    obtain rfl := Option.some.inj hs
    exact ⟨rfl, rfl, rfl⟩
  have hlen := List.length_erase_add_one hb
  have hle := h.sub.length_le
  have hfew := h.few
  -- the free erases one entry, and the statistics lose its size
  have hsub : (c.live.erase b).Sublist c.live := List.erase_sublist
  constructor
  case fits =>
    show Fits base s.arena (c.live.erase b)
    rw [harena]
    exact h.fits.erase b
  case filled =>
    show base + bytes c.granted = (s.arena.ready base).buffer
    rw [harena]
    exact h.filled
  case few => exact hfew
  case sub => exact hsub.trans h.sub
  case start => exact fun a ha => h.start a (List.mem_of_mem_erase ha)
  case distinct => exact h.distinct.sublist hsub
  case table =>
    intro q n
    show (q, n) ∈ s.activeAllocs.entries ↔ _
    rw [htable, OrdMap.mem_erase, h.table]
    exact (mem_erase_iff h.distinct hb).symm
  case totalCount =>
    show s.gs.totalCount = c.granted.length
    rw [hgs, Statistics.totalCount_sub]
    exact h.totalCount
  case totalBytes =>
    show s.gs.totalBytes = bytes c.granted
    rw [hgs, Statistics.totalBytes_sub]
    exact h.totalBytes
  case activeCount =>
    have hlt : (c.live.erase b).length < 2 ^ 64 := by omega
    show s.gs.activeCount = (c.live.erase b).length
    rw [hgs]
    exact Statistics.activeCount_sub (h.activeCount.trans hlen.symm) hlt
  case activeBytes =>
    show s.gs.activeBytes = bytes (c.live.erase b)
    rw [hgs]
    refine Statistics.activeBytes_sub (h.activeBytes.trans (bytes_erase hb).symm) ?_
    rw [bytes_erase hb]
    exact Nat.lt_of_le_of_lt (bytes_sublist h.sub) (h.bytes_lt hbase)

/-- **ONE CALL** keeps the invariant. -/
theorem Inv.step (hbase : 0 < base) {call : Call} (h : Inv base c) (hok : Unshared base c call)
    (hc : (staff base).step c call = some c') : Inv base c' := by
  cases call with
  | malloc sz =>
      obtain rfl := Option.some.inj hc
      exact h.malloc hbase hok
  | free b =>
      obtain ⟨hb, s, hs, rfl⟩ := step_free hc
      exact h.free hbase hb hs
  | freeNull =>
      obtain ⟨s, hs, rfl⟩ := step_freeNull hc
      obtain rfl := Option.some.inj (m61Free_null.symm.trans hs)
      exact h

/-- **THE STATISTICS AND THE TABLE**, along every history in which no address
    is given away while it is live. -/
theorem counts (hbase : 0 < base) {calls : List Call}
    (h : Meets (staff base) (Unshared base) (staff base).start calls) :
    Along (staff base) (Sound base) (staff base).start calls :=
  (along_of_meets (fun _ _ _ hI hok hc => Inv.step hbase hI hok hc) (inv_start base) h).imp
    fun _ hI => hI.sound

/-- An empty allocation that comes last. -/
theorem counts_small : Along (staff 0x1000) (Sound 0x1000) (staff 0x1000).start
    [.malloc 16, .malloc 0, .free ⟨0x1000, 16⟩, .freeNull] := by
  refine counts (by decide) ⟨fun _ => ⟨by decide, fun _ h => by cases h⟩, ?_⟩
  intro c hc
  obtain rfl := Option.some.inj hc
  refine ⟨fun _ => ⟨by decide, by decide⟩, ?_⟩
  intro c _
  exact ⟨trivial, fun c _ => ⟨trivial, fun c _ => trivial⟩⟩

/-! ## An address that is given away twice -/

/-- The table has one entry for both allocations. -/
theorem second_free_aborts (hbase : 0 < base) (h : Inv base c) (hb : b ∈ c.live)
    (hshared : b.start = (c.state.arena.ready base).buffer)
    (hroom : (c.state.arena.ready base).buffer + sz ≤ base + bufferSize) :
    ∃ c', (staff base).step ((staff base).grant sz c) (.free b) = some c' ∧ ¬ Sound base c' := by
  have hpos := h.start b hb
  rcases take_cases sz hbase h.fits with ⟨-, hlarge⟩ | ⟨a, htake, -, -⟩
  · exact absurd hroom (Nat.not_le.mpr hlarge)
  rw [← hshared] at htake
  have hkeep := OrdMap.insert_of_some (v := sz) (h.find_live hb)
  rw [grant_some (m61Malloc_some htake), hkeep]
  refine ⟨_, step_free_some (List.mem_cons_of_mem _ hb) (m61Free_some hpos (h.find_live hb)), ?_⟩
  -- one of the two is still live
  obtain ⟨d, hd, hstart⟩ : ∃ d ∈ ((⟨b.start, sz⟩ : Block) :: c.live).erase b,
      d.start = b.start := by
    by_cases heq : (⟨b.start, sz⟩ : Block) = b
    · rw [heq, List.erase_cons_head]
      exact ⟨b, hb, rfl⟩
    · rw [List.erase_cons_tail (by simpa using heq)]
      exact ⟨_, List.mem_cons_self, rfl⟩
  have hgone : (c.state.activeAllocs.erase b.start).find? b.start = none := by
    rw [OrdMap.find?_eq_none]
    exact fun e he => (OrdMap.mem_erase.mp he).2
  intro hsound
  refine hsound.freeLive d hd ?_
  rw [hstart]
  exact m61Free_none hpos hgone

/-- Two empty allocations. -/
theorem shared_not_sound : ¬ Along (staff 0x1000) (Sound 0x1000) (staff 0x1000).start
    [.malloc 0, .malloc 0, .free ⟨0x1000, 0⟩] := by
  intro h
  have hok : Unshared 0x1000 (staff 0x1000).start (.malloc 0) :=
    fun _ => ⟨by decide, fun _ h => by cases h⟩
  have hinv := (inv_start 0x1000).malloc (by decide) hok
  have hrest := (h.2 _ rfl).2 _ rfl
  obtain ⟨c', hstep, hno⟩ : ∃ c', (staff 0x1000).step _ (.free ⟨0x1000, 0⟩) = some c'
      ∧ ¬ Sound 0x1000 c' :=
    @second_free_aborts 0x1000 0 _ _ (by decide) hinv (by decide) (by decide) (by decide)
  exact hno (hrest.2 c' hstep).head

end Staff
