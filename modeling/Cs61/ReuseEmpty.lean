import Cs61.HeapBuffer

/-! # `m61-reuseempty` — starting over when nothing is live

    The allocator counts what is live.  When a `free` brings the count to 0,
    `buffer` goes back to the start of the buffer.  `active_count` is an
    `unsigned long long`, so the count is right while fewer than 2^64
    allocations are live (`live_safe`); empty allocations take no space, and
    with 2^64 of them the count is 0 too early (`wrapped_not_sound`). -/

namespace ReuseEmpty

open AllocRuns HeapBuffer

/-- The variables of `m61-reuseempty.cc`. -/
structure State where
  arena : Arena
  gs : Statistics

/-- `m61_malloc(sz)`. -/
def m61Malloc (base sz : Nat) (s : State) : Option Nat × State :=
  match s.arena.take base sz with
  | (none, a) => (none, { s with arena := a })
  | (some ptr, a) => (some ptr, { arena := a, gs := s.gs.add sz })

/-- `m61_free(ptr)`. -/
def m61Free (ptr : Nat) (s : State) : Option State :=
  if ptr = 0 then some s
  else
    let gs := { s.gs with activeCount := wrap (s.gs.activeCount + (2 ^ 64 - 1)) }
    if gs.activeCount = 0 then
      some {
        arena := { s.arena with buffer := s.arena.endBuffer - bufferSize }
        gs := { gs with activeBytes := 0 } }
    else some { s with gs := gs }

/-- The allocator of `m61-reuseempty.cc`. -/
def reuseEmpty (base : Nat) : Allocator State where
  init := { arena := .null, gs := .zero }
  malloc := m61Malloc base
  free := m61Free

variable {base sz : Nat} {s : State} {a : Arena} {c c' : Config State}

/-- A request that the arena refuses. -/
theorem m61Malloc_none (h : s.arena.take base sz = (none, a)) :
    (reuseEmpty base).malloc sz s = (none, { s with arena := a }) := by
  show m61Malloc base sz s = _
  rw [m61Malloc, h]

/-- A request that the arena grants. -/
theorem m61Malloc_some {ptr : Nat} (h : s.arena.take base sz = (some ptr, a)) :
    (reuseEmpty base).malloc sz s = (some ptr, { arena := a, gs := s.gs.add sz }) := by
  show m61Malloc base sz s = _
  rw [m61Malloc, h]

/-- `active_count` gets to 0. -/
theorem m61Free_empty {ptr : Nat} (hptr : ptr ≠ 0)
    (h : wrap (s.gs.activeCount + (2 ^ 64 - 1)) = 0) : (reuseEmpty base).free ptr s = some {
      arena := { s.arena with buffer := s.arena.endBuffer - bufferSize }
      gs := { s.gs with activeCount := 0, activeBytes := 0 } } := by
  show m61Free ptr s = _
  rw [m61Free, if_neg hptr, h]
  exact if_pos rfl

/-- A free that leaves blocks in use. -/
theorem m61Free_other {ptr : Nat} (hptr : ptr ≠ 0)
    (h : wrap (s.gs.activeCount + (2 ^ 64 - 1)) ≠ 0) : (reuseEmpty base).free ptr s = some {
      s with gs := { s.gs with activeCount := wrap (s.gs.activeCount + (2 ^ 64 - 1)) } } := by
  show m61Free ptr s = _
  rw [m61Free, if_neg hptr]
  exact if_neg h

/-- The count is the number of live allocations, as far as it can count. -/
structure Inv (base : Nat) (c : Config State) : Prop where
  fits : Fits base c.state.arena c.live
  count : c.state.gs.activeCount = wrap c.live.length
  empty : c.live = [] → c.state.arena = .null ∨ c.state.arena.buffer = base
  live : c.live ≠ [] → c.state.arena ≠ .null
  start : ∀ b ∈ c.live, b.start ≠ 0

/-- Fewer than 2^64 allocations are live. -/
def Countable (c : Config State) (_ : Call) : Prop := c.live.length < 2 ^ 64

/-- Live allocations do not overlap, and when there are none, any request that
    the buffer can hold succeeds. -/
structure Sound (base : Nat) (c : Config State) : Prop where
  safe : Safe base (base + bufferSize) c.live
  reuse : c.live = [] → ∀ sz, sz ≤ bufferSize → ((reuseEmpty base).malloc sz c.state).1 ≠ none

/-- The invariant holds at the start. -/
theorem inv_start (base : Nat) : Inv base (reuseEmpty base).start :=
  ⟨Fits.null base, (Nat.zero_mod _).symm, fun _ => Or.inl rfl, fun h => absurd rfl h,
    fun _ h => by cases h⟩

/-- The invariant keeps the blocks apart. -/
theorem Inv.sound (hbase : 0 < base) (h : Inv base c) : Sound base c := by
  refine ⟨h.fits.safe, ?_⟩
  intro hnil sz hsz hnone
  have hbuffer : (c.state.arena.ready base).buffer = base := by
    rcases h.empty hnil with h0 | hb
    · rw [h0]
      rfl
    · rw [Arena.ready, if_neg (by omega)]
      exact hb
  rcases take_cases sz hbase h.fits with ⟨-, hlarge⟩ | ⟨a, htake, -⟩
  · rw [hbuffer] at hlarge
    omega
  · rw [m61Malloc_some htake] at hnone
    cases hnone

/-- A request keeps the invariant. -/
theorem Inv.malloc (hbase : 0 < base) (h : Inv base c) (sz : Nat) :
    Inv base ((reuseEmpty base).grant sz c) := by
  rcases take_cases sz hbase h.fits with ⟨htake, -⟩ | ⟨a, htake, hbuf, hfits⟩
  · rw [grant_none (m61Malloc_none htake)]
    have hnn : c.state.arena.ready base ≠ .null := by
      obtain ⟨hlo, -⟩ := ready_spec hbase h.fits.ok
      intro h0
      rw [h0] at hlo
      exact absurd hlo (Nat.not_le.mpr hbase)
    refine ⟨h.fits.ready hbase, h.count, ?_, fun _ => hnn, h.start⟩
    intro hnil
    refine Or.inr ?_
    rcases h.empty hnil with h0 | hb
    · show (c.state.arena.ready base).buffer = base
      rw [h0]
      rfl
    · show (c.state.arena.ready base).buffer = base
      rw [Arena.ready, if_neg (by omega)]
      exact hb
  · obtain ⟨hlo, -⟩ := ready_spec hbase h.fits.ok
    rw [grant_some (m61Malloc_some htake)]
    refine ⟨hfits, ?_, fun hnil => absurd hnil (List.cons_ne_nil _ _), fun _ => ?_, ?_⟩
    · show wrap (c.state.gs.activeCount + 1) = wrap (c.live.length + 1)
      rw [h.count, wrap, wrap, wrap]
      omega
    · intro h0
      have h0' : a = .null := h0
      rw [h0'] at hbuf
      have : (0 : Nat) = (c.state.arena.ready base).buffer + sz := hbuf
      omega
    · intro b hb
      rcases List.mem_cons.mp hb with rfl | hb
      · show (c.state.arena.ready base).buffer ≠ 0
        omega
      · exact h.start b hb

/-- Freeing a live allocation starts over exactly if it was the last one. -/
theorem Inv.free {b : Block} (h : Inv base c) (hcount : Countable c (.free b))
    (hb : b ∈ c.live) (hs : (reuseEmpty base).free b.start c.state = some s) :
    Inv base { c with state := s, live := c.live.erase b } := by
  have hlen := List.length_erase_of_mem hb
  have hpos := List.length_pos_of_mem hb
  have hlive : c.state.arena ≠ .null := h.live (List.ne_nil_of_mem hb)
  have hcnt : wrap (c.state.gs.activeCount + (2 ^ 64 - 1)) = (c.live.erase b).length := by
    have := h.count
    rw [Countable] at hcount
    rw [wrap] at this ⊢
    rw [hlen]
    omega
  obtain ⟨hlo, hhi, hend⟩ := h.fits.ok.resolve_left hlive
  have hbuf : c.state.arena.endBuffer - bufferSize = base := by omega
  by_cases hnil : c.live.erase b = []
  · -- the last live allocation
    rw [hnil, List.length_nil] at hcnt
    rw [m61Free_empty (h.start b hb) hcnt, hbuf] at hs
    obtain rfl := Option.some.inj hs
    rw [hnil]
    refine ⟨⟨Or.inr ⟨Nat.le_refl _, Nat.le_trans hlo hhi, hend⟩, Safe.nil _ _, fun _ h => by cases h⟩,
      (Nat.zero_mod _).symm, fun _ => Or.inr rfl, fun h => absurd rfl h, fun _ h => by cases h⟩
  · have hne : wrap (c.state.gs.activeCount + (2 ^ 64 - 1)) ≠ 0 := by
      rw [hcnt, Ne, List.length_eq_zero_iff]
      exact hnil
    rw [m61Free_other (h.start b hb) hne, hcnt] at hs
    obtain rfl := Option.some.inj hs
    refine ⟨h.fits.erase b, ?_, fun hnil' => absurd hnil' hnil, fun _ => hlive, ?_⟩
    · show (c.live.erase b).length = wrap (c.live.erase b).length
      rw [Countable] at hcount
      rw [wrap]
      omega
    · exact fun a ha => h.start a (List.mem_of_mem_erase ha)

/-- **ONE CALL** keeps the invariant. -/
theorem Inv.step (hbase : 0 < base) {call : Call} (h : Inv base c) (hcount : Countable c call)
    (hc : (reuseEmpty base).step c call = some c') : Inv base c' := by
  cases call with
  | malloc sz =>
      obtain rfl := Option.some.inj hc
      exact h.malloc hbase sz
  | free b =>
      obtain ⟨hb, s, hs, rfl⟩ := step_free hc
      exact h.free hcount hb hs
  | freeNull =>
      obtain ⟨s, hs, rfl⟩ := step_freeNull hc
      obtain rfl : c.state = s := Option.some.inj hs
      exact h

/-- **NO OVERLAP, AND REUSE WHEN EMPTY**: along every history in which fewer
    than 2^64 allocations are live. -/
theorem live_safe (hbase : 0 < base) {calls : List Call}
    (h : Meets (reuseEmpty base) Countable (reuseEmpty base).start calls) :
    Along (reuseEmpty base) (Sound base) (reuseEmpty base).start calls :=
  (along_of_meets (fun _ _ _ hI hok hc => Inv.step hbase hI hok hc) (inv_start base) h).imp
    fun _ hI => hI.sound hbase

/-- Freeing the only allocation, and allocating all of the buffer. -/
theorem live_safe_small : Along (reuseEmpty 0x1000) (Sound 0x1000) (reuseEmpty 0x1000).start
    [.malloc 1000, .free ⟨0x1000, 1000⟩, .malloc bufferSize] :=
  live_safe (by decide) (meets_length (by decide))

/-! ## A count that wraps around -/

theorem malloc_zero (hb : c.state.arena.buffer ≠ 0) :
    (reuseEmpty base).grant 0 c = {
      state := { c.state with gs := c.state.gs.add 0 }
      live := ⟨c.state.arena.buffer, 0⟩ :: c.live
      granted := ⟨c.state.arena.buffer, 0⟩ :: c.granted } := by
  refine grant_some (m61Malloc_some (a := c.state.arena) ?_)
  rw [Arena.take, Arena.ready, if_neg hb]
  rfl

/-- Empty allocations take no space, however many there are. -/
theorem exec_empty (hbase : 0 < base) (h : Inv base c) (hb : c.state.arena.buffer ≠ 0) (n : Nat) :
    ∃ c', (reuseEmpty base).exec c (List.replicate n (.malloc 0)) = some c' ∧ Inv base c'
      ∧ c'.state.arena = c.state.arena
      ∧ c'.live = List.replicate n ⟨c.state.arena.buffer, 0⟩ ++ c.live := by
  induction n generalizing c with
  | zero => exact ⟨c, rfl, h, rfl, rfl⟩
  | succ n ih =>
      have hgrant := @malloc_zero base c hb
      have hinv := h.malloc hbase 0
      rw [hgrant] at hinv
      obtain ⟨c', hexec, hinv', harena, hlive⟩ := ih hinv hb
      refine ⟨c', ?_, hinv', harena, ?_⟩
      · rw [List.replicate_succ, Allocator.exec, Allocator.step, hgrant]
        exact hexec
      · rw [hlive, List.replicate_succ', List.append_assoc]
        rfl

/-- The first allocation, in a buffer that ends at `e`. -/
theorem malloc_first {e sz : Nat} (hbase : 0 < base) (he : base + bufferSize = e)
    (hsz : sz ≤ bufferSize) : (reuseEmpty base).grant sz (reuseEmpty base).start = {
      state := {
        arena := { buffer := base + sz, endBuffer := e }
        gs := Statistics.zero.add sz }
      live := [⟨base, sz⟩], granted := [⟨base, sz⟩] } :=
  grant_some (m61Malloc_some (take_first hbase he hsz))

/-- With 2^64 empty allocations the count is that of the others. -/
theorem not_sound_of_wrap (hbase : 0 < base) {n : Nat} (hn : n % 2 ^ 64 = 0) (hpos : 0 < n) :
    ¬ Along (reuseEmpty base) (Sound base) (reuseEmpty base).start
      (.malloc 1 :: (List.replicate n (.malloc 0) ++ [.free ⟨base + 1, 0⟩, .malloc 1])) := by
  intro h
  obtain ⟨e, he⟩ : ∃ e, base + bufferSize = e := ⟨_, rfl⟩
  have hroom : 1 ≤ bufferSize := by decide
  have hinv := (inv_start base).malloc hbase 1
  have hrest := h.2 _ rfl
  rw [malloc_first hbase he hroom] at hinv hrest
  obtain ⟨c, hexec, hc, harena, hlive⟩ := exec_empty hbase hinv (Nat.succ_ne_zero base) n
  have hmem : (⟨base + 1, 0⟩ : Block) ∈ c.live := by
    rw [hlive]
    exact List.mem_append_left _ (List.mem_replicate.mpr ⟨by omega, rfl⟩)
  -- the count says that this is the last one
  have hcount : wrap (c.state.gs.activeCount + (2 ^ 64 - 1)) = 0 := by
    have := hc.count
    rw [hlive, List.length_append, List.length_replicate, List.length_singleton] at this
    rw [this, wrap, wrap]
    omega
  have hend : c.state.arena.endBuffer = e := congrArg Arena.endBuffer harena
  obtain ⟨gs, hfree⟩ : ∃ gs, (reuseEmpty base).free (base + 1) c.state
      = some { arena := { buffer := base, endBuffer := e }, gs := gs } := by
    have hbuf : e - bufferSize = base := by omega
    have harena' : ({ c.state.arena with buffer := c.state.arena.endBuffer - bufferSize } : Arena)
        = { buffer := base, endBuffer := e } := by
      rw [Arena.mk.injEq]
      exact ⟨hend ▸ hbuf, hend⟩
    refine ⟨{ c.state.gs with activeCount := 0, activeBytes := 0 }, ?_⟩
    rw [← harena']
    exact m61Free_empty (Nat.succ_ne_zero base) hcount
  have hstep := step_free_some hmem hfree
  have hlast := (((hrest.of_append hexec).2 _ hstep).2 _ rfl).safe
  have hagain : Arena.take base 1 { buffer := base, endBuffer := e }
      = (some base, { buffer := base + 1, endBuffer := e }) :=
    take_of_le (Nat.ne_of_gt hbase) (by omega)
  rw [grant_some (m61Malloc_some hagain)] at hlast
  have hold : (⟨base, 1⟩ : Block) ∈ c.live.erase ⟨base + 1, 0⟩ := by
    refine (List.mem_erase_of_ne ?_).mpr ?_
    · intro heq
      exact Nat.one_ne_zero (congrArg Block.size heq)
    · rw [hlive]
      exact List.mem_append_right _ List.mem_cons_self
  exact Safe.not_of_mem hold (Block.not_apart rfl Nat.one_pos Nat.one_pos) hlast

/-- **2^64 EMPTY ALLOCATIONS**: the buffer is given away twice. -/
theorem wrapped_not_sound :
    ¬ Along (reuseEmpty 0x1000) (Sound 0x1000) (reuseEmpty 0x1000).start
      (.malloc 1 :: (List.replicate (2 ^ 64) (.malloc 0) ++ [.free ⟨0x1000 + 1, 0⟩, .malloc 1])) :=
  not_sound_of_wrap (by decide) (Nat.mod_self _) (Nat.two_pow_pos 64)

end ReuseEmpty
