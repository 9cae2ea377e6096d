import Cs61.HeapBuffer

/-! # `m61-lastalloc` — giving back the last allocation

    The allocator remembers where its last allocation is, and moves `buffer`
    back when that address is freed.  An empty allocation has the address of
    the allocation after it, so that the address of the last allocation may
    be freed while that allocation is live (`shared_address_not_safe`).

    * `blocks_safe` — as long as this does not happen, live allocations do not
      overlap;
    * `next_overlaps` — once it does, the next request overlaps. -/

namespace LastAlloc

open AllocRuns HeapBuffer

/-- The variables of `m61-lastalloc.cc`. -/
structure State where
  arena : Arena
  lastAllocation : Nat

/-- `m61_malloc(sz)`. -/
def m61Malloc (base sz : Nat) (s : State) : Option Nat × State :=
  match s.arena.take base sz with
  | (none, a) => (none, { s with arena := a })
  | (some ptr, a) => (some ptr, { arena := a, lastAllocation := ptr })

/-- `m61_free(ptr)`. -/
def m61Free (ptr : Nat) (s : State) : Option State :=
  if ptr ≠ 0 ∧ ptr = s.lastAllocation then
    some { arena := { s.arena with buffer := s.lastAllocation }, lastAllocation := 0 }
  else some s

/-- The allocator of `m61-lastalloc.cc`. -/
def lastAlloc (base : Nat) : Allocator State where
  init := { arena := .null, lastAllocation := 0 }
  malloc := m61Malloc base
  free := m61Free

variable {base sz : Nat} {s : State} {a : Arena} {b : Block} {c c' : Config State}

theorem m61Malloc_none (h : s.arena.take base sz = (none, a)) :
    (lastAlloc base).malloc sz s = (none, { s with arena := a }) := by
  show m61Malloc base sz s = _
  rw [m61Malloc, h]

theorem m61Malloc_some {ptr : Nat} (h : s.arena.take base sz = (some ptr, a)) :
    (lastAlloc base).malloc sz s = (some ptr, { arena := a, lastAllocation := ptr }) := by
  show m61Malloc base sz s = _
  rw [m61Malloc, h]

/-- The address of the last allocation. -/
theorem m61Free_last {ptr : Nat} (hptr : ptr ≠ 0) (h : ptr = s.lastAllocation) :
    (lastAlloc base).free ptr s
      = some { arena := { s.arena with buffer := ptr }, lastAllocation := 0 } := by
  subst h
  exact if_pos ⟨hptr, rfl⟩

theorem m61Free_other {ptr : Nat} (h : ptr ≠ s.lastAllocation) :
    (lastAlloc base).free ptr s = some s :=
  if_neg fun h' => h h'.2

theorem m61Free_null : (lastAlloc base).free 0 s = some s := by
  show m61Free 0 s = some s
  rw [m61Free]
  exact if_neg fun h => h.1 rfl

/-! ## The invariant -/

/-- The last allocation is the last one: the others are behind it, or at the
    same address. -/
structure Inv (base : Nat) (c : Config State) : Prop where
  fits : Fits base c.state.arena c.live
  start : ∀ b ∈ c.live, b.start ≠ 0
  last : c.state.lastAllocation ≠ 0 →
    base ≤ c.state.lastAllocation ∧ c.state.lastAllocation ≤ c.state.arena.buffer
      ∧ ∀ b ∈ c.live, b.start = c.state.lastAllocation
          ∨ b.start + b.size ≤ c.state.lastAllocation

/-- When the address of the last allocation is freed, no other live allocation
    has bytes there. -/
def Unshared (c : Config State) : Call → Prop
  | .free b => b ∈ c.live → b.start = c.state.lastAllocation →
      ∀ a ∈ c.live.erase b, a.start = b.start → a.size = 0
  | _ => True

theorem inv_start (base : Nat) : Inv base (lastAlloc base).start :=
  ⟨Fits.null base, fun _ h => (by cases h), fun h => absurd rfl h⟩

/-- A request keeps the invariant. -/
theorem Inv.malloc (hbase : 0 < base) (h : Inv base c) (sz : Nat) :
    Inv base ((lastAlloc base).grant sz c) := by
  obtain ⟨hlo, -, -, hle⟩ := ready_spec hbase h.fits.ok
  rcases take_cases sz hbase h.fits with ⟨htake, -⟩ | ⟨a, htake, hbuf, hfits⟩
  · rw [grant_none (m61Malloc_none htake)]
    refine ⟨h.fits.ready hbase, h.start, ?_⟩
    intro hlast
    obtain ⟨hge, hle', hothers⟩ := h.last hlast
    exact ⟨hge, Nat.le_trans hle' hle, hothers⟩
  · rw [grant_some (m61Malloc_some htake)]
    refine ⟨hfits, ?_, ?_⟩
    · intro b hb
      rcases List.mem_cons.mp hb with rfl | hb
      · exact Nat.ne_of_gt (Nat.lt_of_lt_of_le hbase hlo)
      · exact h.start b hb
    · intro _
      refine ⟨hlo, hbuf ▸ Nat.le_add_right _ _, ?_⟩
      intro b hb
      rcases List.mem_cons.mp hb with rfl | hb
      · exact Or.inl rfl
      · exact Or.inr ((h.fits.ready hbase).behind b hb)

/-- The arena when the last allocation at `p` is given back. -/
theorem fits_back {a : Arena} {live : List Block} {p : Nat} (h : Fits base a live) (hp : p ≠ 0)
    (hlo : base ≤ p) (hle : p ≤ a.buffer) (hbehind : ∀ b ∈ live, b.start + b.size ≤ p) :
    Fits base { a with buffer := p } live := by
  refine ⟨?_, h.safe, hbehind⟩
  rcases h.ok with rfl | ⟨-, hhi, hend⟩
  · exact absurd (Nat.le_zero.mp hle) hp
  · exact Or.inr ⟨hlo, Nat.le_trans hle hhi, hend⟩

/-- A `free` keeps the invariant, if no other live allocation has bytes at the
    address. -/
theorem Inv.free (h : Inv base c) (hok : Unshared c (.free b)) (hb : b ∈ c.live)
    (hs : (lastAlloc base).free b.start c.state = some s) :
    Inv base { c with state := s, live := c.live.erase b } := by
  have hstart : ∀ a ∈ c.live.erase b, a.start ≠ 0 :=
    fun a ha => h.start a (List.mem_of_mem_erase ha)
  by_cases hlast : b.start = c.state.lastAllocation
  · have hne := h.start b hb
    obtain ⟨hlo, hle, hothers⟩ := h.last (hlast ▸ hne)
    rw [m61Free_last hne hlast] at hs
    obtain rfl := Option.some.inj hs
    rw [← hlast] at hlo hle hothers
    refine ⟨fits_back (h.fits.erase b) hne hlo hle ?_, hstart, fun h0 => absurd rfl h0⟩
    intro a ha
    rcases hothers a (List.mem_of_mem_erase ha) with heq | hbehind
    · -- an empty allocation at the same address
      rw [hok hb hlast a ha heq, heq]
      exact Nat.le_refl _
    · exact hbehind
  · rw [m61Free_other hlast] at hs
    obtain rfl := Option.some.inj hs
    refine ⟨h.fits.erase b, hstart, ?_⟩
    intro hne
    obtain ⟨hlo, hle, hothers⟩ := h.last hne
    exact ⟨hlo, hle, fun a ha => hothers a (List.mem_of_mem_erase ha)⟩

/-- **ONE CALL** keeps the invariant. -/
theorem Inv.step (hbase : 0 < base) {call : Call} (h : Inv base c) (hok : Unshared c call)
    (hc : (lastAlloc base).step c call = some c') : Inv base c' := by
  cases call with
  | malloc sz =>
      obtain rfl := Option.some.inj hc
      exact h.malloc hbase sz
  | free b =>
      obtain ⟨hb, s, hs, rfl⟩ := step_free hc
      exact h.free hok hb hs
  | freeNull =>
      obtain ⟨s, hs, rfl⟩ := step_freeNull hc
      obtain rfl := Option.some.inj (m61Free_null.symm.trans hs)
      exact h

/-- **NO OVERLAP**, along every history in which an address is given back only
    when no other live allocation has bytes there. -/
theorem blocks_safe (hbase : 0 < base) {calls : List Call}
    (h : Meets (lastAlloc base) Unshared (lastAlloc base).start calls) :
    Along (lastAlloc base) (fun c => Safe base (base + bufferSize) c.live)
      (lastAlloc base).start calls :=
  (along_of_meets (fun _ _ _ hI hok hc => Inv.step hbase hI hok hc) (inv_start base) h).imp
    fun _ hI => hI.fits.safe

/-- The last allocation is given back. -/
theorem blocks_safe_small :
    Along (lastAlloc 0x1000) (fun c => Safe 0x1000 (0x1000 + bufferSize) c.live)
      (lastAlloc 0x1000).start [.malloc 10, .malloc 20, .free ⟨0x100a, 20⟩, .malloc 30] := by
  refine blocks_safe (by decide) ⟨trivial, ?_⟩
  intro c hc
  obtain rfl := Option.some.inj hc
  refine ⟨trivial, ?_⟩
  intro c hc
  obtain rfl := Option.some.inj hc
  refine ⟨?_, fun c _ => ⟨trivial, fun c _ => trivial⟩⟩
  intro _ _ a ha heq
  obtain rfl : a = ⟨0x1000, 10⟩ := List.mem_singleton.mp ha
  cases heq

/-! ## An address that is given back too early -/

/-- The bytes of another live allocation are the next that are given away. -/
theorem next_overlaps (h : Inv base c) (hno : ¬ Unshared c (.free b)) :
    ∃ c', (lastAlloc base).step c (.free b) = some c'
      ∧ ¬ Safe base (base + bufferSize) ((lastAlloc base).grant 1 c').live := by
  obtain ⟨hb, hlast, a, ha, heq, hsize⟩ : b ∈ c.live ∧ b.start = c.state.lastAllocation
      ∧ ∃ a ∈ c.live.erase b, a.start = b.start ∧ a.size ≠ 0 := by
    simpa [Unshared] using hno
  have hne := h.start b hb
  refine ⟨_, step_free_some hb (m61Free_last hne hlast), ?_⟩
  obtain ⟨-, hin⟩ := h.fits.safe.within a (List.mem_of_mem_erase ha)
  obtain ⟨hlo, hle, -⟩ := h.last (hlast ▸ hne)
  rw [← hlast] at hlo hle
  have hend : c.state.arena.endBuffer = base + bufferSize := by
    rcases h.fits.ok with h0 | ⟨-, -, hend⟩
    · rw [h0] at hle
      exact absurd (Nat.le_zero.mp hle) hne
    · exact hend
  have htake : Arena.take base 1 { c.state.arena with buffer := b.start }
      = (some b.start, { c.state.arena with buffer := b.start + 1 }) :=
    take_of_le hne (by omega)
  rw [grant_some (m61Malloc_some htake)]
  exact Safe.not_of_mem ha (Block.not_apart heq.symm Nat.one_pos (Nat.pos_of_ne_zero hsize))

/-- The two allocations that share an address, and what follows. -/
theorem shared_not_safe (hbase : 0 < base) :
    ¬ Along (lastAlloc base) (fun c => Safe base (base + bufferSize) c.live)
      (lastAlloc base).start
      [.malloc 0, .malloc 10, .free ⟨base, 0⟩, .malloc 1] := by
  intro h
  obtain ⟨e, he⟩ : ∃ e, base + bufferSize = e := ⟨_, rfl⟩
  have hsize : 10 ≤ bufferSize := by decide
  have hinv := ((inv_start base).malloc hbase 0).malloc hbase 10
  have hrest := (h.2 _ rfl).2 _ rfl
  have hfirst : Arena.take base 0 .null = (some base, { buffer := base, endBuffer := e }) :=
    take_first hbase he (Nat.zero_le _)
  have hsecond : Arena.take base 10 { buffer := base, endBuffer := e }
      = (some base, { buffer := base + 10, endBuffer := e }) :=
    take_of_le (Nat.ne_of_gt hbase) (by omega)
  rw [grant_some (c := (lastAlloc base).start) (m61Malloc_some hfirst)] at hinv hrest
  rw [grant_some (m61Malloc_some hsecond)] at hinv hrest
  obtain ⟨c', hstep, hoverlap⟩ : ∃ c', (lastAlloc base).step _ (.free ⟨base, 0⟩) = some c' ∧ _ := by
    refine next_overlaps hinv ?_
    intro hok
    have hten : (10 : Nat) = 0 := hok (by simp) rfl ⟨base, 10⟩ (by simp) rfl
    omega
  exact hoverlap ((hrest.2 c' hstep).2 _ rfl).head

/-- An empty allocation is freed while the next allocation is live. -/
theorem shared_address_not_safe :
    ¬ Along (lastAlloc 0x1000) (fun c => Safe 0x1000 (0x1000 + bufferSize) c.live)
      (lastAlloc 0x1000).start
      [.malloc 0, .malloc 10, .free ⟨0x1000, 0⟩, .malloc 1] :=
  shared_not_safe (by decide)

end LastAlloc
