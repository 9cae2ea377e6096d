import Mathlib.Data.List.Pairwise
import Mathlib.Data.List.Perm.Basic

/-! # Allocators and their clients — histories of calls

    An allocator is a state with `malloc` and `free`; `free` may abort.  A
    client calls them in any order, but frees only what is live, and each
    allocation once.  `Config` carries what the client knows: the allocations
    that are live, and all that were ever granted.

    * `Along` — a property of every configuration that a history goes through;
    * `Meets` — every call of a history is made where a condition holds;
    * `along_of_meets`, `meets_of_along` — from one call to whole histories. -/

namespace AllocRuns

/-! ## Blocks of memory -/

/-- A block that has been granted: where it starts, and how long it is. -/
structure Block where
  start : Nat
  size : Nat
deriving DecidableEq

/-- The byte at `x` belongs to the block. -/
def Block.Has (b : Block) (x : Nat) : Prop := b.start ≤ x ∧ x < b.start + b.size

/-- No byte belongs to both. -/
def Block.Apart (a b : Block) : Prop := ∀ x, a.Has x → ¬ b.Has x

/-- The block lies within a buffer. -/
def Block.Within (lo hi : Nat) (b : Block) : Prop := lo ≤ b.start ∧ b.start + b.size ≤ hi

theorem Block.Apart.symm {a b : Block} (h : a.Apart b) : b.Apart a :=
  fun x hb ha => h x ha hb

/-- A block that ends before another starts. -/
theorem Block.apart_of_le {a b : Block} (h : a.start + a.size ≤ b.start) : a.Apart b := by
  intro x ha hb
  have h1 := ha.2
  have h2 := hb.1
  omega

/-- Two blocks at one place overlap, unless one is empty. -/
theorem Block.not_apart {a b : Block} (hstart : a.start = b.start) (ha : 0 < a.size)
    (hb : 0 < b.size) : ¬ a.Apart b := by
  intro h
  refine h a.start ⟨Nat.le_refl _, by omega⟩ ⟨by omega, by omega⟩

/-! ## Allocators -/

variable {σ : Type}

/-- `malloc` answers an address or nothing; `free` has no state after it when
    an assertion fails. -/
structure Allocator (σ : Type) where
  init : σ
  malloc : Nat → σ → Option Nat × σ
  free : Nat → σ → Option σ

/-- The calls of a client. -/
inductive Call where
  | malloc (size : Nat)
  | free (b : Block)
  | freeNull

/-- The allocator with what its client knows. -/
structure Config (σ : Type) where
  state : σ
  live : List Block
  granted : List Block

/-- `malloc(size)`, whose result the client keeps. -/
def Allocator.grant (A : Allocator σ) (size : Nat) (c : Config σ) : Config σ :=
  match A.malloc size c.state with
  | (none, s) => { c with state := s }
  | (some p, s) =>
      { state := s, live := ⟨p, size⟩ :: c.live, granted := ⟨p, size⟩ :: c.granted }

/-- A call, unless it aborts or the client does not make it. -/
def Allocator.step (A : Allocator σ) (c : Config σ) : Call → Option (Config σ)
  | .malloc size => some (A.grant size c)
  | .free b =>
      if b ∈ c.live then
        (A.free b.start c.state).map fun s => { c with state := s, live := c.live.erase b }
      else none
  | .freeNull => (A.free 0 c.state).map fun s => { c with state := s }

/-- Before the first request: nothing is live. -/
def Allocator.start (A : Allocator σ) : Config σ :=
  { state := A.init, live := [], granted := [] }

variable {A : Allocator σ} {c c' : Config σ} {b : Block} {size : Nat}

/-- A request that is refused leaves no block. -/
theorem grant_none {s : σ} (h : A.malloc size c.state = (none, s)) :
    A.grant size c = { c with state := s } := by
  rw [Allocator.grant, h]

/-- A request that is granted leaves one more. -/
theorem grant_some {p : Nat} {s : σ} (h : A.malloc size c.state = (some p, s)) :
    A.grant size c
      = { state := s, live := ⟨p, size⟩ :: c.live, granted := ⟨p, size⟩ :: c.granted } := by
  rw [Allocator.grant, h]

/-- A live block is freed. -/
theorem step_free_some {s : σ} (hb : b ∈ c.live) (h : A.free b.start c.state = some s) :
    A.step c (.free b) = some { c with state := s, live := c.live.erase b } := by
  rw [Allocator.step, if_pos hb, h]
  rfl

/-- What a `free` that returns does. -/
theorem step_free (h : A.step c (.free b) = some c') :
    b ∈ c.live ∧ ∃ s, A.free b.start c.state = some s
      ∧ c' = { c with state := s, live := c.live.erase b } := by
  rw [Allocator.step] at h
  split at h
  · rename_i hb
    obtain ⟨s, hs, rfl⟩ := Option.map_eq_some_iff.mp h
    exact ⟨hb, s, hs, rfl⟩
  · cases h

/-- A null pointer is freed. -/
theorem step_freeNull (h : A.step c .freeNull = some c') :
    ∃ s, A.free 0 c.state = some s ∧ c' = { c with state := s } := by
  obtain ⟨s, hs, rfl⟩ := Option.map_eq_some_iff.mp h
  exact ⟨s, hs, rfl⟩

/-- A request grants one block at most. -/
theorem length_grant_le : (A.grant size c).live.length ≤ c.live.length + 1 := by
  rw [Allocator.grant]
  split
  · exact Nat.le_succ _
  · exact Nat.le_refl _

/-- A call adds at most one live allocation. -/
theorem length_step_le {call : Call} (h : A.step c call = some c') :
    c'.live.length ≤ c.live.length + 1 := by
  cases call with
  | malloc size =>
      obtain rfl := Option.some.inj h
      exact length_grant_le
  | free b =>
      obtain ⟨-, s, -, rfl⟩ := step_free h
      exact Nat.le_succ_of_le List.length_erase_le
  | freeNull =>
      obtain ⟨s, -, rfl⟩ := step_freeNull h
      exact Nat.le_succ _

/-! ## Histories -/

/-- Where the calls lead, if all of them are made and none aborts. -/
def Allocator.exec (A : Allocator σ) : Config σ → List Call → Option (Config σ)
  | c, [] => some c
  | c, call :: calls => (A.step c call).bind fun c' => A.exec c' calls

/-- `P` holds wherever the calls lead. -/
def Along (A : Allocator σ) (P : Config σ → Prop) : Config σ → List Call → Prop
  | c, [] => P c
  | c, call :: calls => P c ∧ ∀ c', A.step c call = some c' → Along A P c' calls

/-- Every call is made where `Ok` allows it. -/
def Meets (A : Allocator σ) (Ok : Config σ → Call → Prop) : Config σ → List Call → Prop
  | _, [] => True
  | c, call :: calls => Ok c call ∧ ∀ c', A.step c call = some c' → Meets A Ok c' calls

variable {P Q I : Config σ → Prop} {Ok : Config σ → Call → Prop}

/-- What holds along a run holds where it starts. -/
theorem Along.head {calls : List Call} (h : Along A P c calls) : P c := by
  cases calls with
  | nil => exact h
  | cons call calls => exact h.1

theorem Along.imp (hPQ : ∀ c, P c → Q c) {calls : List Call} (h : Along A P c calls) :
    Along A Q c calls := by
  induction calls generalizing c with
  | nil => exact hPQ c h
  | cons call calls ih => exact ⟨hPQ c h.1, fun c' hc' => ih (h.2 c' hc')⟩

/-- What holds along a history holds along its continuations. -/
theorem Along.of_append {calls rest : List Call} (h : Along A P c (calls ++ rest))
    (hc : A.exec c calls = some c') : Along A P c' rest := by
  induction calls generalizing c with
  | nil =>
      obtain rfl := Option.some.inj hc
      exact h
  | cons call calls ih =>
      obtain ⟨c₁, hstep, hrest⟩ := Option.bind_eq_some_iff.mp hc
      exact ih (h.2 c₁ hstep) hrest

/-- Short histories keep few allocations live. -/
theorem meets_length {n : Nat} {calls : List Call} (h : c.live.length + calls.length ≤ n) :
    Meets A (fun c _ => c.live.length < n) c calls := by
  induction calls generalizing c with
  | nil => trivial
  | cons call calls ih =>
      rw [List.length_cons] at h
      refine ⟨by omega, ?_⟩
      intro c' hc'
      have hle := length_step_le hc'
      exact ih (by omega)

/-- **INVARIANT RULE**: what every allowed call keeps holds along every history
    of allowed calls. -/
theorem along_of_meets
    (hstep : ∀ c call c', I c → Ok c call → A.step c call = some c' → I c') (hI : I c)
    {calls : List Call} (h : Meets A Ok c calls) : Along A I c calls := by
  induction calls generalizing c with
  | nil => exact hI
  | cons call calls ih =>
      obtain ⟨hok, hrest⟩ := h
      exact ⟨hI, fun c' hc' => ih (hstep c call c' hI hok hc') (hrest c' hc')⟩

/-- When every call that is not allowed breaks the property, histories that
    keep it consist of allowed calls. -/
theorem meets_of_along
    (hstep : ∀ c call c', I c → Ok c call → A.step c call = some c' → I c')
    (hbreak : ∀ c call, I c → ¬ Ok c call → ∃ c', A.step c call = some c' ∧ ¬ P c')
    (hI : I c) {calls : List Call} (h : Along A P c calls) : Meets A Ok c calls := by
  induction calls generalizing c with
  | nil => trivial
  | cons call calls ih =>
      have hok : Ok c call := by
        by_contra hno
        obtain ⟨c', hc', hP⟩ := hbreak c call hI hno
        exact hP (h.2 c' hc').head
      exact ⟨hok, fun c' hc' => ih (hstep c call c' hI hok hc') (h.2 c' hc')⟩

/-- With distinct addresses, the others are those at other addresses. -/
theorem mem_erase_iff {L : List Block} {d : Block}
    (h : L.Pairwise fun a b => a.start ≠ b.start) (hb : b ∈ L) :
    d ∈ L.erase b ↔ d ∈ L ∧ d.start ≠ b.start := by
  have : Std.Symm fun a b : Block => a.start ≠ b.start := { symm := fun _ _ hne => hne.symm }
  have hnodup : L.Nodup := h.imp fun hne heq => hne (congrArg Block.start heq)
  rw [hnodup.mem_erase_iff]
  constructor
  · rintro ⟨hne, hd⟩
    exact ⟨hd, h.forall hd hb hne⟩
  · rintro ⟨hd, hne⟩
    exact ⟨fun heq => hne (congrArg Block.start heq), hd⟩

/-! ## Allocations that do not overlap -/

/-- No byte belongs to two live allocations, and all are in the buffer. -/
structure Safe (lo hi : Nat) (live : List Block) : Prop where
  apart : live.Pairwise Block.Apart
  within : ∀ b ∈ live, b.Within lo hi

theorem Safe.nil (lo hi : Nat) : Safe lo hi [] :=
  ⟨List.Pairwise.nil, fun _ h => by cases h⟩

/-- A new block that is apart from the live ones. -/
theorem Safe.cons {lo hi : Nat} {live : List Block} (h : Safe lo hi live)
    (hin : b.Within lo hi) (hapart : ∀ a ∈ live, b.Apart a) : Safe lo hi (b :: live) := by
  refine ⟨List.Pairwise.cons hapart h.apart, ?_⟩
  intro a ha
  rcases List.mem_cons.mp ha with rfl | ha
  · exact hin
  · exact h.within a ha

/-- A block less is as safe. -/
theorem Safe.erase {lo hi : Nat} {live : List Block} (h : Safe lo hi live) (b : Block) :
    Safe lo hi (live.erase b) :=
  ⟨h.apart.sublist List.erase_sublist, fun a ha => h.within a (List.mem_of_mem_erase ha)⟩

/-- Of two allocations that overlap one comes first. -/
theorem Safe.not_of_mem {lo hi : Nat} {live : List Block} {a : Block} (ha : a ∈ live)
    (hab : ¬ b.Apart a) : ¬ Safe lo hi (b :: live) :=
  fun h => hab ((List.pairwise_cons.mp h.apart).1 a ha)

end AllocRuns
