import Cs61.CStrings
import Cs61.LoopRules

/-! # `strstr`

    One loop with two indices: `i` is where the needle may start, `j` how much
    of it has matched there.  A mismatch goes on at `i + 1`, so nothing is
    skipped, and `hs[i]` is the terminator only if nothing has matched
    (`body_step`). -/

namespace Strstr

open LoopRules CString

/-! ## The function -/

/-- `i` and `j`; they are at most the lengths of the strings. -/
structure Indices where
  i : Nat
  j : Nat

/-- One pass of the loop; the result is an index into `hs`, or null. -/
def pass (hs ns : CString) (x : Indices) : Except Overrun (Turn Indices (Option Nat)) := do
  let more ← do
    if (← hs.byte x.i) ≠ 0 then pure (decide ((← ns.byte x.j) ≠ 0)) else pure false
  if more then
    if (← hs.byte (x.i + x.j)) = (← ns.byte x.j) then pure (.again ⟨x.i, x.j + 1⟩)
    else pure (.again ⟨x.i + 1, 0⟩)
  else if (← ns.byte x.j) = 0 then pure (.leave (some x.i))
  else pure (.leave none)

/-- The loop ends at a read behind a terminator. -/
def body (hs ns : CString) (x : Indices) : Turn Indices (Except Overrun (Option Nat)) :=
  match pass hs ns x with
  | .error e => .leave (.error e)
  | .ok (.again x') => .again x'
  | .ok (.leave r) => .leave (.ok r)

/-- `strstr(hs, ns)`. -/
def strstr (hs ns : CString) (budget : Nat) : Option (Except Overrun (Option Nat)) :=
  run (body hs ns) budget ⟨0, 0⟩

/-! ## Occurrences -/

/-- The needle is found at `i`. -/
def OccursAt (ns hs : CString) (i : Nat) : Prop :=
  i ≤ hs.bytes.length ∧ ns.bytes <+: hs.bytes.drop i

/-- The leftmost occurrence, or null if there is none. -/
def Leftmost (hs ns : CString) : Option Nat → Prop
  | some i => OccursAt ns hs i ∧ ∀ k, k < i → ¬ OccursAt ns hs k
  | none => ∀ k, ¬ OccursAt ns hs k

/-- What holds before each pass: no occurrence starts before `i`, and the first
    `j` bytes of the needle match at `i`. -/
structure Matched (hs ns : CString) (x : Indices) (found rest todo : List UInt8) : Prop where
  start : x.i ≤ hs.bytes.length
  first : ∀ k, k < x.i → ¬ OccursAt ns hs k
  haystack : hs.bytes.drop x.i = found ++ rest
  needle : ns.bytes = found ++ todo
  count : found.length = x.j

variable {hs ns : CString} {x : Indices} {found rest todo : List UInt8}

/-- What the loop reads at the three indices. -/
theorem Matched.reads (h : Matched hs ns x found rest todo) :
    hs.byte x.i = .ok ((found ++ rest).headD 0) ∧ ns.byte x.j = .ok (todo.headD 0)
      ∧ hs.byte (x.i + x.j) = .ok (rest.headD 0) := by
  have hlen := congrArg List.length h.haystack
  have hstart := h.start
  rw [List.length_drop, List.length_append, h.count] at hlen
  refine ⟨byte_drop h.haystack h.start, byte_drop ?_ ?_, byte_drop ?_ (by omega)⟩
  · rw [h.needle, ← h.count, List.drop_left]
  · rw [h.needle, List.length_append, h.count]
    exact Nat.le_add_right _ _
  · rw [← List.drop_drop, h.haystack, ← h.count, List.drop_left]

/-- Whether the needle is at `i` depends on what has not been compared. -/
theorem Matched.occurs_iff (h : Matched hs ns x found rest todo) :
    OccursAt ns hs x.i ↔ todo <+: rest := by
  rw [OccursAt, h.haystack, h.needle, List.prefix_append_right_inj]
  exact and_iff_right h.start

/-- No occurrence starts at `i`. -/
theorem Matched.mismatch (h : Matched hs ns x found rest todo) (hne : found ++ rest ≠ [])
    (hno : ¬ todo <+: rest) : Matched hs ns ⟨x.i + 1, 0⟩ [] (hs.bytes.drop (x.i + 1)) ns.bytes where
  start := by
    have hlt : x.i < hs.bytes.length := by
      rw [← h.haystack, Ne, List.drop_eq_nil_iff] at hne
      omega
    exact hlt
  first := by
    intro k hk
    rcases Nat.lt_or_eq_of_le (Nat.lt_succ_iff.mp hk) with hlt | rfl
    · exact h.first k hlt
    · rwa [h.occurs_iff]
  haystack := rfl
  needle := rfl
  count := rfl

/-- The next byte matches. -/
theorem Matched.match {b : UInt8} (h : Matched hs ns x found (b :: rest) (b :: todo)) :
    Matched hs ns ⟨x.i, x.j + 1⟩ (found ++ [b]) rest todo where
  start := h.start
  first := h.first
  haystack := by rw [h.haystack, List.append_assoc, List.singleton_append]
  needle := by rw [h.needle, List.append_assoc, List.singleton_append]
  count := by rw [List.length_append, List.length_singleton, h.count]

/-- One pass, once its reads are known. -/
theorem body_eq {a b c : UInt8} (hi : hs.byte x.i = .ok a) (hj : ns.byte x.j = .ok c)
    (hij : hs.byte (x.i + x.j) = .ok b) :
    body hs ns x = if c = 0 then .leave (.ok (some x.i)) else if a = 0 then .leave (.ok none)
      else if b = c then .again ⟨x.i, x.j + 1⟩ else .again ⟨x.i + 1, 0⟩ := by
  rw [body, pass, hi, hj, hij]
  simp only [bind, Except.bind, pure, Except.pure]
  split_ifs <;> simp_all

/-- Passes to go, at most: one for each byte of the needle at each place. -/
def toGo (hs ns : CString) (x : Indices) : Nat :=
  (hs.bytes.length - x.i) * (ns.bytes.length + 1) + (ns.bytes.length - x.j)

/-- What holds before each pass of the two loops. -/
def LoopInv (hs ns : CString) (x : Indices) : Prop :=
  ∃ found rest todo, Matched hs ns x found rest todo

/-- The loop leaves without a bad read, and with the leftmost occurrence. -/
def Found (hs ns : CString) (_ : Indices) (r : Except Overrun (Option Nat)) : Prop :=
  ∃ p, r = .ok p ∧ Leftmost hs ns p

/-- The next pass starts with a smaller number. -/
theorem Matched.toGo_lt (h : Matched hs ns x found rest todo) :
    (todo ≠ [] → toGo hs ns ⟨x.i, x.j + 1⟩ < toGo hs ns x)
      ∧ (found ++ rest ≠ [] → toGo hs ns ⟨x.i + 1, 0⟩ < toGo hs ns x) := by
  have hneedle := congrArg List.length h.needle
  have hhaystack := congrArg List.length h.haystack
  rw [List.length_append, h.count] at hneedle
  rw [List.length_drop] at hhaystack
  constructor
  · intro htodo
    have hpos := List.length_pos_iff.mpr htodo
    simp only [toGo]
    omega
  · intro hne
    have hpos := List.length_pos_iff.mpr hne
    obtain ⟨k, hk⟩ : ∃ k, hs.bytes.length - x.i = k + 1 := ⟨hs.bytes.length - x.i - 1, by omega⟩
    have hk' : hs.bytes.length - (x.i + 1) = k := by omega
    simp only [toGo]
    rw [hk, hk', Nat.succ_mul]
    omega

/-- **ONE PASS** of the loop. -/
theorem body_step (h : LoopInv hs ns x) :
    (∃ r, body hs ns x = .leave r ∧ Found hs ns x r)
      ∨ ∃ x', body hs ns x = .again x' ∧ LoopInv hs ns x' ∧ toGo hs ns x' < toGo hs ns x := by
  obtain ⟨found, rest, todo, h⟩ := h
  obtain ⟨hi, hj, hij⟩ := h.reads
  obtain ⟨hnext, hskip⟩ := h.toGo_lt
  have hstart : (found ++ rest).headD 0 = 0 ↔ found ++ rest = [] :=
    headD_eq_zero (h.haystack ▸ (List.take_append_drop x.i hs.bytes).symm)
  rw [body_eq hi hj hij]
  by_cases htodo : todo = []
  · -- the whole needle has matched, wherever the haystack ends
    refine Or.inl ⟨_, if_pos ((headD_eq_zero h.needle).mpr htodo), some x.i, rfl, ?_, h.first⟩
    rw [h.occurs_iff, htodo]
    exact List.nil_prefix
  rw [if_neg (mt (headD_eq_zero h.needle).mp htodo)]
  by_cases hend : found ++ rest = []
  · -- the end of the haystack
    refine Or.inl ⟨_, if_pos (hstart.mpr hend), none, rfl, ?_⟩
    rintro k ⟨hk, hocc⟩
    have hlast : hs.bytes.length ≤ x.i := by
      rw [← List.drop_eq_nil_iff, h.haystack, hend]
    rcases Nat.lt_or_eq_of_le (Nat.le_trans hk hlast) with hlt | rfl
    · exact h.first k hlt ⟨hk, hocc⟩
    · rw [h.haystack, hend, h.needle] at hocc
      exact htodo (List.append_eq_nil_iff.mp (List.prefix_nil.mp hocc)).2
  rw [if_neg (mt hstart.mp hend)]
  refine Or.inr ?_
  obtain ⟨c, todo, rfl⟩ := List.exists_cons_of_ne_nil htodo
  have hc : c ≠ 0 := mt (headD_eq_zero h.needle).mp htodo
  by_cases hmatch : rest.headD 0 = c
  · refine ⟨_, if_pos hmatch, ?_, hnext htodo⟩
    cases rest with
    | nil => exact absurd hmatch.symm hc
    | cons b rest =>
        obtain rfl : b = c := hmatch
        exact ⟨_, _, _, h.match⟩
  · refine ⟨_, if_neg hmatch, ⟨_, _, _, h.mismatch hend ?_⟩, hskip hend⟩
    rintro ⟨more, rfl⟩
    exact hmatch rfl

/-- **`strstr`** ends, reads no byte behind a terminator, and finds the leftmost
    occurrence. -/
theorem strstr_leftmost (hs ns : CString) :
    ∃ p, Returns (strstr hs ns) (.ok p) ∧ Leftmost hs ns p
      ∧ (ns.bytes = [] → p = some 0) ∧ (p = none ↔ ¬ ns.bytes <:+: hs.bytes) := by
  have hinv : LoopInv hs ns ⟨0, 0⟩ :=
    ⟨[], hs.bytes, ns.bytes, Nat.zero_le _, fun k hk => absurd hk (Nat.not_lt_zero k), rfl, rfl, rfl⟩
  have hstep : ∀ x, LoopInv hs ns x → (∃ r, body hs ns x = .leave r ∧ Found hs ns x r)
      ∨ ∃ x', body hs ns x = .again x' ∧ LoopInv hs ns x' ∧ toGo hs ns x' < toGo hs ns x
        ∧ ∀ r, Found hs ns x' r → Found hs ns x r := by
    intro x hx
    rcases body_step hx with hleave | ⟨x', hbody, hx', hlt⟩
    · exact Or.inl hleave
    · exact Or.inr ⟨x', hbody, hx', hlt, fun _ hr => hr⟩
  obtain ⟨r, ⟨p, rfl, hp⟩, hrun⟩ := run_measure (LoopInv hs ns) (toGo hs ns) _ hstep _ hinv
  refine ⟨p, ⟨_, fun budget hbudget => hrun budget (Nat.lt_of_succ_le hbudget)⟩, hp, ?_, ?_⟩
  · intro hnil
    have hzero : OccursAt ns hs 0 := ⟨Nat.zero_le _, hnil ▸ List.nil_prefix⟩
    match p, hp with
    | none, hp => exact absurd hzero (hp 0)
    | some 0, _ => rfl
    | some (i + 1), hp => exact absurd hzero (hp.2 0 (Nat.succ_pos i))
  · match p, hp with
    | none, hp =>
        refine iff_of_true rfl ?_
        rintro ⟨front, back, happ⟩
        refine hp front.length ⟨?_, back, ?_⟩
        · rw [← happ, List.length_append, List.length_append]
          omega
        · rw [← happ, List.append_assoc, List.drop_left]
    | some i, hp =>
        refine iff_of_false (Option.some_ne_none i) (not_not.mpr ?_)
        exact hp.1.2.isInfix.trans (List.drop_suffix i hs.bytes).isInfix

end Strstr
