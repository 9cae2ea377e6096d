import Cs61.VmLeaf
import Cs61.VmRuns

/-! # `strlcpy_from_user` — strings of a user process

    The kernel copies a string from a user's address space one byte at a time,
    by an iterator that it moves byte by byte.  Each load is recorded with its
    virtual and its physical address, so that what is read can be stated.

    The buffer is an array of the kernel's own: it lies apart from the memory
    the iterator walks and the bytes it reads. -/

namespace UserStrings

open PageTable VmIter VmWalk VmQueries VmLeaf LoopRules

variable {mem : Mem} {root va : Word} {maxlen : Nat}

/-- A byte of memory. -/
abbrev Byte := BitVec 8

/-- The byte at a physical address. -/
def byteAt (mem : Mem) (pa : Word) : Byte :=
  (mem (pa &&& ~~~(7#64)) >>> (8 * (pa.toNat % 8))).setWidth 8

/-- `it.kptr<const char*>()`. -/
def kptr (mem : Mem) (it : Vmiter) : Word :=
  if it.pep.read mem &&& pteP != 0#64 then it.pa mem else 0#64

/-- What the loop works on.  `reads` is not in the code: it lists the virtual
    and the physical addresses of the bytes read so far. -/
structure Copying where
  i : Nat
  it : Vmiter
  buf : Nat → Byte
  reads : List (Word × Word)

/-- What is left when the call ends, by returning or by a panic. -/
structure Copied where
  buf : Nat → Byte
  reads : List (Word × Word)
  fault : Option Fault

/-- The loop, and the final store. -/
def copyBody (mem : Mem) (maxlen : Nat) (s : Copying) : Turn Copying Copied :=
  if decide (s.i + 1 < maxlen) && s.it.user mem then
    let buf := Function.update s.buf s.i (byteAt mem (kptr mem s.it))
    let reads := s.reads ++ [(s.it.va, kptr mem s.it)]
    match s.it.inc mem with
    | .error f => .leave { buf := buf, reads := reads, fault := some f }
    | .ok it => .again { i := s.i + 1, it := it, buf := buf, reads := reads }
  else
    .leave
      { buf := if s.i < maxlen then Function.update s.buf s.i 0#8 else s.buf
        reads := s.reads
        fault := none }

/-- `strlcpy_from_user(buf, it, maxlen)`.  `i` stays below `maxlen`, so that
    `i + 1` is exact. -/
def strlcpyFromUser (mem : Mem) (buf : Nat → Byte) (it : Vmiter) (maxlen fuel : Nat) :
    Option Copied :=
  run (copyBody mem maxlen) fuel { i := 0, it := it, buf := buf, reads := [] }

/-! ## What the call is for -/

/-- The address `j` bytes after `va`, in the arithmetic of `uintptr_t`. -/
def addrAt (va : Word) (j : Nat) : Word := va + BitVec.ofNat 64 j

/-- The process can read the byte `b` at `va`. -/
def UserByte (mem : Mem) (root va : Word) (b : Byte) : Prop :=
  ∃ pa, UserAt mem root va pa ∧ b = byteAt mem pa

/-- User mode may read the byte at the address. -/
def Readable (mem : Mem) (root va : Word) : Prop := ∃ pa, UserAt mem root va pa

/-- The reads are at consecutive addresses from `va`, all of them readable. -/
def ReadsUser (mem : Mem) (root va : Word) (reads : List (Word × Word)) : Prop :=
  ∀ j p, reads[j]? = some p → p.1 = addrAt va j ∧ UserAt mem root (addrAt va j) p.2

/-- `buf` holds the longest string that the bytes from `va` on give: up to the
    first NUL, the first byte that cannot be read, or `maxlen - 1` bytes. -/
def UserString (mem : Mem) (root va : Word) (maxlen : Nat) (buf : Nat → Byte) : Prop :=
  ∃ n, n < maxlen ∧ buf n = 0#8
    ∧ (∀ j, j < n → buf j ≠ 0#8 ∧ UserByte mem root (addrAt va j) (buf j))
    ∧ (n + 1 = maxlen ∨ ∀ b, UserByte mem root (addrAt va n) b → b = 0#8)

/-- The walk to the byte after some readable bytes meets an entry that `vmiter`
    takes for uninitialized memory. -/
def MeetsSuspicious (mem : Mem) (root va : Word) (maxlen : Nat) : Prop :=
  ∃ n, 0 < n ∧ n < maxlen ∧ (∀ j, j < n → Readable mem root (addrAt va j))
    ∧ Suspicious mem root (addrAt va n)

theorem addrAt_zero (va : Word) : addrAt va 0 = va := BitVec.add_zero va

theorem addrAt_succ (va : Word) (j : Nat) : addrAt va (j + 1) = addrAt va j + 1#64 := by
  rw [addrAt, addrAt, BitVec.add_assoc, ← BitVec.ofNat_add]

/-! ## One byte -/

/-- A readable byte is read where it is mapped. -/
theorem userAt_kptr {it : Vmiter} (h : Walked mem root it) (hu : it.user mem = true) :
    UserAt mem root it.va (kptr mem it) := by
  have hpa : UserAt mem root it.va (it.pa mem) := (userAt_iff h _).mpr ⟨hu, rfl⟩
  have hp : it.pep.read mem &&& pteP ≠ 0#64 := by
    rw [and_pteP_ne_zero_iff]
    rcases h with ⟨d, hon, -⟩ | hoff
    · exact ((onPath_user_iff hon).mp hu).1
    · rw [Vmiter.user, Vmiter.hasPerm, offPath_perms hoff] at hu
      exact absurd hu (by decide)
  rw [kptr, if_pos (by rw [bne_iff_ne]; exact hp)]
  exact hpa

/-- A byte is mapped to one address only. -/
theorem userAt_unique {x pa pa' : Word} (hroot : PageAligned root)
    (h : UserAt mem root x pa) (h' : UserAt mem root x pa') : pa = pa' := by
  obtain ⟨hw, hva⟩ := @fresh_walked mem root hroot x
  rw [← hva] at h h'
  rw [((userAt_iff hw pa).mp h).2, ((userAt_iff hw pa').mp h').2]

/-- The code's test, in terms of the page table. -/
theorem readable_iff {it : Vmiter} (h : Walked mem root it) :
    Readable mem root it.va ↔ it.user mem = true := by
  constructor
  · rintro ⟨pa, hpa⟩
    exact ((userAt_iff h pa).mp hpa).1
  · intro hu
    exact ⟨_, (userAt_iff h _).mpr ⟨hu, rfl⟩⟩

/-- `++it` is the construction of an iterator one byte on. -/
theorem inc_eq (hroot : PageAligned root) {it : Vmiter} (h : Walked mem root it) :
    it.inc mem = Vmiter.new mem root (it.va + 1#64) := by
  have hne : it.va + 1#64 ≠ it.va := by
    intro heq
    have hnat := congrArg BitVec.toNat heq
    rw [BitVec.toNat_add, show (1#64).toNat = 1 from rfl] at hnat
    have hlt := it.va.isLt
    omega
  rw [Vmiter.inc, Vmiter.find, if_pos (by rw [bne_iff_ne]; exact hne),
    findImpl_eq hroot (Or.inl h) rfl]

/-! ## The loop -/

/-- What holds at the loop test: the iterator stands at byte `i`, and the bytes
    before it are in the buffer. -/
structure CopyInv (mem : Mem) (root va : Word) (maxlen : Nat) (buf : Nat → Byte)
    (s : Copying) : Prop where
  walked : Walked mem root s.it
  va_eq : s.it.va = addrAt va s.i
  lt : s.i < maxlen
  length : s.reads.length = s.i
  reads : ReadsUser mem root va s.reads
  copied : ∀ j, j < s.i → UserByte mem root (addrAt va j) (s.buf j)
  kept : ∀ j, maxlen ≤ j → s.buf j = buf j
  passed : ∀ j, 0 < j → j ≤ s.i → ¬ Suspicious mem root (addrAt va j)

/-- What the call gives. -/
structure CopySpec (mem : Mem) (root va : Word) (maxlen : Nat) (buf : Nat → Byte)
    (r : Copied) : Prop where
  reads : ReadsUser mem root va r.reads
  length : r.reads.length < maxlen
  kept : ∀ j, maxlen ≤ j → r.buf j = buf j
  returns_iff : r.fault = none ↔ ¬ MeetsSuspicious mem root va maxlen
  string : r.fault = none → UserString mem root va maxlen r.buf

/-- One more byte that a user may read. -/
theorem ReadsUser.append {reads : List (Word × Word)} {pa : Word}
    (h : ReadsUser mem root va reads) (hpa : UserAt mem root (addrAt va reads.length) pa) :
    ReadsUser mem root va (reads ++ [(addrAt va reads.length, pa)]) := by
  intro j p hp
  rcases Nat.lt_trichotomy j reads.length with hlt | rfl | hgt
  · rw [List.getElem?_append_left hlt] at hp
    exact h j p hp
  · rw [List.getElem?_concat_length] at hp
    obtain rfl := Option.some.inj hp
    exact ⟨rfl, hpa⟩
  · rw [List.getElem?_eq_none (by rw [List.length_append, List.length_singleton]; omega)] at hp
    cases hp

/-- A string ends at the first NUL that the buffer has. -/
theorem userString_of_bytes (hroot : PageAligned root) {buf : Nat → Byte} {i : Nat}
    (hi : i < maxlen)
    (hnul : buf i = 0#8) (hbytes : ∀ j, j < i → UserByte mem root (addrAt va j) (buf j))
    (hstop : i + 1 = maxlen ∨ ¬ Readable mem root (addrAt va i)) :
    UserString mem root va maxlen buf := by
  obtain ⟨n, ⟨hle, hn⟩, hmin⟩ := Nat.findX (p := fun n => n ≤ i ∧ buf n = 0#8) ⟨i, Nat.le_refl i, hnul⟩
  refine ⟨n, by omega, hn, ?_, ?_⟩
  · intro j hj
    refine ⟨?_, hbytes j (by omega)⟩
    intro hz
    exact hmin j hj ⟨by omega, hz⟩
  · rcases Nat.lt_or_eq_of_le hle with hlt | rfl
    · -- the string ends before the copy does
      refine Or.inr ?_
      rintro b ⟨pa, hpa, rfl⟩
      obtain ⟨pa', hpa', hb⟩ := hbytes n hlt
      rw [userAt_unique hroot hpa hpa', ← hb, hn]
    · refine hstop.imp_right ?_
      rintro hno b ⟨pa, hpa, -⟩
      exact absurd ⟨pa, hpa⟩ hno

/-- The end of the loop. -/
theorem CopyInv.finish (hroot : PageAligned root) {buf : Nat → Byte} {s : Copying}
    (h : CopyInv mem root va maxlen buf s)
    (hstop : ¬ (s.i + 1 < maxlen ∧ s.it.user mem = true)) :
    CopySpec mem root va maxlen buf
      { buf := Function.update s.buf s.i 0#8, reads := s.reads, fault := none } := by
  have hlt := h.lt
  have hend : s.i + 1 = maxlen ∨ ¬ Readable mem root (addrAt va s.i) := by
    by_cases hfull : s.i + 1 < maxlen
    · refine Or.inr ?_
      rw [← h.va_eq, readable_iff h.walked]
      exact fun hu => hstop ⟨hfull, hu⟩
    · exact Or.inl (by omega)
  refine ⟨h.reads, by rw [h.length]; exact hlt, ?_, ?_, ?_⟩
  · intro j hj
    show Function.update s.buf s.i 0#8 j = buf j
    rw [Function.update_of_ne (by omega)]
    exact h.kept j hj
  · refine ⟨fun _ => ?_, fun _ => rfl⟩
    rintro ⟨n, hpos, hn, hread, hsus⟩
    by_cases hle : n ≤ s.i
    · exact h.passed n hpos hle hsus
    · rcases hend with hfull | hno
      · omega
      · exact hno (hread s.i (by omega))
  · intro _
    refine userString_of_bytes hroot hlt (Function.update_self ..) ?_ hend
    intro j hj
    show UserByte mem root (addrAt va j) (Function.update s.buf s.i 0#8 j)
    rw [Function.update_of_ne (by omega)]
    exact h.copied j hj

/-- One pass of the loop. -/
theorem CopyInv.step (hroot : PageAligned root) {buf : Nat → Byte} {s : Copying}
    (h : CopyInv mem root va maxlen buf s) (hmore : s.i + 1 < maxlen)
    (hu : s.it.user mem = true) :
    (∃ r, copyBody mem maxlen s = .leave r ∧ CopySpec mem root va maxlen buf r)
      ∨ ∃ s', copyBody mem maxlen s = .again s' ∧ CopyInv mem root va maxlen buf s'
          ∧ s'.i = s.i + 1 := by
  -- the byte that is read is one that the user may read
  have hat : UserAt mem root (addrAt va s.i) (kptr mem s.it) := by
    rw [← h.va_eq]
    exact userAt_kptr h.walked hu
  have hreads : ReadsUser mem root va (s.reads ++ [(s.it.va, kptr mem s.it)]) := by
    rw [h.va_eq, ← h.length]
    exact h.reads.append (by rw [h.length]; exact hat)
  -- what is behind the buffer stays
  have hkept : ∀ j, maxlen ≤ j →
      Function.update s.buf s.i (byteAt mem (kptr mem s.it)) j = buf j := by
    intro j hj
    rw [Function.update_of_ne (by omega)]
    exact h.kept j hj
  have hcopied : ∀ j, j < s.i + 1 → UserByte mem root (addrAt va j)
      (Function.update s.buf s.i (byteAt mem (kptr mem s.it)) j) := by
    intro j hj
    rcases Nat.lt_succ_iff_lt_or_eq.mp hj with hlt | rfl
    · rw [Function.update_of_ne (by omega)]
      exact h.copied j hlt
    · rw [Function.update_self]
      exact ⟨_, hat, rfl⟩
  -- the iterator moves by one byte
  have hinc : s.it.inc mem = Vmiter.new mem root (addrAt va (s.i + 1)) := by
    rw [inc_eq hroot h.walked, h.va_eq, addrAt_succ]
  have hsus := @new_error_iff mem root hroot (addrAt va (s.i + 1))
  have hbody : copyBody mem maxlen s
      = match s.it.inc mem with
        | .error f => .leave
            { buf := Function.update s.buf s.i (byteAt mem (kptr mem s.it))
              reads := s.reads ++ [(s.it.va, kptr mem s.it)], fault := some f }
        | .ok it => .again
            { i := s.i + 1, it := it
              buf := Function.update s.buf s.i (byteAt mem (kptr mem s.it))
              reads := s.reads ++ [(s.it.va, kptr mem s.it)] } := by
    rw [copyBody, if_pos (by rw [hu, decide_eq_true hmore]; rfl)]
  rw [hbody, hinc]
  have hlen : (s.reads ++ [(s.it.va, kptr mem s.it)]).length = s.i + 1 := by
    rw [List.length_append, h.length, List.length_singleton]
  cases hnew : Vmiter.new mem root (addrAt va (s.i + 1)) with
  | error f =>
      refine Or.inl ⟨_, rfl, ⟨hreads, by rw [hlen]; exact hmore, hkept, ?_, ?_⟩⟩
      · refine ⟨fun hc => Option.some_ne_none f hc |>.elim, fun hno => absurd ?_ hno⟩
        refine ⟨s.i + 1, Nat.succ_pos _, hmore, ?_, hsus.mp ⟨f, hnew⟩⟩
        intro j hj
        obtain ⟨pa, hpa, -⟩ := hcopied j hj
        exact ⟨pa, hpa⟩
      · intro hc
        cases hc
  | ok it =>
      obtain ⟨hw, hva⟩ := @fresh_walked mem root hroot (addrAt va (s.i + 1))
      have hit := new_fresh hnew
      refine Or.inr ⟨_, rfl, ⟨?_, ?_, hmore, hlen, hreads, hcopied, hkept, ?_⟩, rfl⟩
      · rw [hit]
        exact hw
      · rw [hit]
        exact hva
      · intro j hpos hj
        rcases Nat.lt_or_eq_of_le hj with hlt | rfl
        · exact h.passed j hpos (Nat.lt_succ_iff.mp hlt)
        · rw [← hsus]
          rintro ⟨f, hf⟩
          rw [hnew] at hf
          cases hf

/-- **STRINGS OF A PROCESS**: the call ends; it reads consecutive bytes that
    the process can read and writes its buffer only; it returns unless the
    iterator meets a suspicious entry, and then the buffer holds the longest
    string there is. -/
theorem strlcpyFromUser_spec (hroot : PageAligned root) {it : Vmiter}
    (hit : Vmiter.new mem root va = .ok it) (hmax : 1 ≤ maxlen) (buf : Nat → Byte) :
    ∃ r, Returns (strlcpyFromUser mem buf it maxlen) r ∧ CopySpec mem root va maxlen buf r := by
  obtain ⟨hw, hva⟩ := @fresh_walked mem root hroot va
  rw [← new_fresh hit] at hw hva
  have hstart : CopyInv mem root va maxlen buf { i := 0, it := it, buf := buf, reads := [] } := by
    refine ⟨hw, by rw [addrAt_zero]; exact hva, hmax, rfl, ?_, ?_, fun _ _ => rfl, ?_⟩
    · intro j p hp
      cases hp
    · intro j hj
      exact absurd hj (Nat.not_lt_zero j)
    · intro j hpos hj
      exact absurd hj (by show ¬ j ≤ 0; omega)
  have hstep : ∀ s, CopyInv mem root va maxlen buf s →
      (∃ r, copyBody mem maxlen s = .leave r ∧ CopySpec mem root va maxlen buf r) ∨
      (∃ s', copyBody mem maxlen s = .again s' ∧ CopyInv mem root va maxlen buf s'
        ∧ maxlen - s'.i < maxlen - s.i
        ∧ ∀ r, CopySpec mem root va maxlen buf r → CopySpec mem root va maxlen buf r) := by
    intro s h
    by_cases hgo : s.i + 1 < maxlen ∧ s.it.user mem = true
    · refine (h.step hroot hgo.1 hgo.2).imp_right ?_
      rintro ⟨s', hbody, hinv, hi⟩
      exact ⟨s', hbody, hinv, by omega, fun _ hr => hr⟩
    · refine Or.inl ⟨_, ?_, h.finish hroot hgo⟩
      rw [copyBody, if_neg (by rw [Bool.and_eq_true, decide_eq_true_iff]; exact hgo),
        if_pos h.lt]
  obtain ⟨r, hspec, hrun⟩ := run_measure _ (fun s => maxlen - s.i) _ hstep _ hstart
  exact ⟨r, ⟨maxlen + 1, fun fuel hf => hrun fuel (by show maxlen - 0 < fuel; omega)⟩, hspec⟩

/-- A string that runs over the end of a mapped page. -/
theorem strlcpyFromUser_spec_small :
    ∃ it, Vmiter.new smallTable 0x1000#64 0x1FFE#64 = .ok it
      ∧ ∃ r, Returns (strlcpyFromUser smallTable (fun _ => 0xFF#8) it 256) r
          ∧ CopySpec smallTable 0x1000#64 0x1FFE#64 256 (fun _ => 0xFF#8) r := by
  have hnew := new_ok smallTable_wellFormed.aligned smallTable_wellFormed.low 0x1FFE#64
  exact ⟨_, hnew, strlcpyFromUser_spec smallTable_wellFormed.aligned hnew (by decide) _⟩

/-- `smallTable` with an `A` in the last byte of its page, and the next page
    mapped to 4 GiB. -/
def highTable : Mem :=
  Function.update (Function.update smallTable 0x4010#64 0x100000007#64)
    0x5FF8#64 0x4100000000000000#64

/-- The step to the next page panics, and no NUL is written. -/
theorem highTable_panics :
    ∃ it, Vmiter.new highTable 0x1000#64 0x1FFF#64 = .ok it
      ∧ ∃ r, Returns (strlcpyFromUser highTable (fun _ => 0xFF#8) it 2) r
          ∧ r.fault ≠ none ∧ ∀ n, n < 2 → r.buf n ≠ 0#8 := by
  obtain ⟨it, r, hit, hbody, hfault, hbuf⟩ :
      ∃ it r, Vmiter.new highTable 0x1000#64 0x1FFF#64 = .ok it
        ∧ copyBody highTable 2 { i := 0, it := it, buf := fun _ => 0xFF#8, reads := [] } = .leave r
        ∧ r.fault ≠ none ∧ ∀ n, n < 2 → r.buf n ≠ 0#8 :=
    ⟨_, _, rfl, rfl, by decide, by decide⟩
  exact ⟨it, hit, r, returns_leave hbody, hfault, hbuf⟩

end UserStrings
