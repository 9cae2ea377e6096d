import Cs61.ConsoleSafety

/-! # An escape buffer in front of a printer

    `ansi_escape_buffer` with every access to its 12 bytes checked, in front of
    a printer that emits what the buffer does not take.  A string comes out
    without its complete `ESC [ ... m` sequences, all of it emitted in order,
    unless an `ESC` that the buffer takes is followed by `m`: then both are
    dropped (`printsAll_iff`). -/

namespace AnsiEscapes

open Effects LoopRules ConsolePrinter

/-! ## The buffer, with checked reads

    `ConsolePrinter` checks where `putc_impl` writes.  Here its reads of `buf_` are
    checked as well, those of `flush` and of the parameters; what the functions do
    besides is the same (`ansiFlush_eq`, `ansiPutc_eq`). -/

/-- `buf_[i]`. -/
def readBuf (o : Holder) (i : Int) : M Byte := do
  check (decide (0 ≤ i) && decide (i < 12)) (.outside i)
  let m ← get
  pure ((o.ebuf m).buf i)

/-- `for (int i = 0; i != len; ++i) pr.putc(buf_[i])`. -/
def ansiFlushLoop (o : Holder) (self : Byte → M Unit) (len : Int) : M Unit :=
  loop (fun i : Int =>
    if i ≠ len then do
      let c ← readBuf o i
      self c
      pure (.again (i + 1))
    else pure (.leave ())) 0

/-- `ansi_escape_buffer::flush`. -/
def ansiFlush (o : Holder) (self : Byte → M Unit) : M Unit := do
  let m ← get
  let len := (o.ebuf m).len
  if len ≤ 0 then pure ()
  else do
    setLen o (-1)
    ansiFlushLoop o self len
    setLen o 0

/-- The reads of `buf_` while a sequence is parsed, from `i` on. -/
def parseReads (o : Holder) : Nat → Int → M Unit
  | 0, _ => pure ()
  | n + 1, i => do
      let _ ← readBuf o i
      parseReads o n (i + 1)

/-- `ansi_escape_buffer::putc_impl`. -/
def ansiPutcImpl (o : Holder) (self : Byte → M Unit) (c : Byte) : M Unit := do
  let m ← get
  let len := (o.ebuf m).len
  check (decide (0 ≤ len) && decide (len < 12)) (.outside len)
  let b : EscapeBuffer := { buf := Function.update (o.ebuf m).buf len c, len := len + 1 }
  modify (o.setEbuf b)
  if collects b.len c then pure ()
  else if c ≠ 109 then ansiFlush o self
  else do
    parseReads o (b.len.toNat - 2) 2
    modify (o.setColor (parseColor b))
    setLen o 0

/-- `ansi_escape_buffer::putc`. -/
def ansiPutc (o : Holder) (self : Byte → M Unit) (c : Byte) : M Bool := do
  let m ← get
  if (o.ebuf m).len < 0 ∨ ((o.ebuf m).len = 0 ∧ c ≠ esc) then pure false
  else do
    ansiPutcImpl o self c
    pure true

/-! ## A printer behind it -/

/-- `putc` of a printer that emits a byte by `emit`. -/
def putc (o : Holder) (emit self : Byte → M Unit) (c : Byte) : M Unit := do
  let held ← ansiPutc o self c
  if held = true then pure () else emit c

/-- The virtual `putc`, for at most `d` nested calls. -/
def virtualPutc (o : Holder) (emit : Byte → M Unit) : Nat → Byte → M Unit
  | 0 => fun _ => stuck
  | d + 1 => putc o emit (virtualPutc o emit d)

/-- A string through a new printer, and a flush of its buffer. -/
def print (o : Holder) (emit : Byte → M Unit) (d : Nat) (s : List Byte) : M Unit := do
  setLen o 0
  each (virtualPutc o emit d) s
  ansiFlush o (virtualPutc o emit d)

/-- `log_printer` emits to the parallel port, `console_printer` to the screen. -/
def logEmit (c : Byte) : M Unit := modify fun m => { m with port := m.port ++ [c] }

/-! ## What is printed -/

variable {o : Holder} {emit : Byte → M Unit} {m m' : Machine}

/-- A printer: `emit` ends and leaves the buffer alone. -/
structure Sink (o : Holder) (emit : Byte → M Unit) (I : Machine → Prop) : Prop where
  ends : ∀ c m, I m → Ends (emit c) m fun _ m' => I m' ∧ o.ebuf m' = o.ebuf m
  setEbuf : ∀ b m, I m → I (o.setEbuf b m)
  setColor : ∀ color m, I m → I (o.setColor color m)

/-- From `m` on, `emit` is called for the bytes `out`, one after the other; all
    other changes are those of the buffer and of the color. -/
inductive Emits (o : Holder) (emit : Byte → M Unit) (m : Machine) : List Byte → Machine → Prop where
  | start : Emits o emit m [] m
  | setEbuf {out : List Byte} {m' : Machine} (b : EscapeBuffer) (h : Emits o emit m out m') :
      Emits o emit m out (o.setEbuf b m')
  | setColor {out : List Byte} {m' : Machine} (color : BitVec 32) (h : Emits o emit m out m') :
      Emits o emit m out (o.setColor color m')
  | emit {out : List Byte} {m' m'' : Machine} (c : Byte) (h : Emits o emit m out m')
      (hc : Ends (emit c) m' fun _ t => t = m'') : Emits o emit m (out ++ [c]) m''

/-- A complete sequence of at most 12 bytes. -/
def Complete (w : List Byte) : Prop :=
  ∃ ps : List Byte, w = esc :: 91 :: (ps ++ [109]) ∧ ps.length ≤ 9 ∧ ∀ d ∈ ps, IsParam d

/-- What comes out of a string: everything but some complete sequences. -/
inductive Printed : List Byte → List Byte → Prop where
  | nil : Printed [] []
  | byte (c : Byte) {s out : List Byte} (h : Printed s out) : Printed (c :: s) (c :: out)
  | sequence {w s out : List Byte} (hw : Complete w) (h : Printed s out) : Printed (w ++ s) out

/-- A printer prints all of a string, whichever printer it is. -/
def PrintsAll (s : List Byte) : Prop :=
  ∃ out, Printed s out ∧ ∀ (o : Holder) (emit : Byte → M Unit) (I : Machine → Prop),
    Sink o emit I → ∀ m, I m → ∀ d, 2 ≤ d → Ends (print o emit d s) m fun _ m' =>
      I m' ∧ Emits o emit m out m'

/-- What the buffer takes in one piece: a byte, an `ESC` and a byte that is no
    `[`, or a sequence up to the byte that ends or breaks it. -/
inductive Piece : List Byte → Prop where
  | plain (c : Byte) (hc : c ≠ esc) : Piece [c]
  | escape (c : Byte) (hc : c ≠ 91) : Piece [esc, c]
  | sequence (ps : List Byte) (c : Byte) (hlen : ps.length ≤ 9) (hps : ∀ d ∈ ps, IsParam d)
      (hc : ps.length = 9 ∨ ¬ IsParam c) : Piece (esc :: 91 :: (ps ++ [c]))

/-- Whole pieces. -/
inductive Pieces : List Byte → Prop where
  | nil : Pieces []
  | snoc {s w : List Byte} (hs : Pieces s) (hw : Piece w) : Pieces (s ++ w)

/-- One of the pieces is `ESC m`. -/
def BareEscape (s : List Byte) : Prop :=
  ∃ front back, Pieces front ∧ s = front ++ esc :: 109 :: back

/-! ## The checks hold

    As long as the buffer is not longer than its array, the reads are those of
    a buffer whose reads are not checked. -/

variable {self : Byte → M Unit} {c : Byte} {i : Int}

/-- The check of a read inside the buffer does nothing. -/
theorem readBuf_eq (hi : 0 ≤ i) (hlt : i < 12) (n : Nat) (m : Machine) :
    readBuf o i n m = some (.ok ((o.ebuf m).buf i, m)) := by
  have hcheck : (decide (0 ≤ i) && decide (i < 12)) = true := by
    rw [Bool.and_eq_true, decide_eq_true_iff, decide_eq_true_iff]
    exact ⟨hi, hlt⟩
  rw [readBuf, hcheck]
  rfl

/-- The same for the reads of the parser. -/
theorem parseReads_eq (k : Nat) (hi : 0 ≤ i) (hle : i + k ≤ 12) (n : Nat) (m : Machine) :
    parseReads o k i n m = some (.ok ((), m)) := by
  induction k generalizing i with
  | zero => rfl
  | succ k ih =>
      show Act.bind (readBuf o i) _ n m = _
      rw [Act.bind, readBuf_eq hi (by omega)]
      exact ih (by omega) (by omega)

/-- With the length inside the buffer, the checked loop is the loop. -/
theorem ansiFlushLoop_eq {len : Int} (h0 : 0 ≤ len) (h12 : len ≤ 12) :
    ansiFlushLoop o self len = flushLoop o self len := by
  funext n m
  refine loopAt_congr (fun i : Int => 0 ≤ i ∧ i ≤ len) ?_ ?_ n n m ⟨Int.le_refl 0, h0⟩
  · rintro i n m ⟨hi, hle⟩
    by_cases hend : i = len
    · rw [if_neg (not_not.mpr hend), if_neg (not_not.mpr hend)]
    · rw [if_pos hend, if_pos hend]
      show Act.bind (readBuf o i) _ n m = _
      rw [Act.bind, readBuf_eq hi (by omega)]
      rfl
  · rintro i n m i' m' ⟨hi, hle⟩ hagain
    by_cases hend : i = len
    · rw [if_neg (not_not.mpr hend)] at hagain
      cases hagain
    · rw [if_pos hend] at hagain
      change Act.bind (self ((o.ebuf m).buf i)) (fun _ => pure (Turn.again (i + 1))) n m = _
        at hagain
      rw [Act.bind] at hagain
      split at hagain
      · cases hagain
      · cases hagain
      · cases hagain
        exact ⟨by omega, by omega⟩

/-- The checked `flush` is `flush`. -/
theorem ansiFlush_eq (n : Nat) (h : (o.ebuf m).len ≤ 12) :
    ansiFlush o self n m = flush o self n m := by
  refine bind_congr rfl ?_
  rintro _ _ ⟨⟩
  by_cases hlen : (o.ebuf m).len ≤ 0
  · rw [if_pos hlen, if_pos hlen]
  · rw [if_neg hlen, if_neg hlen, ansiFlushLoop_eq (by omega) h]

/-- The checked `putc_impl` is `putc_impl`. -/
theorem ansiPutcImpl_eq (n : Nat) (h : (o.ebuf m).len ≤ 11) :
    ansiPutcImpl o self c n m = putcImpl o self c n m := by
  refine bind_congr rfl ?_
  rintro _ _ ⟨⟩
  refine bind_congr rfl ?_
  intro u m₁ hcheck
  obtain ⟨hin, rfl⟩ := check_ok hcheck
  rw [Bool.and_eq_true, decide_eq_true_iff, decide_eq_true_iff] at hin
  refine bind_congr rfl ?_
  rintro _ _ ⟨⟩
  by_cases hcol : collects ((o.ebuf m₁).len + 1) c
  · rw [if_pos hcol, if_pos hcol]
  rw [if_neg hcol, if_neg hcol]
  by_cases hm : c ≠ 109
  · rw [if_pos hm, if_pos hm]
    refine ansiFlush_eq n ?_
    rw [o.ebuf_setEbuf]
    show (o.ebuf m₁).len + 1 ≤ 12
    omega
  · rw [if_neg hm, if_neg hm]
    refine bind_ok (parseReads_eq _ (by omega) ?_ n _)
    show 2 + (((o.ebuf m₁).len + 1).toNat - 2 : Nat) ≤ (12 : Int)
    omega

/-- The checked `putc` is `putc`. -/
theorem ansiPutc_eq (n : Nat) (h : (o.ebuf m).len ≤ 11) :
    ansiPutc o self c n m = ebufPutc o self c n m := by
  refine bind_congr rfl ?_
  rintro _ _ ⟨⟩
  split_ifs
  · rfl
  · exact bind_congr (ansiPutcImpl_eq n h) fun _ _ _ => rfl

/-! ## What is emitted -/

variable {I : Machine → Prop} {p out out' : List Byte}

/-- One output after the other. -/
theorem Emits.trans {m₀ : Machine} (h : Emits o emit m₀ out m) (h' : Emits o emit m out' m') :
    Emits o emit m₀ (out ++ out') m' := by
  induction h' with
  | start => rwa [List.append_nil]
  | setEbuf b _ ih => exact .setEbuf b ih
  | setColor color _ ih => exact .setColor color ih
  | emit c _ hc ih =>
      rw [← List.append_assoc]
      exact .emit c ih hc

/-- One call of `emit`. -/
theorem Sink.emits (h : Sink o emit I) (hI : I m) (c : Byte) :
    Ends (emit c) m fun _ m' => I m' ∧ o.ebuf m' = o.ebuf m ∧ Emits o emit m [c] m' := by
  obtain ⟨n, u, m', hrun, hI', hbuf⟩ := h.ends c m hI
  exact ⟨n, u, m', hrun, hI', hbuf, .emit c .start ⟨n, u, m', hrun, rfl⟩⟩

/-- While the buffer is flushed, every byte is emitted. -/
theorem putc_flushing (h : Sink o emit I) (hI : I m) (hneg : (o.ebuf m).len < 0) :
    Ends (putc o emit self c) m fun _ m' =>
      I m' ∧ o.ebuf m' = o.ebuf m ∧ Emits o emit m [c] m' := by
  refine Ends.bind (Ends.mono (Ends.congr (fun n => ansiPutc_eq n (by omega))
    (ebufPutc_pass (Or.inl hneg))) ?_)
  rintro r _ ⟨rfl, rfl⟩
  rw [if_neg Bool.false_ne_true]
  exact h.emits hI c

/-- **FLUSH** emits what the buffer holds. -/
theorem flush_emits (h : Sink o emit I) (hI : I m) (d : Nat) {b : EscapeBuffer} {w : List Byte}
    (hb : Pending b w) (hm : o.ebuf m = b) (hw : w ≠ []) :
    Ends (flush o (virtualPutc o emit (d + 1))) m fun _ m' =>
      I m' ∧ Pending (o.ebuf m') [] ∧ Emits o emit m w m' := by
  refine (flush_spec hb (fun L s => I s ∧ o.ebuf s = b.withLen (-1)
    ∧ ∃ out, out ++ L = w ∧ Emits o emit m out s) ?_ ?_ hm hw ?_).mono ?_
  · rintro L s ⟨-, hbuf, -⟩
    exact hbuf
  · rintro c L s ⟨hs, hbuf, out, hout, hem⟩
    refine (putc_flushing h hs (by rw [hbuf]; show (-1 : Int) < 0; omega)).mono ?_
    rintro _ s' ⟨hs', hbuf', hem'⟩
    exact ⟨hs', hbuf'.trans hbuf, out ++ [c], by rw [List.append_assoc]; exact hout, hem.trans hem'⟩
  · exact ⟨h.setEbuf _ _ hI, o.ebuf_setEbuf _ _, [], rfl, .setEbuf _ .start⟩
  · rintro _ _ ⟨s, ⟨hs, -, out, hout, hem⟩, rfl⟩
    rw [List.append_nil] at hout
    refine ⟨h.setEbuf _ _ hs, ?_, ?_⟩
    · rw [o.ebuf_setEbuf]
      exact Pending.nil b
    · rw [← hout]
      exact .setEbuf _ hem

/-- **PUTC** emits what `feed` puts out. -/
theorem putc_emits (h : Sink o emit I) (hI : I m) (d : Nat) (hb : Pending (o.ebuf m) p)
    (hp : Partial p) (c : Byte) :
    Ends (virtualPutc o emit (d + 2) c) m fun _ m' =>
      I m' ∧ Pending (o.ebuf m') (feed p c).1 ∧ Emits o emit m (feed p c).2 m' := by
  have hle := hp.length_le
  have hlen : (o.ebuf m).len ≤ 11 := by
    rw [hb.1]
    omega
  refine Ends.bind (Ends.congr (fun n => ansiPutc_eq n hlen) ?_)
  -- by what becomes of the byte in the buffer
  cases feed_cases hp c with
  | plain hnil hc hf =>
      have hzero : (o.ebuf m).len = 0 := by rw [hb.1, hnil]; rfl
      refine (ebufPutc_pass (Or.inr ⟨hzero, hc⟩)).mono ?_
      rintro r _ ⟨rfl, rfl⟩
      rw [if_neg Bool.false_ne_true, hf]
      refine (h.emits hI c).mono ?_
      rintro _ m' ⟨hI', hbuf, hem⟩
      rw [hbuf]
      rw [hnil] at hb
      exact ⟨hI', hb, hem⟩
  | held hne hcol hf _ =>
      refine ebufPutc_take rfl hb hp hne ?_
      rw [if_pos hcol]
      refine Ends.pure ?_
      rw [if_pos rfl, hf]
      refine Ends.pure ⟨h.setEbuf _ _ hI, ?_, .setEbuf _ .start⟩
      rw [o.ebuf_setEbuf]
      exact hb.push c
  | dropped hne hcol hc hf =>
      refine ebufPutc_take rfl hb hp (fun h => hne h.1) ?_
      rw [if_neg hcol, if_pos hc]
      refine (flush_emits h (h.setEbuf _ _ hI) d (hb.push c) (o.ebuf_setEbuf _ _)
        (List.append_ne_nil_of_left_ne_nil hne [c])).mono ?_
      rintro _ m' ⟨hI', hbuf, hem⟩
      rw [if_pos rfl, hf]
      have hpush : Emits o emit m [] (o.setEbuf ((o.ebuf m).push c) m) := .setEbuf _ .start
      exact Ends.pure ⟨hI', hbuf, hpush.trans hem⟩
  | complete hne hcol hc hf =>
      refine ebufPutc_take rfl hb hp (fun h => hne h.1) ?_
      rw [if_neg hcol, if_neg (not_not.mpr hc)]
      refine Ends.bind (Ends.modify (Ends.modify ?_))
      rw [if_pos rfl, hf]
      refine Ends.pure ⟨h.setEbuf _ _ (h.setColor _ _ (h.setEbuf _ _ hI)), ?_,
        .setEbuf _ (.setColor _ (.setEbuf _ .start))⟩
      rw [o.ebuf_setEbuf]
      exact Pending.nil _

/-- All that comes out of a string. -/
def emitted (s : List Byte) : List Byte := (feedAll [] s).2 ++ (feedAll [] s).1

/-- **PRINT**: any printer emits these bytes. -/
theorem print_emits (h : Sink o emit I) (hI : I m) {d : Nat} (hd : 2 ≤ d) (s : List Byte) :
    Ends (print o emit d s) m fun _ m' => I m' ∧ Emits o emit m (emitted s) m' := by
  obtain ⟨d, rfl⟩ : ∃ k, d = k + 2 := ⟨d - 2, by omega⟩
  refine Ends.bind (Ends.modify (Ends.bind ?_))
  refine (Ends.each (fun L s' => I s' ∧ ∃ p out, Partial p ∧ Pending (o.ebuf s') p
    ∧ Emits o emit m out s' ∧ (feedAll p L).1 = (feedAll [] s).1
    ∧ out ++ (feedAll p L).2 = (feedAll [] s).2) ?_
    ⟨h.setEbuf _ _ hI, [], [], .empty, ?_, .setEbuf _ .start, rfl, rfl⟩).mono ?_
  · rintro c L s' ⟨hI', p, out, hp, hb, hem, hleft, hout⟩
    refine (putc_emits h hI' d hb hp c).mono ?_
    rintro _ s'' ⟨hI'', hb', hem'⟩
    rw [feedAll] at hleft hout
    refine ⟨hI'', _, _, hp.feed c, hb', hem.trans hem', hleft, ?_⟩
    rw [List.append_assoc]
    exact hout
  · rw [o.ebuf_setEbuf]
    exact Pending.nil _
  · rintro _ s' ⟨hI', p, out, hp, hb, hem, hleft, hout⟩
    rw [feedAll] at hleft hout
    rw [List.append_nil] at hout
    have hle := hp.length_le
    have hlen : (o.ebuf s').len ≤ 12 := by
      rw [hb.1]
      omega
    refine Ends.congr (fun n => ansiFlush_eq n hlen) ?_
    rw [emitted, ← hleft, ← hout]
    by_cases hnil : p = []
    · refine Ends.bind (Ends.get ?_)
      have hzero : (o.ebuf s').len ≤ 0 := by
        rw [hb.1, hnil]
        exact Int.le_refl 0
      rw [if_pos hzero, hnil, List.append_nil]
      exact Ends.pure ⟨hI', hem⟩
    · refine (flush_emits h hI' (d + 1) hb rfl hnil).mono ?_
      rintro _ m' ⟨hI'', -, hem'⟩
      exact ⟨hI'', hem.trans hem'⟩

/-! ## The two printers -/

/-- The log printer takes every character. -/
theorem log_sink : Sink logHolder logEmit fun _ => True where
  ends _ _ _ := Ends.modify ⟨trivial, rfl⟩
  setEbuf _ _ _ := trivial
  setColor _ _ _ := trivial

/-- The parallel port gets the bytes that a log printer emits. -/
theorem Emits.port (h : Emits logHolder logEmit m out m') : m'.port = m.port ++ out := by
  induction h with
  | start => exact (List.append_nil _).symm
  | setEbuf _ _ ih => exact ih
  | setColor _ _ ih => exact ih
  | emit c _ hc ih =>
      obtain ⟨n, u, t, hrun, rfl⟩ := hc
      have hone := hrun n (Nat.le_refl n)
      cases hone
      rw [← List.append_assoc, ← ih]

/-! ## Pieces -/

/-- Pairs `ESC m` that the buffer drops, after bytes that it holds. -/
def bares (p : List Byte) : List Byte → Nat
  | [] => 0
  | c :: s => (if p = [esc] ∧ c = 109 then 1 else 0) + bares (feed p c).1 s

/-- Escape sequences are counted from where the buffer is. -/
theorem bares_append (p a b : List Byte) :
    bares p (a ++ b) = bares p a + bares (feedAll p a).1 b := by
  induction a generalizing p with
  | nil => exact (Nat.zero_add _).symm
  | cons c a ih => rw [List.cons_append, bares, bares, ih, feedAll, Nat.add_assoc]

theorem isParam_ne (h : IsParam c) : c ≠ esc ∧ c ≠ 91 ∧ c ≠ 109 := by
  refine ⟨?_, ?_, ?_⟩
  all_goals
    rintro rfl
    revert h
    rw [IsParam]
    decide

/-- Whether a byte is held back, by what is held already. -/
theorem collects_iff (h : Partial p) (c : Byte) : collects (p.length + 1) c
    ↔ p = [] ∨ (p = [esc] ∧ c = 91) ∨ (∃ ps, p = esc :: 91 :: ps ∧ ps.length < 9 ∧ IsParam c) := by
  rw [collects]
  cases h with
  | empty => simp
  | escape => simp
  | params ps hlen hps =>
      simp only [List.length_cons, Nat.cast_add, Nat.cast_one, List.cons.injEq, List.cons_ne_nil,
        and_false, false_and, false_or, true_and, exists_eq_left', IsParam]
      constructor
      · rintro (h1 | ⟨h2, -⟩ | ⟨-, hlt, hc⟩)
        · omega
        · omega
        · exact ⟨by omega, hc⟩
      · rintro ⟨hlt, hc⟩
        exact Or.inr (Or.inr ⟨by omega, by omega, hc⟩)

/-- A sequence that is not held back is one piece. -/
theorem piece_of_closed (h : Partial p) (hp : p ≠ []) (hcol : ¬ collects (p.length + 1) c) :
    Piece (p ++ [c]) := by
  rw [collects_iff h] at hcol
  cases h with
  | empty => exact absurd rfl hp
  | escape => exact .escape c fun hc => hcol (Or.inr (Or.inl ⟨rfl, hc⟩))
  | params ps hlen hps =>
      refine .sequence ps c hlen hps ?_
      by_cases h9 : ps.length = 9
      · exact Or.inl h9
      · exact Or.inr fun hc => hcol (Or.inr (Or.inr ⟨ps, rfl, by omega, hc⟩))

/-- A character that is not collected ends the sequence. -/
theorem feed_closed (hp : p ≠ []) (hcol : ¬ collects (p.length + 1) c) : (feed p c).1 = [] := by
  rw [feed, if_neg (fun h => hp h.1), if_neg hcol]
  split_ifs <;> rfl

/-- After a piece nothing is held back. -/
theorem Piece.closed {w : List Byte} (h : Piece w) : (feedAll [] w).1 = [] := by
  cases h with
  | plain c hc =>
      rw [feedAll, feedAll, feed, if_pos ⟨rfl, hc⟩]
  | escape c hc =>
      have hcol : ¬ collects (([esc] : List Byte).length + 1) c := by
        rw [collects_iff .escape]
        rintro (h | ⟨-, h⟩ | ⟨ps, h, -, -⟩)
        · cases h
        · exact hc h
        · cases h
      exact feed_closed (List.cons_ne_nil _ _) hcol
  | sequence ps c hlen hps hc =>
      have hcol : ¬ collects ((esc :: 91 :: ps).length + 1) c := by
        rw [collects_iff (.params ps hlen hps)]
        rintro (h | ⟨h, -⟩ | ⟨ps', h, hlt, hparam⟩)
        · cases h
        · cases h
        · obtain rfl : ps = ps' := (List.cons.inj (List.cons.inj h).2).2
          rcases hc with h9 | hno
          · omega
          · exact hno hparam
      have hrest := @feedAll_params [] ps (by rw [List.length_nil]; omega) hps
      have hopen : feedAll [] (esc :: 91 :: (ps ++ [c])) = feedAll [esc, 91] (ps ++ [c]) := rfl
      rw [hopen, feedAll_append, hrest]
      exact feed_closed (List.cons_ne_nil _ _) hcol

/-- Behind whole pieces nothing is collected. -/
theorem Pieces.closed {s : List Byte} (h : Pieces s) : (feedAll [] s).1 = [] := by
  induction h with
  | nil => rfl
  | snoc _ hw ih =>
      rw [feedAll_append, ih]
      exact hw.closed

/-- A string after which nothing is held back falls into pieces. -/
theorem pieces_of_closed {s front : List Byte} (hp : Partial p) (h : (feedAll p s).1 = [])
    (hfront : Pieces front) : Pieces (front ++ (p ++ s)) := by
  induction s generalizing p front with
  | nil =>
      obtain rfl : p = [] := h
      rwa [List.append_nil, List.append_nil]
  | cons c s ih =>
      rw [feedAll] at h
      cases feed_cases hp c with
      | plain hnil hc hf =>
          rw [hf] at h
          have hrest := ih .empty h (hfront.snoc (.plain c hc))
          rw [List.append_assoc] at hrest
          rw [hnil]
          exact hrest
      | held _ _ hf hpart =>
          rw [hf] at h
          have hrest := ih hpart h hfront
          rwa [List.append_assoc] at hrest
      | dropped hne hcol _ hf =>
          rw [hf] at h
          have hrest := ih .empty h (hfront.snoc (piece_of_closed hp hne hcol))
          rwa [List.nil_append, List.append_assoc, List.append_assoc] at hrest
      | complete hne hcol _ hf =>
          rw [hf] at h
          have hrest := ih .empty h (hfront.snoc (piece_of_closed hp hne hcol))
          rwa [List.nil_append, List.append_assoc, List.append_assoc] at hrest

/-- The buffer drops pairs exactly where pieces are `ESC m`. -/
theorem bares_pos {s : List Byte} (hp : Partial p) (h : 0 < bares p s) :
    ∃ front back, p ++ s = front ++ esc :: 109 :: back ∧ (feedAll [] front).1 = [] := by
  induction s generalizing p with
  | nil => exact absurd h (Nat.lt_irrefl 0)
  | cons c s ih =>
      by_cases hbare : p = [esc] ∧ c = 109
      · obtain ⟨rfl, rfl⟩ := hbare
        exact ⟨[], s, rfl, rfl⟩
      rw [bares, if_neg hbare, Nat.zero_add] at h
      by_cases hheld : (feed p c).1 = []
      · rw [hheld] at h
        obtain ⟨front, back, hs, hfront⟩ := ih .empty h
        refine ⟨p ++ c :: front, back, ?_, ?_⟩
        · rw [List.nil_append] at hs
          rw [hs, List.append_assoc]
          rfl
        · rw [feedAll_append, feedAll_partial hp]
          show (feedAll (feed p c).1 front).1 = []
          rwa [hheld]
      · cases feed_cases hp c with
        | held _ _ hf hpart =>
            rw [hf] at h
            obtain ⟨front, back, hs, hfront⟩ := ih hpart h
            rw [List.append_assoc] at hs
            exact ⟨front, back, hs, hfront⟩
        | plain _ _ hf => exact absurd (congrArg Prod.fst hf) hheld
        | dropped _ _ _ hf => exact absurd (congrArg Prod.fst hf) hheld
        | complete _ _ _ hf => exact absurd (congrArg Prod.fst hf) hheld

/-- A bare ESC m is one that is counted. -/
theorem bareEscape_iff (s : List Byte) : BareEscape s ↔ 0 < bares [] s := by
  constructor
  · rintro ⟨front, back, hfront, rfl⟩
    rw [bares_append, hfront.closed]
    have hopen : bares [] (esc :: 109 :: back) = 1 + bares (feed [esc] 109).1 back := by
      rw [bares, if_neg (fun h => List.cons_ne_nil _ _ h.1.symm), Nat.zero_add]
      show bares [esc] (109 :: back) = _
      rw [bares, if_pos ⟨rfl, rfl⟩]
    omega
  · intro h
    obtain ⟨front, back, hs, hfront⟩ := bares_pos .empty h
    have hpieces := pieces_of_closed .empty hfront .nil
    exact ⟨front, back, hpieces, hs⟩

/-! ## Bytes that are kept -/

/-- A text in front is printed as it is. -/
theorem Printed.keep {s out : List Byte} (w : List Byte) (h : Printed s out) :
    Printed (w ++ s) (w ++ out) := by
  induction w with
  | nil => exact h
  | cons c w ih => exact .byte c ih

/-- Without such pairs, all but complete sequences comes out. -/
theorem printed_of_bares {s : List Byte} (hp : Partial p) (h : bares p s = 0) :
    Printed (p ++ s) ((feedAll p s).2 ++ (feedAll p s).1) := by
  induction s generalizing p with
  | nil =>
      have hkeep := Printed.nil.keep p
      rw [List.append_nil] at hkeep ⊢
      exact hkeep
  | cons c s ih =>
      rw [bares, Nat.add_eq_zero_iff] at h
      obtain ⟨hbare, hrest⟩ := h
      have hs := ih (hp.feed c) hrest
      rw [feedAll]
      cases feed_cases hp c with
      | plain hnil hc hf =>
          rw [hf] at hs ⊢
          rw [hnil]
          exact hs.byte c
      | held _ _ hf _ =>
          rw [hf] at hs ⊢
          rwa [List.append_assoc] at hs
      | dropped _ _ _ hf =>
          rw [hf] at hs ⊢
          have hkeep := hs.keep (p ++ [c])
          rwa [List.nil_append, List.append_assoc, ← List.append_assoc (p ++ [c])] at hkeep
      | complete hne hcol hc hf =>
          rw [hf] at hs ⊢
          rw [List.append_cons, hc]
          refine .sequence ?_ hs
          cases hp with
          | empty => exact absurd rfl hne
          | escape =>
              rw [if_pos ⟨rfl, hc⟩] at hbare
              cases hbare
          | params ps hlen hps => exact ⟨ps, rfl, hlen, hps⟩

/-- The surplus of `ESC` over `[`, which complete sequences do not change. -/
def surplus (s : List Byte) : Int := s.count esc - s.count 91

/-- What is swallowed of two texts. -/
theorem surplus_append (s t : List Byte) : surplus (s ++ t) = surplus s + surplus t := by
  rw [surplus, surplus, surplus, List.count_append, List.count_append]
  omega

theorem surplus_params {ps : List Byte} (h : ∀ d ∈ ps, IsParam d) : surplus ps = 0 := by
  rw [surplus, List.count_eq_zero.mpr fun hm => (isParam_ne (h _ hm)).1 rfl,
    List.count_eq_zero.mpr fun hm => (isParam_ne (h _ hm)).2.1 rfl]
  rfl

/-- Nothing of a colour sequence is printed, so nothing of it is missing. -/
theorem surplus_sequence {ps : List Byte} (h : ∀ d ∈ ps, IsParam d) :
    surplus (esc :: 91 :: (ps ++ [109])) = 0 := by
  have hsplit : surplus (esc :: 91 :: (ps ++ [109])) = surplus [esc, 91] + surplus (ps ++ [109]) :=
    surplus_append [esc, 91] (ps ++ [109])
  rw [hsplit, surplus_append, surplus_params h]
  decide

/-- What is printed is short of what is counted. -/
theorem Printed.surplus_eq {s out : List Byte} (h : Printed s out) : surplus s = surplus out := by
  induction h with
  | nil => rfl
  | @byte c s out _ ih =>
      have hs : surplus (c :: s) = surplus [c] + surplus s := surplus_append [c] s
      have hout : surplus (c :: out) = surplus [c] + surplus out := surplus_append [c] out
      rw [hs, hout, ih]
  | sequence hw _ ih =>
      obtain ⟨ps, rfl, -, hps⟩ := hw
      rw [surplus_append, surplus_sequence hps, ih, Int.zero_add]

/-- Each pair that is dropped takes an `ESC` away. -/
theorem surplus_feedAll {s : List Byte} (hp : Partial p) :
    surplus (p ++ s) = surplus ((feedAll p s).2 ++ (feedAll p s).1) + bares p s := by
  induction s generalizing p with
  | nil =>
      rw [List.append_nil, feedAll, bares, List.nil_append]
      exact (Int.add_zero _).symm
  | cons c s ih =>
      have hs := ih (hp.feed c)
      rw [feedAll, bares]
      dsimp only
      rw [List.append_assoc, surplus_append (feed p c).2, Nat.cast_add]
      cases feed_cases hp c with
      | plain hnil hc hf =>
          -- a byte outside escapes
          rw [hf, List.nil_append] at hs
          rw [hf, hnil, if_neg (fun h => List.cons_ne_nil _ _ h.1.symm)]
          have hcons : surplus ([] ++ c :: s) = surplus [c] + surplus s := surplus_append [c] s
          rw [hcons, hs]
          dsimp only
          omega
      | held hne hcol hf _ =>
          -- a byte that is held back, which completes no pair
          have hbare : ¬ (p = [esc] ∧ c = 109) := by
            rintro ⟨rfl, rfl⟩
            exact absurd hcol (by decide)
          rw [hf, List.append_assoc] at hs
          rw [hf, if_neg hbare]
          have hnil : surplus [] = 0 := rfl
          have hcons : p ++ c :: s = p ++ ([c] ++ s) := rfl
          rw [hcons, hs]
          dsimp only
          rw [hnil]
          omega
      | dropped _ _ hc hf =>
          -- an escape that is given up and printed
          rw [hf, List.nil_append] at hs
          rw [hf, if_neg (fun h => hc h.2), List.append_cons, surplus_append, hs]
          dsimp only
          omega
      | complete hne _ hc hf =>
          -- an escape that is complete, and the pair among them
          rw [hf, List.nil_append] at hs
          have hnil : surplus [] = 0 := rfl
          rw [hf, hc, List.append_cons, surplus_append, hs]
          dsimp only
          rw [hnil]
          cases hp with
          | empty => exact absurd rfl hne
          | escape =>
              have hpair : surplus ([esc] ++ [109]) = 1 := by decide
              rw [if_pos ⟨rfl, rfl⟩, hpair]
              omega
          | params ps hlen hps =>
              have hseq : surplus (esc :: 91 :: ps ++ [109]) = 0 := surplus_sequence hps
              rw [if_neg (fun h => by cases h.1), hseq]
              omega

/-- A printer prints all of a string if its buffer drops no such pair. -/
theorem printsAll_of_bares {s : List Byte} (h : bares [] s = 0) : PrintsAll s := by
  refine ⟨emitted s, printed_of_bares .empty h, ?_⟩
  intro o emit I hsink m hI d hd
  exact print_emits hsink hI hd s

/-- The log printer shows what is emitted. -/
theorem PrintsAll.bares {s : List Byte} (h : PrintsAll s) : bares [] s = 0 := by
  obtain ⟨out, hprinted, hout⟩ := h
  have hlog := hout logHolder logEmit _ log_sink clearScreen trivial 2 (Nat.le_refl 2)
  obtain ⟨n, u, m', -, ⟨-, hem⟩, -, hem'⟩ :=
    hlog.both (print_emits log_sink (m := clearScreen) trivial (Nat.le_refl 2) s)
  obtain rfl : out = emitted s := List.append_cancel_left (hem.port.symm.trans hem'.port)
  have hsurplus := surplus_feedAll (p := []) (s := s) .empty
  rw [List.nil_append, hprinted.surplus_eq, emitted] at hsurplus
  omega

/-- **EVERY PRINTER** behind an escape buffer prints all of a string exactly if
    no piece of it is `ESC m`. -/
theorem printsAll_iff (s : List Byte) : PrintsAll s ↔ ¬ BareEscape s := by
  rw [bareEscape_iff]
  constructor
  · intro h hbare
    rw [h.bares] at hbare
    exact Nat.lt_irrefl 0 hbare
  · exact fun h => printsAll_of_bares (Nat.eq_zero_of_not_pos h)

/-- `ESC m` is dropped. -/
theorem bare_escape_dropped : ¬ ∀ s, PrintsAll s := by
  intro h
  exact absurd (h [esc, 109]).bares (by decide)

end AnsiEscapes
