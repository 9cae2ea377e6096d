import Cs61.ConsoleEscapes

/-! # Printing to the console is safe

    Between two bytes of a message an escape buffer holds back the beginning of
    an escape sequence, and the cursor is on the screen or one past its end.
    While a buffer is flushed it looks at no byte, so the calls of `putc` are
    nested two deep for a console printer and three deep for an error printer.

    * `consolePutc_spec`, `moveCursor_spec` — one call, of any object;
    * `print_safe` — whole messages. -/

namespace ConsolePrinter

open Effects LoopRules

variable {m₀ m : Machine} {p : List Byte} {c : Byte}

/-- Safety is about the cells, the cursor and the blank lines. -/
theorem Safe.congr {m' : Machine} (h : Safe m₀ m) (hcell : m'.cell = m.cell)
    (hblank : m'.scrollBlank = m.scrollBlank) (hseen : m'.seen = m.seen)
    (hcells : m'.cells = m.cells) : Safe m₀ m' :=
  ⟨hcell ▸ h.cell_nonneg, hcell ▸ h.cell_le, hblank ▸ h.scrollBlank, hseen ▸ h.seen,
    hcells ▸ h.cells⟩

/-- The position after a `putc` is listed. -/
theorem Safe.record (h : Safe m₀ m) : Safe m₀ { m with seen := m.seen ++ [m.cell] } := by
  refine ⟨h.cell_nonneg, h.cell_le, h.scrollBlank, ?_, h.cells⟩
  intro x hx
  rcases List.mem_append.mp hx with hx | hx
  · exact h.seen x hx
  · rw [List.mem_singleton.mp hx]
    exact ⟨h.cell_nonneg, h.cell_le⟩

/-! ## The log printer -/

/-- While its buffer is flushed, the log printer sends every byte on. -/
theorem logPutc_flushing {self : Byte → M Unit} (h : m.logEbuf.len < 0) :
    Ends (logPutc self c) m fun _ m' => m' = { m with port := m.port ++ [c] } := by
  refine Ends.bind ((ebufPutc_pass (o := logHolder) (Or.inl h)).mono ?_)
  rintro r _ ⟨rfl, rfl⟩
  rw [if_neg Bool.false_ne_true]
  exact Ends.modify rfl

/-- What a byte does to the log printer. -/
theorem logPutc_spec (d : Nat) (hb : Pending m.logEbuf p) (hp : Partial p) (c : Byte) :
    Ends (logPutc (logVirtual (d + 1)) c) m fun _ m' => ∃ b color, Pending b (feed p c).1
      ∧ m' = { m with logEbuf := b, logColor := color, port := m.port ++ (feed p c).2 } := by
  cases feed_cases hp c with
  | plain hnil hc hf =>
      have hlen : m.logEbuf.len = 0 := by rw [hb.1, hnil]; rfl
      refine Ends.bind ((ebufPutc_pass (o := logHolder) (Or.inr ⟨hlen, hc⟩)).mono ?_)
      rintro r s ⟨rfl, hs⟩
      rw [if_neg Bool.false_ne_true, hf, hs]
      rw [hnil] at hb
      exact Ends.modify ⟨m.logEbuf, m.logColor, hb, rfl⟩
  | held hne hcol hf _ =>
      refine Ends.bind (ebufPutc_take (o := logHolder) rfl hb hp hne ?_)
      rw [if_pos hcol]
      refine Ends.pure ?_
      rw [if_pos rfl, hf]
      refine Ends.pure ⟨_, m.logColor, hb.push c, ?_⟩
      rw [List.append_nil]
      rfl
  | dropped hne hcol hc hf =>
      refine Ends.bind (ebufPutc_take (o := logHolder) rfl hb hp (fun h => hne h.1) ?_)
      rw [if_neg hcol, if_pos hc]
      have hw : p ++ [c] ≠ [] := List.append_ne_nil_of_left_ne_nil hne [c]
      refine (flush_spec (o := logHolder) (hb.push c)
        (fun L s => ∃ out, out ++ L = p ++ [c] ∧ s = { m with
          logEbuf := (m.logEbuf.push c).withLen (-1), port := m.port ++ out }) ?_ ?_ rfl hw
        ⟨[], rfl, ?_⟩).mono ?_
      · rintro L s ⟨out, -, rfl⟩
        rfl
      · rintro d' L s ⟨out, hout, rfl⟩
        refine (logPutc_flushing (by show (-1 : Int) < 0; omega)).mono ?_
        rintro _ _ rfl
        refine ⟨out ++ [d'], by rw [List.append_assoc]; exact hout, ?_⟩
        rw [← List.append_assoc]
      · rw [List.append_nil]
        rfl
      · rintro _ _ ⟨s, ⟨out, hout, rfl⟩, rfl⟩
        rw [List.append_nil] at hout
        rw [if_pos rfl, hf, hout]
        exact Ends.pure ⟨_, m.logColor, Pending.nil _, rfl⟩
  | complete hne hcol hc hf =>
      refine Ends.bind (ebufPutc_take (o := logHolder) rfl hb hp (fun h => hne h.1) ?_)
      rw [if_neg hcol, if_neg (not_not.mpr hc)]
      refine Ends.bind (Ends.modify (Ends.modify ?_))
      rw [if_pos rfl, hf]
      refine Ends.pure ⟨_, parseColor (m.logEbuf.push c), Pending.nil (m.logEbuf.push c), ?_⟩
      rw [List.append_nil]
      rfl

/-! ## The console printer in an object -/

/-- While its buffer is flushed, a console printer draws every byte. -/
theorem consolePutc_flushing {self : Byte → M Unit} (h : Safe m₀ m) (hneg : m.ebuf.len < 0) :
    Ends (consolePutc self c) m fun _ m' => Safe m₀ m' ∧ Undrawn m m' := by
  refine Ends.bind ((ebufPutc_pass (o := consoleHolder) (Or.inl hneg)).mono ?_)
  rintro r _ ⟨rfl, rfl⟩
  rw [if_neg Bool.false_ne_true]
  refine Ends.bind ((draw_spec c h).mono ?_)
  rintro _ m' ⟨h', hsame⟩
  exact Ends.modify ⟨h'.record, hsame.ebuf, hsame.logEbuf, hsame.port, hsame.cursorpos⟩

section Objects

variable {self : Byte → M Unit} {K : List Byte → EscapeBuffer → List Byte → Prop}

/-- What the virtual `putc` of an object does while the buffer of the console
    printer is flushed: `K` follows the log, for the bytes that are still to
    come. -/
def Follows (m₀ : Machine) (self : Byte → M Unit)
    (K : List Byte → EscapeBuffer → List Byte → Prop) : Prop :=
  ∀ d L m, Safe m₀ m → m.ebuf.len < 0 → K (d :: L) m.logEbuf m.port →
    Ends (self d) m fun _ m' => Safe m₀ m' ∧ m'.ebuf = m.ebuf ∧ K L m'.logEbuf m'.port

/-- A flush of the buffer of the console printer. -/
theorem consoleFlush_spec {b : EscapeBuffer} {w : List Byte} (hself : Follows m₀ self K)
    (h : Safe m₀ m) (hb : Pending b w) (hm : m.ebuf = b) (hw : w ≠ [])
    (hK : K w m.logEbuf m.port) :
    Ends (flush consoleHolder self) m fun _ m' =>
      Safe m₀ m' ∧ Pending m'.ebuf [] ∧ K [] m'.logEbuf m'.port := by
  refine (flush_spec (o := consoleHolder) hb
    (fun L s => Safe m₀ s ∧ s.ebuf = b.withLen (-1) ∧ K L s.logEbuf s.port) ?_ ?_ hm hw
    ⟨h.congr rfl rfl rfl rfl, rfl, hK⟩).mono ?_
  · rintro L s ⟨-, hs, -⟩
    exact hs
  · rintro d L s ⟨hs, hbuf, hKs⟩
    refine (hself d L s hs (by rw [hbuf]; show (-1 : Int) < 0; omega) hKs).mono ?_
    rintro _ s' ⟨hs', hbuf', hKs'⟩
    exact ⟨hs', hbuf'.trans hbuf, hKs'⟩
  · rintro _ _ ⟨s, ⟨hs, -, hKs⟩, rfl⟩
    exact ⟨hs.congr rfl rfl rfl rfl, Pending.nil b, hKs⟩

/-- **PUTC** of a console printer: an abandoned sequence goes through the
    virtual `putc` of the object. -/
theorem consolePutc_spec (hself : Follows m₀ self K) (h : Safe m₀ m) (hb : Pending m.ebuf p)
    (hp : Partial p) (hK : K (abandoned p c) m.logEbuf m.port) :
    Ends (consolePutc self c) m fun _ m' =>
      Safe m₀ m' ∧ Pending m'.ebuf (feed p c).1 ∧ K [] m'.logEbuf m'.port := by
  rw [abandoned] at hK
  -- by what becomes of the byte in the buffer
  cases feed_cases hp c with
  | plain hnil hc hf =>
      have hlen : m.ebuf.len = 0 := by rw [hb.1, hnil]; rfl
      rw [if_pos hnil] at hK
      refine Ends.bind ((ebufPutc_pass (o := consoleHolder) (Or.inr ⟨hlen, hc⟩)).mono ?_)
      rintro r _ ⟨rfl, rfl⟩
      rw [if_neg Bool.false_ne_true, hf]
      -- the byte is drawn
      refine Ends.bind ((draw_spec c h).mono ?_)
      rintro _ m' ⟨h', hsame⟩
      refine Ends.modify ⟨h'.record, ?_, ?_⟩
      · show Pending m'.ebuf []
        rw [hsame.ebuf, ← hnil]
        exact hb
      · show K [] m'.logEbuf m'.port
        rw [hsame.logEbuf, hsame.port]
        exact hK
  | held hne hcol hf _ =>
      have hK' : K [] m.logEbuf m.port := by
        rw [hf] at hK
        split at hK <;> exact hK
      refine Ends.bind (ebufPutc_take (o := consoleHolder) rfl hb hp hne ?_)
      rw [if_pos hcol]
      refine Ends.pure ?_
      rw [if_pos rfl, hf]
      have hsafe : Safe m₀ (consoleHolder.setEbuf (m.ebuf.push c) m) := h.congr rfl rfl rfl rfl
      exact Ends.bind (Ends.pure (Ends.modify ⟨hsafe.record, hb.push c, hK'⟩))
  | dropped hne hcol hc hf =>
      rw [if_neg hne, hf] at hK
      refine Ends.bind (ebufPutc_take (o := consoleHolder) rfl hb hp (fun h => hne h.1) ?_)
      rw [if_neg hcol, if_pos hc]
      have hsafe : Safe m₀ (consoleHolder.setEbuf (m.ebuf.push c) m) := h.congr rfl rfl rfl rfl
      -- the buffer is printed through the virtual `putc`
      refine (consoleFlush_spec hself hsafe (hb.push c) rfl
        (List.append_ne_nil_of_left_ne_nil hne [c]) hK).mono ?_
      rintro _ m' ⟨h', hb', hK'⟩
      rw [if_pos rfl, hf]
      exact Ends.bind (Ends.pure (Ends.modify ⟨h'.record, hb', hK'⟩))
  | complete hne hcol hc hf =>
      rw [if_neg hne, hf] at hK
      refine Ends.bind (ebufPutc_take (o := consoleHolder) rfl hb hp (fun h => hne h.1) ?_)
      -- the colour is set, and the buffer emptied
      rw [if_neg hcol, if_neg (not_not.mpr hc)]
      refine Ends.bind (Ends.modify (Ends.modify ?_))
      rw [if_pos rfl, hf]
      have hsafe : Safe m₀ (consoleHolder.setEbuf ((m.ebuf.push c).withLen 0)
          (consoleHolder.setColor (parseColor (m.ebuf.push c))
            (consoleHolder.setEbuf (m.ebuf.push c) m))) := h.congr rfl rfl rfl rfl
      exact Ends.bind (Ends.pure (Ends.modify ⟨hsafe.record, Pending.nil (m.ebuf.push c), hK⟩))

/-- **MOVE CURSOR**: an unfinished sequence goes through the virtual `putc`. -/
theorem moveCursor_spec (hself : Follows m₀ self K) (h : Safe m₀ m) (hb : Pending m.ebuf p)
    (hK : K p m.logEbuf m.port) :
    Ends (moveCursor self) m fun _ m' =>
      Safe m₀ m' ∧ (0 ≤ m'.cursorpos ∧ m'.cursorpos ≤ 2000) ∧ K [] m'.logEbuf m'.port := by
  have hdone : ∀ s, Safe m₀ s → K [] s.logEbuf s.port →
      Ends (modify fun s => { s with cursorpos := s.cell } : M Unit) s fun _ m' =>
        Safe m₀ m' ∧ (0 ≤ m'.cursorpos ∧ m'.cursorpos ≤ 2000) ∧ K [] m'.logEbuf m'.port := by
    intro s hs hKs
    exact Ends.modify ⟨hs.congr rfl rfl rfl rfl, ⟨hs.cell_nonneg, hs.cell_le⟩, hKs⟩
  refine Ends.bind ?_
  by_cases hnil : p = []
  · refine Ends.bind (Ends.get ?_)
    have hlen : m.ebuf.len = 0 := by rw [hb.1, hnil]; rfl
    rw [if_pos (by show m.ebuf.len ≤ 0; omega)]
    rw [hnil] at hK
    exact Ends.pure (hdone m h hK)
  · refine (consoleFlush_spec hself h hb rfl hnil hK).mono ?_
    rintro _ s ⟨hs, -, hKs⟩
    exact hdone s hs hKs

end Objects

/-! ## A console printer -/

/-- The console's `putc` collects as every printer does. -/
theorem consoleVirtual_follows (m₀ : Machine) (d : Nat) :
    Follows m₀ (consoleVirtual (d + 1)) fun _ _ _ => True := by
  intro c L s hs hneg _
  refine (consolePutc_flushing hs hneg).mono ?_
  rintro _ s' ⟨hs', hsame⟩
  exact ⟨hs', hsame.ebuf, trivial⟩

/-- What holds between two bytes. -/
def Between (m₀ m : Machine) : Prop := Safe m₀ m ∧ ∃ p, Partial p ∧ Pending m.ebuf p

/-- Printing to the console is safe, and leaves the cursor on the screen or behind it. -/
theorem printConsole_safe (d : Nat) (cpos : Int) (mode : ScrollMode) (s : List Byte)
    (h0 : 0 ≤ m.cursorpos) (h1 : m.cursorpos ≤ 2000) :
    Ends (printConsole (d + 2) cpos mode s) m fun _ m' =>
      Safe m m' ∧ 0 ≤ m'.cursorpos ∧ m'.cursorpos ≤ 2000 := by
  have hstart : Between m (consoleNew cpos mode m) := by
    refine ⟨⟨?_, ?_, ?_, ?_, fun _ _ => rfl⟩, [], .empty, Pending.nil m.ebuf⟩
    · rw [consoleNew, endCpos]
      dsimp only
      split_ifs <;> omega
    · rw [consoleNew, endCpos]
      dsimp only
      split_ifs <;> omega
    · show (-1 : Int) ≤ 24
      omega
    · intro x hx
      cases hx
  refine Ends.bind (Ends.modify (Ends.bind ?_))
  refine (Ends.each (fun _ s => Between m s) ?_ hstart).mono ?_
  · rintro c L s' ⟨hs, p, hp, hb⟩
    refine (consolePutc_spec (consoleVirtual_follows m d) hs hb hp trivial).mono ?_
    rintro _ s'' ⟨hs'', hb'', -⟩
    exact ⟨hs'', _, hp.feed c, hb''⟩
  · rintro _ s' ⟨hs, p, hp, hb⟩
    refine (moveCursor_spec (consoleVirtual_follows m (d + 1)) hs hb trivial).mono ?_
    rintro _ s'' ⟨hs'', hcursor, -⟩
    exact ⟨hs'', hcursor⟩

/-! ## An error printer -/

/-- What the log still gets, for the bytes that are still to come: `out` in
    all, and then the log printer holds `q` back. -/
def LogRest (q out : List Byte) (L : List Byte) (b : EscapeBuffer) (port : List Byte) : Prop :=
  ∃ p, Partial p ∧ Pending b p ∧ (feedAll p L).1 = q ∧ port ++ (feedAll p L).2 = out

/-- The error printer's `putc` collects as every printer does, and the log gets its copy. -/
theorem errorVirtual_follows (m₀ : Machine) (d : Nat) (q out : List Byte) :
    Follows m₀ (errorVirtual (d + 2)) (LogRest q out) := by
  rintro c L s hs hneg ⟨p, hp, hb, hq, hout⟩
  refine Ends.bind ((logPutc_spec d hb hp c).mono ?_)
  rintro _ s' ⟨b, color, hb', rfl⟩
  have hsafe : Safe m₀ { s with
      logEbuf := b, logColor := color, port := s.port ++ (feed p c).2 } := hs.congr rfl rfl rfl rfl
  refine (consolePutc_flushing hsafe hneg).mono ?_
  rintro _ s'' ⟨hs'', hsame⟩
  refine ⟨hs'', hsame.ebuf, (feed p c).1, hp.feed c, ?_, hq, ?_⟩
  · rw [hsame.logEbuf]
    exact hb'
  · rw [hsame.port]
    show (s.port ++ (feed p c).2) ++ _ = out
    rw [List.append_assoc]
    exact hout

/-- An abandoned sequence is sent to the log once more. -/
theorem logRest_abandoned {b : EscapeBuffer} (hp : Partial p) (hb : Pending b (feed p c).1)
    (port : List Byte) :
    LogRest (feed p c).1 (port ++ abandoned p c) (abandoned p c) b port := by
  refine ⟨(feed p c).1, hp.feed c, hb, ?_⟩
  rw [abandoned]
  by_cases hnil : p = []
  · rw [if_pos hnil]
    exact ⟨rfl, rfl⟩
  rw [if_neg hnil]
  cases feed_cases hp c with
  | plain hp' => exact absurd hp' hnil
  | held _ _ hf => rw [hf]; exact ⟨rfl, rfl⟩
  | complete _ _ _ hf => rw [hf]; exact ⟨rfl, rfl⟩
  | dropped _ _ _ hf =>
      have htwice := feedAll_dropped hp hf
      rw [hf]
      rw [htwice]
      exact ⟨rfl, rfl⟩

/-- **PUTC** of an error printer: both buffers hold the same bytes back. -/
theorem errorVirtual_spec (d : Nat) (h : Safe m₀ m) (hp : Partial p) (hb : Pending m.ebuf p)
    (hl : Pending m.logEbuf p) (c : Byte) :
    Ends (errorVirtual (d + 3) c) m fun _ m' =>
      Safe m₀ m' ∧ Pending m'.ebuf (feed p c).1 ∧ Pending m'.logEbuf (feed p c).1
        ∧ m'.port = m.port ++ (feed p c).2 ++ abandoned p c := by
  refine Ends.bind ((logPutc_spec (d + 1) hl hp c).mono ?_)
  rintro _ s ⟨b, color, hb', rfl⟩
  have hsafe : Safe m₀ { m with
      logEbuf := b, logColor := color, port := m.port ++ (feed p c).2 } := h.congr rfl rfl rfl rfl
  refine (consolePutc_spec (errorVirtual_follows m₀ d _ _) hsafe hb hp
    (logRest_abandoned hp hb' _)).mono ?_
  rintro _ s' ⟨hs', hbuf, q, -, hq, hnext, hport⟩
  refine ⟨hs', hbuf, ?_, ?_⟩
  · rw [← hnext]
    exact hq
  · rw [← hport]
    exact (List.append_nil _).symm

/-- What an error printer sends to the log for a string, after `p`. -/
def errorLog : List Byte → List Byte → List Byte
  | _, [] => []
  | p, c :: s => (feed p c).2 ++ abandoned p c ++ errorLog (feed p c).1 s

/-- What holds between two bytes, when `s` is still to come and the log gets
    `out` in all. -/
def Balanced (m₀ : Machine) (q out : List Byte) (s : List Byte) (m : Machine) : Prop :=
  Safe m₀ m ∧ ∃ p, Partial p ∧ Pending m.ebuf p ∧ Pending m.logEbuf p
    ∧ (feedAll p s).1 = q ∧ m.port ++ errorLog p s = out

/-- Before the first character the log and the sequence agree. -/
theorem Balanced.start (s : List Byte) (h0 : 0 ≤ m.cursorpos) (h1 : m.cursorpos ≤ 2000) :
    Balanced m (feedAll [] s).1 (m.port ++ errorLog [] s) s (errorNew m) := by
  refine ⟨⟨?_, ?_, ?_, ?_, fun _ _ => rfl⟩, [], .empty, Pending.nil m.ebuf,
    Pending.nil m.logEbuf, rfl, rfl⟩
  · rw [errorNew, consoleNew, endCpos, columns]
    dsimp only
    split_ifs <;> omega
  · rw [errorNew, consoleNew, endCpos, columns]
    dsimp only
    split_ifs <;> omega
  · show (-1 : Int) ≤ 24
    omega
  · intro x hx
    cases hx

/-- A message through an error printer: the console, and what the log gets. -/
theorem printError_spec (d : Nat) (s : List Byte) (h0 : 0 ≤ m.cursorpos)
    (h1 : m.cursorpos ≤ 2000) :
    Ends (printError (d + 3) s) m fun _ m' =>
      Safe m m' ∧ (0 ≤ m'.cursorpos ∧ m'.cursorpos ≤ 2000)
        ∧ m'.port = m.port ++ errorLog [] s ++ (feedAll [] s).1 ++ (feedAll [] s).1 := by
  refine Ends.bind (Ends.modify (Ends.bind ?_))
  refine (Ends.each (Balanced m (feedAll [] s).1 (m.port ++ errorLog [] s)) ?_
    (Balanced.start s h0 h1)).mono ?_
  · rintro c L s' ⟨hs, p, hp, hb, hl, hq, hout⟩
    refine (errorVirtual_spec d hs hp hb hl c).mono ?_
    rintro _ s'' ⟨hs'', hb', hl', hport⟩
    refine ⟨hs'', _, hp.feed c, hb', hl', hq, ?_⟩
    rw [hport, ← hout, errorLog, List.append_assoc, List.append_assoc, List.append_assoc]
  · rintro _ s' ⟨hs, p, hp, hb, hl, hq, hout⟩
    have hpq : p = (feedAll [] s).1 := hq
    rw [errorLog, List.append_nil] at hout
    refine (moveCursor_spec (errorVirtual_follows m (d + 1) [] (s'.port ++ (p ++ p))) hs hb
      ⟨p, hp, hl, ?_, ?_⟩).mono ?_
    · rw [feedAll_twice hp]
    · rw [feedAll_twice hp]
    · rintro _ s'' ⟨hs'', hcursor, q, -, -, -, hport⟩
      refine ⟨hs'', hcursor, ?_⟩
      rw [feedAll, List.append_nil, hout, hpq] at hport
      rw [hport, ← List.append_assoc]

/-- **PRINTING IS SAFE**: for every content of the console, a message through a
    new console printer or error printer ends without a fault; every store is
    into the console, the cursor stays on it or one past its end, and so does
    the position it leaves. -/
theorem print_safe (m : Machine) (h0 : 0 ≤ m.cursorpos) (h1 : m.cursorpos ≤ 2000) (d : Nat)
    (hd : 3 ≤ d) (s : List Byte) :
    (∀ cpos mode, Ends (printConsole d cpos mode s) m fun _ m' =>
        (∀ x ∈ m'.seen, 0 ≤ x ∧ x ≤ 2000) ∧ (∀ i, i < 0 ∨ 2000 ≤ i → m'.cells i = m.cells i)
          ∧ 0 ≤ m'.cursorpos ∧ m'.cursorpos ≤ 2000)
      ∧ Ends (printError d s) m fun _ m' =>
        (∀ x ∈ m'.seen, 0 ≤ x ∧ x ≤ 2000) ∧ (∀ i, i < 0 ∨ 2000 ≤ i → m'.cells i = m.cells i)
          ∧ 0 ≤ m'.cursorpos ∧ m'.cursorpos ≤ 2000 := by
  obtain ⟨k, rfl⟩ : ∃ k, d = k + 3 := ⟨d - 3, by omega⟩
  constructor
  · intro cpos mode
    refine (printConsole_safe (k + 1) cpos mode s h0 h1).mono ?_
    rintro _ m' ⟨h, hcursor⟩
    exact ⟨h.seen, h.cells, hcursor⟩
  · refine (printError_spec k s h0 h1).mono ?_
    rintro _ m' ⟨h, hcursor, -⟩
    exact ⟨h.seen, h.cells, hcursor⟩

/-- A console before the first message, with the cursor past its end. -/
def clearScreen : Machine where
  cells _ := 0x0720#16
  cursorpos := 2000
  cell := 0
  scrollMode := .off
  scrollBlank := -1
  ebuf := { buf := fun _ => 0, len := 0 }
  color := colorGray
  logEbuf := { buf := fun _ => 0, len := 0 }
  logColor := colorGray
  port := []
  seen := []

/-- A newline and an abandoned sequence. -/
theorem print_safe_small :
    (∀ cpos mode, Ends (printConsole 3 cpos mode [newline, esc, 91, 120]) clearScreen fun _ m' =>
        (∀ x ∈ m'.seen, 0 ≤ x ∧ x ≤ 2000)
          ∧ (∀ i, i < 0 ∨ 2000 ≤ i → m'.cells i = clearScreen.cells i)
          ∧ 0 ≤ m'.cursorpos ∧ m'.cursorpos ≤ 2000)
      ∧ Ends (printError 3 [newline, esc, 91, 120]) clearScreen fun _ m' =>
        (∀ x ∈ m'.seen, 0 ≤ x ∧ x ≤ 2000)
          ∧ (∀ i, i < 0 ∨ 2000 ≤ i → m'.cells i = clearScreen.cells i)
          ∧ 0 ≤ m'.cursorpos ∧ m'.cursorpos ≤ 2000 :=
  print_safe clearScreen (by decide) (by decide) 3 (by decide) _

end ConsolePrinter
