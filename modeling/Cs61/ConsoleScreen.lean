import Cs61.ConsolePrinter

/-! # The screen of a `console_printer`

    Drawing a byte scrolls until the cursor is on the screen, and then stores
    cells from there on.  `Safe` is what it keeps: the cursor is at most one
    past the last cell, and no other memory changes.

    * `scroll_spec` — one call of `scroll`;
    * `draw_spec` — a byte that is not held back. -/

namespace ConsolePrinter

open Effects LoopRules

variable {m₀ m : Machine}

/-- What every operation keeps, from a state `m₀` on. -/
structure Safe (m₀ m : Machine) : Prop where
  cell_nonneg : 0 ≤ m.cell
  cell_le : m.cell ≤ 2000
  scrollBlank : m.scrollBlank ≤ 24
  seen : ∀ x ∈ m.seen, 0 ≤ x ∧ x ≤ 2000
  cells : ∀ i, i < 0 ∨ 2000 ≤ i → m.cells i = m₀.cells i

/-- The parts of the state that drawing leaves alone. -/
structure Undrawn (m m' : Machine) : Prop where
  ebuf : m'.ebuf = m.ebuf
  logEbuf : m'.logEbuf = m.logEbuf
  port : m'.port = m.port
  cursorpos : m'.cursorpos = m.cursorpos

theorem Undrawn.refl (m : Machine) : Undrawn m m := ⟨rfl, rfl, rfl, rfl⟩

theorem Undrawn.trans {m' m'' : Machine} (h : Undrawn m m') (h' : Undrawn m' m'') :
    Undrawn m m'' :=
  ⟨h'.ebuf.trans h.ebuf, h'.logEbuf.trans h.logEbuf, h'.port.trans h.port,
    h'.cursorpos.trans h.cursorpos⟩

/-! ## Cells -/

/-- The check of a cell. -/
theorem inBounds {i : Int} (hlo : 0 ≤ i) (hhi : i < 2000) :
    (decide (0 ≤ i) && decide (i < endCpos)) = true := by
  rw [Bool.and_eq_true, decide_eq_true_iff, decide_eq_true_iff, endCpos]
  exact ⟨hlo, hhi⟩

/-- A cell is read. -/
theorem readCell_spec {i : Int} (hlo : 0 ≤ i) (hhi : i < 2000) :
    Ends (readCell i) m fun v m' => m' = m ∧ v = m.cells i :=
  Ends.bind (Ends.check (inBounds hlo hhi) (Ends.bind (Ends.get (Ends.pure ⟨rfl, rfl⟩))))

/-- A cell is written. -/
theorem writeCell_spec {i : Int} {v : Cell} (hlo : 0 ≤ i) (hhi : i < 2000) :
    Ends (writeCell i v) m fun _ m' => m' = { m with cells := Function.update m.cells i v } :=
  Ends.bind (Ends.check (inBounds hlo hhi) (Ends.modify rfl))

/-- A row of the screen can be looked at. -/
theorem lineIsBlank_spec {row : Int} (hlo : 0 ≤ row) (hhi : row ≤ 24) :
    Ends (lineIsBlank row) m fun _ m' => m' = m := by
  refine Ends.loop (fun cpos m' => m' = m ∧ row * columns ≤ cpos)
    (fun cpos _ => (row * columns + columns - cpos).toNat) ?_ ⟨rfl, Int.le_refl _⟩
  rintro cpos s ⟨rfl, hcpos⟩
  by_cases hlt : cpos < row * columns + columns
  · rw [if_pos hlt]
    rw [columns] at *
    refine Ends.bind ((readCell_spec (by omega) (by omega)).mono ?_)
    rintro v _ ⟨rfl, -⟩
    by_cases hblank : v &&& 0xF0DF#16 = 0#16
    · rw [if_pos hblank]
      exact Ends.pure (Or.inr ⟨cpos + 1, rfl, ⟨rfl, by omega⟩, by omega⟩)
    · rw [if_neg hblank]
      exact Ends.pure (Or.inl ⟨_, rfl, rfl⟩)
  · rw [if_neg hlt]
    exact Ends.pure (Or.inl ⟨_, rfl, rfl⟩)

/-- The search for a line that is not blank stays on the screen. -/
theorem rowUp_spec (blank : Bool) {row : Int} (hlo : 0 ≤ row) (hhi : row ≤ 24) :
    Ends (rowUp blank row) m fun r m' => m' = m ∧ 0 ≤ r ∧ r ≤ 24 := by
  refine Ends.loop (fun r m' => m' = m ∧ 0 ≤ r ∧ r ≤ 24) (fun r _ => r.toNat) ?_ ⟨rfl, hlo, hhi⟩
  rintro r s ⟨rfl, hr0, hr24⟩
  by_cases hpos : 0 < r
  · rw [if_pos hpos]
    refine Ends.bind ((lineIsBlank_spec (by omega) (by omega)).mono ?_)
    rintro b _ rfl
    by_cases hb : b = blank
    · rw [if_pos hb]
      exact Ends.pure (Or.inr ⟨r - 1, rfl, ⟨rfl, by omega, by omega⟩, by omega⟩)
    · rw [if_neg hb]
      exact Ends.pure (Or.inl ⟨r, rfl, rfl, hr0, hr24⟩)
  · rw [if_neg hpos]
    exact Ends.pure (Or.inl ⟨r, rfl, rfl, hr0, hr24⟩)

/-- The number of blank lines at the bottom stays one of lines. -/
theorem updateBlank_spec (h : m.scrollBlank ≤ 24) :
    Ends updateBlank m fun _ m' => m'.scrollBlank ≤ 24
      ∧ m' = { m with scrollBlank := m'.scrollBlank } := by
  refine Ends.bind (Ends.get ?_)
  by_cases hblank : m.scrollMode = .blank ∧ m.scrollBlank < 0
  · rw [if_pos hblank]
    refine Ends.bind ((rowUp_spec false (by rw [rows]; omega) (by rw [rows]; omega)).mono ?_)
    rintro r _ ⟨rfl, hr0, hr24⟩
    refine Ends.bind ((rowUp_spec true hr0 hr24).mono ?_)
    rintro r' _ ⟨rfl, -, hr24'⟩
    exact Ends.modify ⟨hr24', rfl⟩
  · rw [if_neg hblank]
    by_cases hpos : 0 < m.scrollBlank
    · rw [if_pos hpos]
      refine Ends.bind ((lineIsBlank_spec (by omega) h).mono ?_)
      rintro b _ rfl
      by_cases hb : b = true
      · rw [if_pos hb]
        exact Ends.pure ⟨h, rfl⟩
      · rw [if_neg hb]
        exact Ends.modify ⟨by show (0 : Int) ≤ 24; omega, rfl⟩
    · rw [if_neg hpos]
      exact Ends.pure ⟨h, rfl⟩

/-- Nothing outside of the screen changes, and no field of the printer does. -/
def OnScreen (m m' : Machine) : Prop :=
  m' = { m with cells := m'.cells } ∧ ∀ i, i < 0 ∨ 2000 ≤ i → m'.cells i = m.cells i

/-- A range of cells is filled, and nothing else. -/
theorem fillCells_spec {start stop : Int} {value : Int → M Cell} (hlo : 0 ≤ start)
    (hle : start ≤ stop) (hhi : stop ≤ 2000)
    (hvalue : ∀ i m, start ≤ i → i < stop → Ends (value i) m fun _ m' => m' = m) :
    Ends (fillCells start stop value) m fun _ m' => OnScreen m m' := by
  refine Ends.loop (fun i m' => OnScreen m m' ∧ start ≤ i ∧ i ≤ stop)
    (fun i _ => (stop - i).toNat) ?_ ⟨⟨rfl, fun _ _ => rfl⟩, Int.le_refl _, hle⟩
  rintro i s ⟨⟨hs, hout⟩, hi, hi'⟩
  by_cases hne : i = stop
  · rw [if_neg (not_not.mpr hne)]
    exact Ends.pure (Or.inl ⟨(), rfl, hs, hout⟩)
  · rw [if_pos hne]
    refine Ends.bind ((hvalue i s hi (by omega)).mono ?_)
    rintro v _ rfl
    refine Ends.bind ((writeCell_spec (by omega) (by omega)).mono ?_)
    rintro _ _ rfl
    refine Ends.pure (Or.inr ⟨i + 1, rfl, ⟨⟨?_, ?_⟩, by omega, by omega⟩, by omega⟩)
    · rw [hs]
    · intro j hj
      have hne' : j ≠ i := by omega
      exact (Function.update_of_ne hne' _ _).trans (hout j hj)

/-! ## Scrolling -/

/-- **SCROLL** takes a cursor that is past the last cell back to the screen. -/
theorem scroll_spec (h : Safe m₀ m) (hcell : 2000 ≤ m.cell) :
    Ends scroll m fun _ m' => Safe m₀ m' ∧ Undrawn m m' ∧ m'.cell < 2000 := by
  have hle := h.cell_le
  refine Ends.bind (Ends.get (Ends.bind (Ends.check (decide_eq_true hcell) ?_)))
  -- with scrolling off, the cursor goes to the first cell
  by_cases hoff : m.scrollMode = .off
  · rw [if_pos hoff]
    have hzero : (0 : Int) < 2000 := by decide
    exact Ends.modify ⟨⟨Int.le_refl 0, Int.le_of_lt hzero, h.scrollBlank, h.seen, h.cells⟩,
      ⟨rfl, rfl, rfl, rfl⟩, hzero⟩
  rw [if_neg hoff]
  -- the blank rows at the top are counted
  refine Ends.bind ((updateBlank_spec h.scrollBlank).mono ?_)
  rintro _ m₁ ⟨hblank, hm₁⟩
  refine Ends.bind (Ends.get (Ends.bind ?_))
  have hstart : 0 ≤ (if 0 < m₁.scrollBlank then m₁.scrollBlank * columns else 0)
      ∧ (if 0 < m₁.scrollBlank then m₁.scrollBlank * columns else 0) ≤ endCpos - columns := by
    rw [columns, endCpos]
    split <;> omega
  -- the rows below them move up by one
  refine (fillCells_spec hstart.1 hstart.2 (by rw [columns, endCpos]; omega) ?_).mono ?_
  · intro i s hi hi'
    rw [columns, endCpos] at hi'
    refine (readCell_spec ?_ ?_).mono fun _ _ hr => hr.1
    · rw [columns]
      omega
    · rw [columns]
      omega
  -- the last row is cleared
  rintro _ m₂ ⟨hm₂, hout₂⟩
  refine Ends.bind ((fillCells_spec (by rw [columns, endCpos]; omega)
    (by rw [columns, endCpos]; omega) (by rw [endCpos]) ?_).mono ?_)
  · exact fun _ _ _ _ => Ends.pure rfl
  rintro _ m₃ ⟨hm₃, hout₃⟩
  -- the cursor moves with its row
  have hcell₃ : m₃.cell = m.cell := by rw [hm₃, hm₂, hm₁]
  refine Ends.modify ⟨⟨?_, ?_, ?_, ?_, ?_⟩, ?_, ?_⟩
  · show 0 ≤ m₃.cell - columns
    rw [columns]
    omega
  · show m₃.cell - columns ≤ 2000
    rw [columns]
    omega
  · show m₃.scrollBlank ≤ 24
    rw [hm₃, hm₂]
    exact hblank
  · show ∀ x ∈ m₃.seen, _
    rw [hm₃, hm₂, hm₁]
    exact h.seen
  · intro i hi
    show m₃.cells i = m₀.cells i
    rw [hout₃ i hi, hout₂ i hi, hm₁]
    exact h.cells i hi
  · rw [hm₃, hm₂, hm₁]
    exact ⟨rfl, rfl, rfl, rfl⟩
  · show m₃.cell - columns < 2000
    rw [columns]
    omega

/-- The screen is scrolled until the cursor is on it. -/
theorem scrollAll_spec (h : Safe m₀ m) :
    Ends scrollAll m fun _ m' => Safe m₀ m' ∧ Undrawn m m' ∧ m'.cell < 2000 := by
  refine Ends.loop (fun _ m' => Safe m₀ m' ∧ Undrawn m m')
    (fun _ m' => if 2000 ≤ m'.cell then 1 else 0) ?_ ⟨h, Undrawn.refl m⟩
  rintro ⟨⟩ s ⟨hs, hsame⟩
  refine Ends.bind (Ends.get ?_)
  by_cases hge : endCpos ≤ s.cell
  · rw [if_pos hge]
    refine Ends.bind ((scroll_spec hs hge).mono ?_)
    rintro _ s' ⟨hs', hsame', hlt⟩
    refine Ends.pure (Or.inr ⟨(), rfl, ⟨hs', hsame.trans hsame'⟩, ?_⟩)
    have hge' : 2000 ≤ s.cell := hge
    rw [if_neg (by omega), if_pos hge']
    exact Nat.one_pos
  · rw [if_neg hge]
    exact Ends.pure (Or.inl ⟨(), rfl, hs, hsame, Int.not_le.mp hge⟩)

/-! ## Drawing -/

/-- One character is stored, and the cursor moves on. -/
theorem store_spec {v : BitVec 32} (h : Safe m₀ m) (hcell : m.cell < 2000) :
    Ends (store v) m fun _ m' => Safe m₀ m' ∧ Undrawn m m' ∧ m'.cell = m.cell + 1 := by
  have hnonneg := h.cell_nonneg
  refine Ends.bind (Ends.get (Ends.bind ((writeCell_spec hnonneg hcell).mono ?_)))
  rintro _ _ rfl
  refine Ends.modify ⟨⟨?_, ?_, h.scrollBlank, h.seen, ?_⟩, ⟨rfl, rfl, rfl, rfl⟩, rfl⟩
  · show 0 ≤ m.cell + 1
    omega
  · show m.cell + 1 ≤ 2000
    omega
  · intro i hi
    show Function.update m.cells m.cell _ i = m₀.cells i
    rw [Function.update_of_ne (by omega)]
    exact h.cells i hi

/-- A newline fills the row of the cursor. -/
theorem blanks_spec (h : Safe m₀ m) (hcell : m.cell < 2000) :
    Ends blanks m fun _ m' => Safe m₀ m' ∧ Undrawn m m' := by
  have hnonneg := h.cell_nonneg
  refine Ends.bind (Ends.get ?_)
  refine Ends.loop (fun pos m' => Safe m₀ m' ∧ Undrawn m m' ∧ pos ≤ 80
      ∧ m'.cell + (80 - pos) ≤ 2000) (fun pos _ => (80 - pos).toNat) ?_
    ⟨h, Undrawn.refl m, by omega, by omega⟩
  rintro pos s ⟨hs, hsame, hpos, hroom⟩
  by_cases hend : pos = 80
  · rw [if_neg (not_not.mpr hend)]
    exact Ends.pure (Or.inl ⟨(), rfl, hs, hsame⟩)
  · rw [if_pos hend]
    refine Ends.bind ((store_spec hs (by omega)).mono ?_)
    rintro _ s' ⟨hs', hsame', hnext⟩
    exact Ends.pure (Or.inr ⟨pos + 1, rfl, ⟨hs', hsame.trans hsame', by omega, by omega⟩,
      by omega⟩)

/-- **DRAW** puts a byte on the screen. -/
theorem draw_spec (c : Byte) (h : Safe m₀ m) :
    Ends (draw c) m fun _ m' => Safe m₀ m' ∧ Undrawn m m' := by
  refine Ends.bind ((scrollAll_spec h).mono ?_)
  rintro _ m₁ ⟨h₁, hsame₁, hcell⟩
  by_cases hnl : c = newline
  · rw [if_pos hnl]
    refine (blanks_spec h₁ hcell).mono ?_
    rintro _ m₂ ⟨h₂, hsame₂⟩
    exact ⟨h₂, hsame₁.trans hsame₂⟩
  · rw [if_neg hnl]
    refine (store_spec h₁ hcell).mono ?_
    rintro _ m₂ ⟨h₂, hsame₂, -⟩
    exact ⟨h₂, hsame₁.trans hsame₂⟩

end ConsolePrinter
