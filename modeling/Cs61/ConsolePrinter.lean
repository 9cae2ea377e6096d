import Cs61.Effects
import Mathlib.Logic.Function.Basic
import Mathlib.Tactic.Ring

/-! # `console_printer` — text on the CGA console

    A printer holds back the bytes of an escape sequence until it is complete
    or abandoned; an abandoned one is put out by calls of the virtual `putc` of
    the whole object.  The nesting of these calls is made explicit: an object
    takes the number of nested calls it may make.

    Every access to `console` is checked, and so is every store into an escape
    buffer: an access outside of the array is a `Fault`, as a failed assertion
    is. -/

namespace ConsolePrinter

open Effects LoopRules

/-- A character of the text. -/
abbrev Byte := UInt8
/-- A character on the screen, with its colour. -/
abbrev Cell := BitVec 16

/-- `CONSOLE_ROWS`. -/
def rows : Int := 25
/-- `CONSOLE_COLUMNS`. -/
def columns : Int := 80
/-- `END_CPOS`, behind the last cell. -/
def endCpos : Int := 2000

/-- ESC. -/
def esc : Byte := 27
/-- The newline. -/
def newline : Byte := 10

/-- `COLOR_GRAY`. -/
def colorGray : BitVec 32 := 0x0700#32
/-- `COLOR_ERROR`. -/
def colorError : BitVec 32 := 0xCF00#32

/-! ## The objects -/

/-- `ansi_escape_buffer`, whose array has 12 bytes. -/
structure EscapeBuffer where
  buf : Int → Byte
  len : Int

/-- `console_printer::scroll_mode`. -/
inductive ScrollMode where
  | off
  | on
  | blank
deriving DecidableEq

/-- The console, the fields of a console printer and of the log printer in it,
    and the parallel port.  Cells are counted from the start of `console`.
    `seen` is not in the code: it lists the value of `cell_` after each
    `console_printer::putc`. -/
structure Machine where
  cells : Int → Cell
  cursorpos : Int
  cell : Int
  scrollMode : ScrollMode
  scrollBlank : Int
  ebuf : EscapeBuffer
  color : BitVec 32
  logEbuf : EscapeBuffer
  logColor : BitVec 32
  port : List Byte
  seen : List Int

/-- What must not happen: a cell outside the console, or a byte outside the escape buffer.
    -/
inductive Fault where
  | outside (i : Int)
  | assertFail (expr : String)
deriving DecidableEq

/-- A part of the printer, on the console and the ports. -/
abbrev M := Act Fault Machine

/-- A printer as its escape buffer sees it. -/
structure Holder where
  ebuf : Machine → EscapeBuffer
  setEbuf : EscapeBuffer → Machine → Machine
  setColor : BitVec 32 → Machine → Machine
  ebuf_setEbuf : ∀ b m, ebuf (setEbuf b m) = b
  setEbuf_setEbuf : ∀ b b' m, setEbuf b (setEbuf b' m) = setEbuf b m
  ebuf_setColor : ∀ c m, ebuf (setColor c m) = ebuf m

/-- Where the console printer keeps its escape buffer. -/
def consoleHolder : Holder where
  ebuf := Machine.ebuf
  setEbuf b m := { m with ebuf := b }
  setColor c m := { m with color := c }
  ebuf_setEbuf _ _ := rfl
  setEbuf_setEbuf _ _ _ := rfl
  ebuf_setColor _ _ := rfl

/-- Where the log printer keeps its own. -/
def logHolder : Holder where
  ebuf := Machine.logEbuf
  setEbuf b m := { m with logEbuf := b }
  setColor c m := { m with logColor := c }
  ebuf_setEbuf _ _ := rfl
  setEbuf_setEbuf _ _ _ := rfl
  ebuf_setColor _ _ := rfl

/-! ## Escape sequences -/

/-- `isdigit(c)`. -/
def isdigit (c : Byte) : Bool := decide (48 ≤ c.toNat) && decide (c.toNat ≤ 57)

/-- `for (int i = 0; i != len; ++i) pr.putc(buf_[i])`. -/
def flushLoop (o : Holder) (self : Byte → M Unit) (len : Int) : M Unit :=
  loop (fun i : Int =>
    if i ≠ len then do
      let m ← get
      self ((o.ebuf m).buf i)
      pure (.again (i + 1))
    else pure (.leave ())) 0

/-- `len_ = len`. -/
def setLen (o : Holder) (len : Int) : M Unit :=
  modify fun m => o.setEbuf { buf := (o.ebuf m).buf, len := len } m

/-- `ansi_escape_buffer::flush`. -/
def flush (o : Holder) (self : Byte → M Unit) : M Unit := do
  let m ← get
  let len := (o.ebuf m).len
  if len ≤ 0 then pure ()
  else do
    setLen o (-1)
    flushLoop o self len
    setLen o 0

/-- The colours of the terminal in the order of the escape sequences. -/
def colormap : List (BitVec 32) := [0, 4, 2, 6, 1, 5, 3, 7]

/-- One parameter of an `ESC [ ... m` sequence. -/
def applyParam (x : Nat) (color : BitVec 32) : BitVec 32 :=
  if x = 0 then colorGray
  else if x = 1 then color ||| 0x0800#32
  else if x = 2 then color &&& ~~~(0x0800#32)
  else if x = 7 then (color.sshiftRight 4 ||| color <<< 4) &&& 0xFF00#32
  else if 30 ≤ x ∧ x ≤ 37 then (color &&& 0xF000#32) ||| (colormap.getD (x - 30) 0) <<< 8
  else if 40 ≤ x ∧ x ≤ 47 then (color &&& 0x0F00#32) ||| (colormap.getD (x - 40) 0) <<< 12
  else if 90 ≤ x ∧ x ≤ 97 then
    (color &&& 0xF000#32) ||| (colormap.getD (x - 90) 0) <<< 8 ||| 0x0800#32
  else if 100 ≤ x ∧ x ≤ 107 then
    (color &&& 0x0F00#32) ||| (colormap.getD (x - 100) 0) <<< 12 ||| 0x8000#32
  else color

/-- The color that a complete sequence sets. -/
def parseColor (b : EscapeBuffer) : BitVec 32 :=
  ((List.range' 2 (b.len.toNat - 2)).foldl (fun (st : Nat × BitVec 32) i =>
    if isdigit (b.buf i) = true then (st.1 * 10 + ((b.buf i).toNat - 48), st.2)
    else (0, applyParam st.1 st.2)) (0, colorGray)).2

/-- The bytes so far may begin an `ESC [ ... m` sequence; `c` is the last one. -/
def collects (len : Int) (c : Byte) : Prop :=
  len = 1 ∨ (len = 2 ∧ c = 91) ∨ (2 < len ∧ len < 12 ∧ (isdigit c = true ∨ c = 59))

instance (len : Int) (c : Byte) : Decidable (collects len c) :=
  inferInstanceAs (Decidable (_ ∨ _ ∨ _))

/-- `ansi_escape_buffer::putc_impl`. -/
def putcImpl (o : Holder) (self : Byte → M Unit) (c : Byte) : M Unit := do
  let m ← get
  let len := (o.ebuf m).len
  check (decide (0 ≤ len) && decide (len < 12)) (.outside len)
  let b : EscapeBuffer := { buf := Function.update (o.ebuf m).buf len c, len := len + 1 }
  modify (o.setEbuf b)
  if collects b.len c then pure ()
  else if c ≠ 109 then flush o self
  else do
    modify (o.setColor (parseColor b))
    setLen o 0

/-- `ansi_escape_buffer::putc`: whether the byte is held back. -/
def ebufPutc (o : Holder) (self : Byte → M Unit) (c : Byte) : M Bool := do
  let m ← get
  if (o.ebuf m).len < 0 ∨ ((o.ebuf m).len = 0 ∧ c ≠ esc) then pure false
  else do
    putcImpl o self c
    pure true

/-! ## The console -/

/-- `console[i]`. -/
def readCell (i : Int) : M Cell := do
  check (decide (0 ≤ i) && decide (i < endCpos)) (.outside i)
  let m ← get
  pure (m.cells i)

/-- `console[i] = v`. -/
def writeCell (i : Int) (v : Cell) : M Unit := do
  check (decide (0 ≤ i) && decide (i < endCpos)) (.outside i)
  modify fun m => { m with cells := Function.update m.cells i v }

/-- `*cell_++ = v | color_`. -/
def store (v : BitVec 32) : M Unit := do
  let m ← get
  writeCell m.cell ((v ||| m.color).setWidth 16)
  modify fun m => { m with cell := m.cell + 1 }

/-- `console_line_is_blank`. -/
def lineIsBlank (row : Int) : M Bool :=
  loop (fun cpos : Int =>
    if cpos < row * columns + columns then do
      let v ← readCell cpos
      if v &&& 0xF0DF#16 = 0#16 then pure (.again (cpos + 1))
      else pure (.leave (decide (cpos = row * columns + columns)))
    else pure (.leave (decide (cpos = row * columns + columns)))) (row * columns)

/-- `while (row > 0 && console_line_is_blank(row - 1) == blank) --row`. -/
def rowUp (blank : Bool) (row : Int) : M Int :=
  loop (fun row : Int =>
    if 0 < row then do
      let b ← lineIsBlank (row - 1)
      if b = blank then pure (.again (row - 1)) else pure (.leave row)
    else pure (.leave row)) row

/-- What `scroll` does to `scroll_blank_`. -/
def updateBlank : M Unit := do
  let m ← get
  if m.scrollMode = .blank ∧ m.scrollBlank < 0 then do
    let row ← rowUp false (rows - 1)
    let row ← rowUp true row
    modify fun m => { m with scrollBlank := row }
  else if 0 < m.scrollBlank then do
    let b ← lineIsBlank m.scrollBlank
    if b = true then pure () else modify fun m => { m with scrollBlank := 0 }
  else pure ()

/-- `for (int i = start; i != stop; ++i) console[i] = ...`. -/
def fillCells (start stop : Int) (value : Int → M Cell) : M Unit :=
  loop (fun i : Int =>
    if i ≠ stop then do
      let v ← value i
      writeCell i v
      pure (.again (i + 1))
    else pure (.leave ())) start

/-- `console_printer::scroll`. -/
def scroll : M Unit := do
  let m ← get
  check (decide (endCpos ≤ m.cell)) (.assertFail "cell_ >= console + END_CPOS")
  if m.scrollMode = .off then modify fun m => { m with cell := 0 }
  else do
    updateBlank
    let m ← get
    fillCells (if 0 < m.scrollBlank then m.scrollBlank * columns else 0) (endCpos - columns)
      fun i => readCell (i + columns)
    fillCells (endCpos - columns) endCpos fun _ => pure 0#16
    modify fun m => { m with cell := m.cell - columns }

/-- `while (cell_ >= console + END_CPOS) scroll()`. -/
def scrollAll : M Unit :=
  loop (fun _ : Unit => do
    let m ← get
    if endCpos ≤ m.cell then do
      scroll
      pure (.again ())
    else pure (.leave ())) ()

/-- The blanks that a newline stores. -/
def blanks : M Unit := do
  let m ← get
  loop (fun pos : Int =>
    if pos ≠ 80 then do
      store 32#32
      pure (.again (pos + 1))
    else pure (.leave ())) (m.cell % 80)

/-- `console_printer::putc`, for a byte that is not held back. -/
def draw (c : Byte) : M Unit := do
  scrollAll
  if c = newline then blanks else store (BitVec.ofNat 32 c.toNat)

/-- `console_printer::putc`, of an object whose virtual `putc` is `self`. -/
def consolePutc (self : Byte → M Unit) (c : Byte) : M Unit := do
  let held ← ebufPutc consoleHolder self c
  if held = true then pure () else draw c
  modify fun m => { m with seen := m.seen ++ [m.cell] }

/-- `log_printer::putc`.  The byte goes to the parallel port. -/
def logPutc (self : Byte → M Unit) (c : Byte) : M Unit := do
  let held ← ebufPutc logHolder self c
  if held = true then pure () else modify fun m => { m with port := m.port ++ [c] }

/-- `move_cursor`. -/
def moveCursor (self : Byte → M Unit) : M Unit := do
  flush consoleHolder self
  modify fun m => { m with cursorpos := m.cell }

/-! ## The virtual `putc`, for at most `d` nested calls -/

/-- A `console_printer`. -/
def consoleVirtual : Nat → Byte → M Unit
  | 0 => fun _ => stuck
  | d + 1 => consolePutc (consoleVirtual d)

/-- A `log_printer`. -/
def logVirtual : Nat → Byte → M Unit
  | 0 => fun _ => stuck
  | d + 1 => logPutc (logVirtual d)

/-- An `error_printer`. -/
def errorVirtual : Nat → Byte → M Unit
  | 0 => fun _ => stuck
  | d + 1 => fun c => do
      logPutc (logVirtual d) c
      consolePutc (errorVirtual d) c

/-! ## Whole messages -/

/-- `console_printer(cpos, scroll_mode)`.  The bytes of `buf_` are not set. -/
def consoleNew (cpos : Int) (mode : ScrollMode) (m : Machine) : Machine :=
  { m with
    cell := if cpos < 0 then m.cursorpos else if cpos ≤ endCpos then cpos else 0
    scrollMode := mode
    scrollBlank := -1
    ebuf := { buf := m.ebuf.buf, len := 0 }
    color := colorGray
    seen := [] }

/-- `error_printer()`. -/
def errorNew (m : Machine) : Machine :=
  let m := consoleNew (-1) .blank m
  { m with
    cell := if m.cell < endCpos - columns then endCpos else m.cell
    color := colorError
    logEbuf := { buf := m.logEbuf.buf, len := 0 }
    logColor := colorGray }

/-- `log_printer()`. -/
def logNew (m : Machine) : Machine :=
  { m with logEbuf := { buf := m.logEbuf.buf, len := 0 }, logColor := colorGray }

/-- A string through a new `console_printer`, and `move_cursor`. -/
def printConsole (d : Nat) (cpos : Int) (mode : ScrollMode) (s : List Byte) : M Unit := do
  modify (consoleNew cpos mode)
  each (consoleVirtual d) s
  moveCursor (consoleVirtual d)

/-- A string through a new `error_printer`, and `move_cursor`. -/
def printError (d : Nat) (s : List Byte) : M Unit := do
  modify errorNew
  each (errorVirtual d) s
  moveCursor (errorVirtual d)

/-- A string through a new `log_printer`. -/
def printLog (d : Nat) (s : List Byte) : M Unit := do
  modify logNew
  each (logVirtual d) s

end ConsolePrinter
