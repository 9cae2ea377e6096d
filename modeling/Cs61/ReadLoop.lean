import Cs61.Chunks
import Cs61.ShellTokens

/-! # The read loop of `sh61` — from a stream to command lines

    `main` reads with `fgets` and runs a line when it is complete, or when the
    buffer is full.  The stream is a list of events: a byte, or a read error
    that interrupts the `fgets` in which it comes.  What such an `fgets` leaves
    in the array is indeterminate, so the event carries it.

    * `gets_cases` — what one `fgets` takes from the stream;
    * `length_kept` — bytes are lost exactly when an error comes inside a line;
    * `mainLoop_spec` — which command lines are run, for every stream. -/

namespace ReadLoop

open ShellTokens Chunks LoopRules

/-- The newline. -/
def newline : UInt8 := 10

/-- `EINTR`. -/
def eintr : Nat := 4

/-! ## Streams -/

/-- What a read from the stream can meet before the end of the file. -/
inductive Event where
  | byte (b : UInt8)
  | fail (errno : Nat) (left : Nat → UInt8)

/-- A `FILE`: what is still to come, and the two indicators. -/
structure Stream where
  rest : List Event
  eof : Bool
  error : Option Nat

/-- Why a read stops. -/
inductive Stop where
  | filled
  | ended
  | failed (errno : Nat) (left : Nat → UInt8)

/-- The bytes that `fgets` takes, at most `n` of them. -/
def gets : Nat → List Event → List UInt8 × Stop × List Event
  | 0, ev => ([], .filled, ev)
  | _ + 1, [] => ([], .ended, [])
  | _ + 1, .fail e left :: ev => ([], .failed e left, ev)
  | n + 1, .byte b :: ev =>
      if b = newline then ([b], .filled, ev)
      else ((b :: (gets n ev).1, (gets n ev).2))

/-- The array after bytes and a terminator are stored at `pos`. -/
def store (buf : Nat → UInt8) (pos : Nat) (bs : List UInt8) : Nat → UInt8 := fun k =>
  if k < pos then buf k
  else if k < pos + bs.length then bs.getD (k - pos) 0
  else if k = pos + bs.length then 0
  else buf k

/-- `fgets(&buf[pos], n, f)`: whether it returns a string, the array, the stream. -/
def fgets (buf : Nat → UInt8) (pos n : Nat) (f : Stream) : Bool × (Nat → UInt8) × Stream :=
  match gets (n - 1) f.rest with
  | (bs, .filled, rest) => (true, store buf pos bs, { f with rest := rest })
  | (bs, .ended, rest) =>
      if bs = [] then (false, buf, { f with rest := rest, eof := true })
      else (true, store buf pos bs, { f with rest := rest, eof := true })
  | (_, .failed e left, rest) =>
      (false, fun k => if pos ≤ k ∧ k < pos + n then left k else buf k,
        { f with rest := rest, error := some e })

/-- `clearerr(f)`. -/
def Stream.clearerr (f : Stream) : Stream := { f with eof := false, error := none }

/-! ## `main` -/

/-- What the shell does that can be seen: the prompt, an error message, and a
    call of `run_line` with the text of its argument. -/
inductive Action where
  | prompt
  | perror
  | runLine (text : List UInt8)
deriving DecidableEq

/-- The variables of `main`. -/
structure Shell where
  stream : Stream
  buf : Nat → UInt8
  bufpos : Nat
  needprompt : Bool
  actions : List Action

/-- The string in `buf`, whose size is `bufsiz`. -/
def text (bufsiz : Nat) (buf : Nat → UInt8) : List UInt8 :=
  ((List.range bufsiz).map buf).takeWhile (· != 0)

/-- The part of the loop that follows the read. -/
def runComplete (bufsiz : Nat) (s : Shell) : Shell :=
  let line := text bufsiz s.buf
  if line.length = bufsiz - 1 ∨ (0 < line.length ∧ line.getLast? = some newline) then
    { s with bufpos := 0, needprompt := true, actions := s.actions ++ [.runLine line] }
  else { s with bufpos := line.length }

/-- `while (!feof(command_file))`. -/
def body (bufsiz : Nat) (quiet : Bool) (s : Shell) : Turn Shell (List Action) :=
  if s.stream.eof = true then .leave s.actions
  else
    let prompts := s.needprompt && !quiet
    let s := if prompts = true then
        { s with needprompt := false, actions := s.actions ++ [.prompt] }
      else s
    match fgets s.buf s.bufpos (bufsiz - s.bufpos) s.stream with
    | (true, buf, f) => .again (runComplete bufsiz { s with stream := f, buf := buf })
    | (false, buf, f) =>
        if f.error = some eintr then
          .again (runComplete bufsiz
            { s with stream := f.clearerr, buf := Function.update buf s.bufpos 0 })
        else .leave (if f.error.isSome = true then s.actions ++ [.perror] else s.actions)

/-- `main` on a stream, with an array of `bufsiz` bytes that is not initialized. -/
def mainLoop (bufsiz : Nat) (quiet : Bool) (buf : Nat → UInt8) (events : List Event)
    (fuel : Nat) : Option (List Action) :=
  run (body bufsiz quiet) fuel
    { stream := { rest := events, eof := false, error := none }
      buf := buf, bufpos := 0, needprompt := true, actions := [] }

/-- The calls of `run_line`. -/
def runs (actions : List Action) : List (List UInt8) :=
  actions.filterMap fun
    | .runLine text => some text
    | _ => none

/-! ## Lines -/

/-- The bytes of a stream. -/
def bytes (events : List Event) : List UInt8 :=
  events.filterMap fun
    | .byte b => some b
    | .fail _ _ => none

/-- The lines of a text, each with the newline that ends it if there is one. -/
def lines (L : List UInt8) : List (List UInt8) :=
  (chunks (· == newline) L).map fun c => c.1 ++ c.2.toList

/-- The lines that a newline ends. -/
def endedLines (L : List UInt8) : List (List UInt8) :=
  (chunks (· == newline) L).filterMap fun c => c.2.map fun d => c.1 ++ [d]

/-- A line cut into pieces of `n` bytes; the last one may be shorter. -/
def pieces (n : Nat) (L : List UInt8) : List (List UInt8) :=
  if L.length ≤ n ∨ n = 0 then [L] else L.take n :: pieces n (L.drop n)
termination_by L.length
decreasing_by
  rw [List.length_drop]
  omega

/-- A last line that no newline ends. -/
def openLine (L : List UInt8) : List UInt8 :=
  (chunks (· == newline) L).flatMap fun c => if c.2.isNone = true then c.1 else []

/-- What the shell runs for a text: the lines that a newline ends, in pieces that
    fit the buffer, and of a last line without a newline the pieces that fill it. -/
def calls (n : Nat) (L : List UInt8) : List (List UInt8) :=
  (endedLines L).flatMap (pieces n) ++ (pieces n (openLine L)).filter fun l => l.length = n

/-- The bytes that reach the shell: an error loses those that the `fgets` in which
    it comes has `taken`. -/
def kept (n : Nat) (taken : List UInt8) : List Event → List UInt8
  | [] => taken
  | .fail _ _ :: ev => kept n [] ev
  | .byte b :: ev =>
      if b = newline ∨ taken.length + 1 = n then taken ++ b :: kept n [] ev
      else kept n (taken ++ [b]) ev

/-- Every read error is an `EINTR`. -/
def Interrupts (events : List Event) : Prop := ∀ e left, Event.fail e left ∈ events → e = eintr

/-- Every read error comes before `fgets` has taken a byte: `k` is the number of
    bytes the current `fgets` has taken. -/
def Between (n : Nat) : Nat → List Event → Prop
  | _, [] => True
  | k, .fail _ _ :: ev => k = 0 ∧ Between n 0 ev
  | k, .byte b :: ev => Between n (if b = newline ∨ k + 1 = n then 0 else k + 1) ev

/-! ## One `fgets` -/

theorem bytes_map (c : List UInt8) (ev : List Event) :
    bytes (c.map .byte ++ ev) = c ++ bytes ev := by
  induction c with
  | nil => rfl
  | cons b c ih => exact congrArg (b :: ·) ih

/-- What a read of at most `n` bytes takes: a line, a full buffer, the rest of
    the file, or bytes before an error. -/
inductive Took (n : Nat) (ev : List Event) : List UInt8 × Stop × List Event → Prop
  | line (c : List UInt8) (ev' : List Event) (hc : newline ∉ c) (hlen : c.length < n)
      (hev : ev = (c ++ [newline]).map .byte ++ ev') : Took n ev (c ++ [newline], .filled, ev')
  | full (c : List UInt8) (ev' : List Event) (hc : newline ∉ c) (hlen : c.length = n)
      (hev : ev = c.map .byte ++ ev') : Took n ev (c, .filled, ev')
  | ended (c : List UInt8) (hc : newline ∉ c) (hlen : c.length < n)
      (hev : ev = c.map .byte) : Took n ev (c, .ended, [])
  | failed (c : List UInt8) (e : Nat) (left : Nat → UInt8) (ev' : List Event)
      (hc : newline ∉ c) (hlen : c.length < n)
      (hev : ev = c.map .byte ++ .fail e left :: ev') : Took n ev (c, .failed e left, ev')

theorem gets_cases (n : Nat) (ev : List Event) : Took n ev (gets n ev) := by
  induction n generalizing ev with
  | zero => exact .full [] ev List.not_mem_nil rfl rfl
  | succ n ih =>
      match ev with
      | [] => exact .ended [] List.not_mem_nil (Nat.succ_pos n) rfl
      | .fail e left :: ev => exact .failed [] e left ev List.not_mem_nil (Nat.succ_pos n) rfl
      | .byte b :: ev =>
          rw [gets]
          by_cases hb : b = newline
          · rw [if_pos hb, hb]
            exact .line [] ev List.not_mem_nil (Nat.succ_pos n) rfl
          · rw [if_neg hb]
            have hnot : ∀ c : List UInt8, newline ∉ c → newline ∉ b :: c := by
              intro c hc hmem
              rcases List.mem_cons.mp hmem with heq | hmem
              · exact hb heq.symm
              · exact hc hmem
            have h := ih ev
            revert h
            generalize gets n ev = r
            intro h
            cases h with
            | line c ev' hc hlen hev =>
                exact .line (b :: c) ev' (hnot c hc) (Nat.succ_lt_succ hlen)
                  (congrArg (Event.byte b :: ·) hev)
            | full c ev' hc hlen hev =>
                exact .full (b :: c) ev' (hnot c hc) (congrArg Nat.succ hlen)
                  (congrArg (Event.byte b :: ·) hev)
            | ended c hc hlen hev =>
                exact .ended (b :: c) (hnot c hc) (Nat.succ_lt_succ hlen)
                  (congrArg (Event.byte b :: ·) hev)
            | failed c e left ev' hc hlen hev =>
                exact .failed (b :: c) e left ev' (hnot c hc) (Nat.succ_lt_succ hlen)
                  (congrArg (Event.byte b :: ·) hev)

/-! ## Bytes that are lost -/

/-- Bytes without a newline, fewer than fill the buffer, are pending. -/
theorem kept_pending {n : Nat} {taken c : List UInt8} {ev : List Event} (hc : newline ∉ c)
    (hlen : taken.length + c.length < n) :
    kept n taken (c.map .byte ++ ev) = kept n (taken ++ c) ev := by
  induction c generalizing taken with
  | nil => rw [List.append_nil]; rfl
  | cons b c ih =>
      rw [List.length_cons] at hlen
      obtain ⟨hb, hc⟩ := not_or.mp (mt List.mem_cons.mpr hc)
      rw [List.map_cons, List.cons_append, kept,
        if_neg (not_or.mpr ⟨fun heq => hb heq.symm, by omega⟩), ih hc, List.append_assoc]
      · rfl
      · rw [List.length_append, List.length_singleton]
        omega

/-- A line that is read is kept. -/
theorem kept_line {n : Nat} {c : List UInt8} {ev : List Event} (hc : newline ∉ c)
    (hlen : c.length < n) :
    kept n [] ((c ++ [newline]).map .byte ++ ev) = c ++ newline :: kept n [] ev := by
  rw [List.map_append, List.append_assoc, kept_pending hc (by rw [List.length_nil]; omega)]
  exact if_pos (Or.inl rfl)

/-- A full buffer is kept. -/
theorem kept_full {n : Nat} {c : List UInt8} {ev : List Event} (hc : newline ∉ c)
    (hlen : c.length = n) (hn : 0 < n) :
    kept n [] (c.map .byte ++ ev) = c ++ kept n [] ev := by
  obtain ⟨d, b, rfl⟩ : ∃ d b, c = d ++ [b] :=
    ⟨c.dropLast, c.getLast (List.length_pos_iff.mp (by omega)), (List.dropLast_append_getLast _).symm⟩
  rw [List.length_append, List.length_singleton] at hlen
  rw [List.map_append, List.append_assoc,
    kept_pending (fun hd => hc (List.mem_append_left _ hd)) (by rw [List.length_nil]; omega),
    List.append_assoc]
  exact if_pos (Or.inr (by rw [List.nil_append]; omega))

/-- What an interrupted `fgets` has taken is lost. -/
theorem kept_failed {n e : Nat} {c : List UInt8} {left : Nat → UInt8} {ev : List Event}
    (hc : newline ∉ c) (hlen : c.length < n) :
    kept n [] (c.map .byte ++ .fail e left :: ev) = kept n [] ev := by
  rw [kept_pending hc (by rw [List.length_nil]; omega)]
  rfl

/-- The end of the file. -/
theorem kept_ended {n : Nat} {c : List UInt8} (hc : newline ∉ c) (hlen : c.length < n) :
    kept n [] (c.map .byte) = c := by
  have hlen' : ([] : List UInt8).length + c.length < n := by
    rw [List.length_nil]
    omega
  have hall := @kept_pending _ [] _ [] hc hlen'
  rwa [List.append_nil] at hall

/-- Errors between two reads lose nothing. -/
theorem kept_of_between {n : Nat} {taken : List UInt8} {ev : List Event}
    (h : Between n taken.length ev) : kept n taken ev = taken ++ bytes ev := by
  fun_induction kept n taken ev with
  | case1 taken => exact (List.append_nil _).symm
  | case2 taken e left ev ih =>
      obtain rfl := List.eq_nil_of_length_eq_zero h.1
      exact ih h.2
  | case3 taken x ev hend ih =>
      rw [Between, if_pos hend] at h
      rw [ih h]
      rfl
  | case4 taken x ev hend ih =>
      rw [Between, if_neg hend] at h
      rw [ih (by rwa [List.length_append, List.length_singleton]), List.append_assoc]
      rfl

/-- **BYTES ARE LOST** exactly when an error comes inside a line. -/
theorem length_kept {n : Nat} {taken : List UInt8} {ev : List Event} :
    (kept n taken ev).length ≤ taken.length + (bytes ev).length
      ∧ ((kept n taken ev).length = taken.length + (bytes ev).length → Between n taken.length ev) := by
  fun_induction kept n taken ev with
  | case1 taken => exact ⟨Nat.le_refl _, fun _ => trivial⟩
  | case2 taken e left ev ih =>
      have hbytes : bytes (.fail e left :: ev) = bytes ev := rfl
      rw [List.length_nil, Nat.zero_add] at ih
      rw [hbytes]
      refine ⟨by omega, fun heq => ⟨by omega, ih.2 (by omega)⟩⟩
  | case3 taken x ev hend ih =>
      have hbytes : (bytes (.byte x :: ev)).length = (bytes ev).length + 1 := rfl
      rw [List.length_nil, Nat.zero_add] at ih
      rw [hbytes, List.length_append, List.length_cons, Between, if_pos hend]
      exact ⟨by omega, fun heq => ih.2 (by omega)⟩
  | case4 taken x ev hend ih =>
      have hbytes : (bytes (.byte x :: ev)).length = (bytes ev).length + 1 := rfl
      rw [List.length_append, List.length_singleton] at ih
      rw [hbytes, Between, if_neg hend]
      exact ⟨by omega, fun heq => ih.2 (by omega)⟩

/-- A stream without errors. -/
theorem between_bytes {n : Nat} (c : List UInt8) (k : Nat) : Between n k (c.map .byte) := by
  induction c generalizing k with
  | nil => trivial
  | cons b c ih => exact ih _

/-! ## The array -/

/-- The text of a buffer that holds it with a NUL byte behind. -/
theorem text_of_prefix {bufsiz : Nat} {buf : Nat → UInt8} {bs : List UInt8}
    (hnul : ∀ b ∈ bs, b ≠ 0) (hlen : bs.length < bufsiz)
    (hbs : ∀ k, k < bs.length → buf k = bs.getD k 0) (hend : buf bs.length = 0) :
    text bufsiz buf = bs := by
  obtain ⟨m, rfl⟩ : ∃ m, bufsiz = bs.length + (m + 1) := ⟨bufsiz - bs.length - 1, by omega⟩
  have hfront : (List.range bs.length).map buf = bs := by
    refine List.ext_getElem (by simp) ?_
    intro k hk hk'
    rw [List.getElem_map, List.getElem_range, hbs k hk', List.getD_eq_getElem?_getD,
      List.getElem?_eq_getElem hk', Option.getD_some]
  rw [text, List.range_add, List.map_append, hfront, List.takeWhile_append_of_pos (by
    intro b hb
    rw [bne_iff_ne]
    exact hnul b hb)]
  rw [List.range_succ_eq_map, List.map_cons, List.map_cons, List.takeWhile_cons_of_neg (by
    rw [Nat.add_zero, hend]
    decide), List.append_nil]

/-- The text that has just been stored. -/
theorem text_store {bufsiz : Nat} {buf : Nat → UInt8} {bs : List UInt8}
    (hnul : ∀ b ∈ bs, b ≠ 0) (hlen : bs.length < bufsiz) :
    text bufsiz (store buf 0 bs) = bs := by
  refine text_of_prefix hnul hlen ?_ ?_
  · intro k hk
    rw [store, if_neg (Nat.not_lt_zero k), Nat.zero_add, if_pos hk, Nat.sub_zero]
  · rw [store, if_neg (Nat.not_lt_zero _), Nat.zero_add, if_neg (Nat.lt_irrefl _), if_pos rfl]

/-! ## Lines and pieces -/

theorem not_beq_newline {c : List UInt8} (hc : newline ∉ c) : ∀ b ∈ c, ¬ (b == newline) = true := by
  intro b hb heq
  rw [beq_iff_eq] at heq
  exact hc (heq ▸ hb)

/-- The first line of an input, and the rest. -/
theorem endedLines_cons {c L : List UInt8} (hc : newline ∉ c) :
    endedLines (c ++ newline :: L) = (c ++ [newline]) :: endedLines L := by
  rw [endedLines, chunks_append (not_beq_newline hc) (by decide)]
  rfl

theorem endedLines_of_not_mem {c : List UInt8} (hc : newline ∉ c) : endedLines c = [] := by
  cases c with
  | nil => rfl
  | cons b c =>
      rw [endedLines, chunks_last (List.cons_ne_nil b c) (not_beq_newline hc)]
      rfl

/-- The first line of an input, the last one included, and the rest. -/
theorem lines_cons {c L : List UInt8} (hc : newline ∉ c) :
    lines (c ++ newline :: L) = (c ++ [newline]) :: lines L := by
  rw [lines, chunks_append (not_beq_newline hc) (by decide)]
  rfl

theorem pieces_short {n : Nat} {L : List UInt8} (h : L.length ≤ n) : pieces n L = [L] := by
  rw [pieces, if_pos (Or.inl h)]

/-- A line of more than a buffer is cut. -/
theorem pieces_full {n : Nat} {c L : List UInt8} (hc : c.length = n) (hn : 0 < n) (hL : L ≠ []) :
    pieces n (c ++ L) = c :: pieces n L := by
  have hpos := List.length_pos_iff.mpr hL
  rw [pieces, if_neg (by rw [List.length_append]; omega), List.take_left' hc, List.drop_left' hc]

/-- The last line is that of the rest. -/
theorem openLine_cons {c L : List UInt8} (hc : newline ∉ c) :
    openLine (c ++ newline :: L) = openLine L := by
  rw [openLine, chunks_append (not_beq_newline hc) (by decide)]
  rfl

theorem openLine_of_not_mem {c : List UInt8} (hc : newline ∉ c) : openLine c = c := by
  cases c with
  | nil => rfl
  | cons b c =>
      rw [openLine, chunks_last (List.cons_ne_nil b c) (not_beq_newline hc)]
      exact List.append_nil _

/-- A text is its lines, and the last one may be open. -/
theorem lines_eq (L : List UInt8) :
    lines L = endedLines L ++ if openLine L = [] then [] else [openLine L] := by
  induction hn : L.length using Nat.strongRecOn generalizing L with
  | _ n ih =>
      rcases exists_chunk (· == newline) L with hL | ⟨c, b, L', hc, hb, rfl⟩
      · have hno : newline ∉ L := fun hmem => hL newline hmem rfl
        rw [endedLines_of_not_mem hno, openLine_of_not_mem hno]
        cases L with
        | nil => rfl
        | cons x L =>
            rw [lines, chunks_last (List.cons_ne_nil x L) hL, if_neg (List.cons_ne_nil x L)]
            rw [List.map_singleton, Option.toList_none, List.append_nil]
            rfl
      · rw [beq_iff_eq] at hb
        subst hb
        have hno : newline ∉ c := fun hmem => hc newline hmem rfl
        rw [List.length_append, List.length_cons] at hn
        rw [lines_cons hno, endedLines_cons hno, openLine_cons hno,
          ih L'.length (by omega) L' rfl]
        rfl

/-- The lines are the input. -/
theorem flatten_lines (L : List UInt8) : (lines L).flatten = L := by
  induction hn : L.length using Nat.strongRecOn generalizing L with
  | _ n ih =>
      rcases exists_chunk (· == newline) L with hL | ⟨c, b, L', hc, hb, rfl⟩
      · cases L with
        | nil => rfl
        | cons x L =>
            rw [lines, chunks_last (List.cons_ne_nil x L) hL, List.map_singleton,
              List.flatten_singleton, Option.toList_none, List.append_nil]
      · rw [beq_iff_eq] at hb
        subst hb
        have hno : newline ∉ c := fun hmem => hc newline hmem rfl
        rw [List.length_append, List.length_cons] at hn
        rw [lines_cons hno, List.flatten_cons, ih L'.length (by omega) L' rfl, List.append_assoc]
        rfl

/-- The pieces are the line. -/
theorem flatten_pieces (n : Nat) (L : List UInt8) : (pieces n L).flatten = L := by
  fun_induction pieces n L with
  | case1 L h => exact List.append_nil L
  | case2 L h ih => rw [List.flatten_cons, ih, List.take_append_drop]

/-- A piece fits the buffer. -/
theorem length_le_of_mem_pieces {n : Nat} (hn : 0 < n) {L l : List UInt8} (h : l ∈ pieces n L) :
    l.length ≤ n := by
  fun_induction pieces n L with
  | case1 L hshort =>
      rw [List.mem_singleton.mp h]
      exact hshort.resolve_right (by omega)
  | case2 L hlong ih =>
      rcases List.mem_cons.mp h with rfl | h
      · rw [List.length_take]
        omega
      · exact ih h

/-! ## What is run for a text -/

theorem calls_nil (n : Nat) (hn : 0 < n) : calls n [] = [] := by
  rw [calls, openLine_of_not_mem List.not_mem_nil, pieces_short (Nat.zero_le n),
    List.filter_cons_of_neg (by rw [decide_eq_true_iff, List.length_nil]; omega)]
  rfl

/-- A line that fits is run whole. -/
theorem calls_line {n : Nat} {c L : List UInt8} (hc : newline ∉ c) (hlen : c.length < n) :
    calls n (c ++ newline :: L) = (c ++ [newline]) :: calls n L := by
  rw [calls, endedLines_cons hc, openLine_cons hc, List.flatMap_cons,
    pieces_short (by rw [List.length_append, List.length_singleton]; exact hlen)]
  rfl

/-- A full buffer is run as a piece of its line. -/
theorem calls_full {n : Nat} {c L : List UInt8} (hc : newline ∉ c) (hlen : c.length = n)
    (hn : 0 < n) : calls n (c ++ L) = c :: calls n L := by
  rcases exists_chunk (· == newline) L with hL | ⟨d, b, L', hd, hb, rfl⟩
  · have hL' : newline ∉ L := fun hmem => hL newline hmem rfl
    have hnot : newline ∉ c ++ L := by
      rw [List.mem_append]
      exact fun hmem => hmem.elim hc hL'
    rw [calls, calls, endedLines_of_not_mem hnot, endedLines_of_not_mem hL',
      openLine_of_not_mem hnot, openLine_of_not_mem hL']
    by_cases hnil : L = []
    · subst hnil
      rw [List.append_nil, pieces_short (Nat.le_of_eq hlen), pieces_short (Nat.zero_le n),
        List.filter_cons_of_pos (by rw [decide_eq_true_iff]; exact hlen),
        List.filter_cons_of_neg (by rw [decide_eq_true_iff, List.length_nil]; omega)]
      rfl
    · rw [pieces_full hlen hn hnil, List.filter_cons_of_pos (by rw [decide_eq_true_iff]; exact hlen)]
      rfl
  · rw [beq_iff_eq] at hb
    subst hb
    have hd' : newline ∉ d := fun hmem => hd newline hmem rfl
    have hcd : newline ∉ c ++ d := by
      rw [List.mem_append]
      exact fun hmem => hmem.elim hc hd'
    rw [calls, calls, ← List.append_assoc, endedLines_cons hcd, endedLines_cons hd',
      openLine_cons hcd, openLine_cons hd', List.flatMap_cons, List.flatMap_cons,
      List.append_assoc c d,
      pieces_full hlen hn (List.append_ne_nil_of_right_ne_nil d (List.cons_ne_nil newline []))]
    rfl

/-- An open line that does not fill the buffer is not run. -/
theorem calls_rest {n : Nat} {c : List UInt8} (hc : newline ∉ c) (hlen : c.length < n) :
    calls n c = [] := by
  rw [calls, endedLines_of_not_mem hc, openLine_of_not_mem hc,
    pieces_short (Nat.le_of_lt hlen),
    List.filter_cons_of_neg (by rw [decide_eq_true_iff]; omega)]
  rfl

theorem length_flatten_filter {α : Type} (p : List α → Bool) (M : List (List α)) :
    (M.filter p).flatten.length ≤ M.flatten.length := by
  induction M with
  | nil => exact Nat.le_refl _
  | cons l M ih =>
      by_cases hl : p l = true
      · rw [List.filter_cons_of_pos hl, List.flatten_cons, List.flatten_cons, List.length_append,
          List.length_append]
        omega
      · rw [List.filter_cons_of_neg hl, List.flatten_cons, List.length_append]
        omega

/-- What is run is no longer than the text. -/
theorem length_flatten_calls (n : Nat) (L : List UInt8) : (calls n L).flatten.length ≤ L.length := by
  have hended : ((endedLines L).flatMap (pieces n)).flatten = (endedLines L).flatten := by
    induction endedLines L with
    | nil => rfl
    | cons l M ih =>
        rw [List.flatMap_cons, List.flatten_append, flatten_pieces, ih, List.flatten_cons]
  have hopen : ((pieces n (openLine L)).filter fun l => l.length = n).flatten.length
      ≤ (openLine L).length := by
    have hall := length_flatten_filter (fun l : List UInt8 => decide (l.length = n))
      (pieces n (openLine L))
    rwa [flatten_pieces] at hall
  have hlines : (endedLines L).flatten.length + (openLine L).length = L.length := by
    have hall := congrArg List.length (congrArg List.flatten (lines_eq L))
    rw [flatten_lines, List.flatten_append, List.length_append] at hall
    rw [hall]
    congr 1
    split_ifs with hnil
    · rw [hnil]
      rfl
    · rw [List.flatten_singleton]
  rw [calls, List.flatten_append, List.length_append, hended]
  omega

/-- The whole text is run, line by line. -/
def RunWhole (n : Nat) (L : List UInt8) : Prop :=
  (∀ l ∈ lines L, l.length ≤ n) ∧ (openLine L = [] ∨ (openLine L).length = n)

/-- **THE LINES ARE RUN** if and only if they fit, and an open one fills the buffer. -/
theorem calls_eq_lines {n : Nat} (hn : 0 < n) (L : List UInt8) :
    calls n L = lines L ↔ RunWhole n L := by
  have hended : (∀ l ∈ endedLines L, l.length ≤ n) →
      (endedLines L).flatMap (pieces n) = endedLines L := by
    intro hshort
    generalize endedLines L = M at hshort
    induction M with
    | nil => rfl
    | cons l M ih =>
        rw [List.flatMap_cons, ih fun l hl => hshort l (List.mem_cons_of_mem _ hl),
          pieces_short (hshort l List.mem_cons_self)]
        rfl
  have hmem : ∀ l ∈ endedLines L, l ∈ lines L := by
    intro l hl
    rw [lines_eq]
    exact List.mem_append_left _ hl
  constructor
  · intro heq
    have hfits : ∀ l ∈ lines L, l.length ≤ n := by
      intro l hl
      rw [← heq, calls] at hl
      rcases List.mem_append.mp hl with hl | hl
      · obtain ⟨l', -, hl⟩ := List.mem_flatMap.mp hl
        exact length_le_of_mem_pieces hn hl
      · exact length_le_of_mem_pieces hn (List.mem_of_mem_filter hl)
    refine ⟨hfits, ?_⟩
    by_cases hnil : openLine L = []
    · exact Or.inl hnil
    -- an open line that is not run is missing
    refine Or.inr ?_
    have hle : (openLine L).length ≤ n := by
      refine hfits _ ?_
      rw [lines_eq, if_neg hnil]
      exact List.mem_append_right _ List.mem_cons_self
    by_contra hne
    rw [calls, hended fun l hl => hfits l (hmem l hl), lines_eq, if_neg hnil, pieces_short hle,
      List.filter_cons_of_neg (by rw [decide_eq_true_iff]; exact hne)] at heq
    exact List.cons_ne_nil _ _ (List.append_cancel_left heq).symm
  · rintro ⟨hfits, hopen⟩
    rw [calls, hended fun l hl => hfits l (hmem l hl), lines_eq]
    congr 1
    rcases hopen with hnil | hfull
    · rw [if_pos hnil, hnil, pieces_short (Nat.zero_le n)]
      exact List.filter_cons_of_neg (by rw [decide_eq_true_iff, List.length_nil]; omega)
    · have hne : openLine L ≠ [] := List.length_pos_iff.mp (by omega)
      rw [if_neg hne, pieces_short (Nat.le_of_eq hfull)]
      exact List.filter_cons_of_pos (by rw [decide_eq_true_iff]; exact hfull)

/-! ## The loop -/

/-- The calls of `run_line`, in order. -/
theorem runs_append (a b : List Action) : runs (a ++ b) = runs a ++ runs b :=
  List.filterMap_append ..

/-- What holds at the loop test. -/
structure LoopInv (s : Shell) : Prop where
  nulFree : ∀ b ∈ bytes s.stream.rest, b ≠ 0
  interrupts : Interrupts s.stream.rest
  error : s.stream.error = none
  ended : s.stream.eof = true → s.stream.rest = []
  reading : s.stream.eof = false → s.bufpos = 0

/-- What the loop still runs. -/
def Rest (bufsiz : Nat) (s : Shell) (r : List Action) : Prop :=
  runs r = runs s.actions ++ calls (bufsiz - 1) (kept (bufsiz - 1) [] s.stream.rest)

/-- Each pass takes an event, or finds the end of the file. -/
def toGo (s : Shell) : Nat := 2 * s.stream.rest.length + (if s.stream.eof = true then 0 else 1)

/-- The body after the prompt: the next state or the end, by what was read. -/
theorem body_eq {bufsiz : Nat} {quiet : Bool} {s : Shell} (heof : s.stream.eof = false) :
    ∃ acts b, runs acts = runs s.actions ∧ body bufsiz quiet s
      = match fgets s.buf s.bufpos (bufsiz - s.bufpos) s.stream with
        | (true, buf, f) => .again (runComplete bufsiz
            { s with stream := f, buf := buf, needprompt := b, actions := acts })
        | (false, buf, f) =>
            if f.error = some eintr then
              .again (runComplete bufsiz { s with
                stream := f.clearerr, buf := Function.update buf s.bufpos 0
                needprompt := b, actions := acts })
            else .leave (if f.error.isSome = true then acts ++ [.perror] else acts) := by
  rw [body, if_neg (by rw [heof]; exact Bool.false_ne_true)]
  by_cases hp : (s.needprompt && !quiet) = true
  · refine ⟨s.actions ++ [.prompt], false, ?_, ?_⟩
    · rw [runs_append]
      exact List.append_nil _
    · simp only [hp, if_true]
  · refine ⟨s.actions, s.needprompt, rfl, ?_⟩
    simp only [if_neg hp]

/-- A text that is run. -/
theorem runComplete_run {bufsiz : Nat} {s : Shell} {bs : List UInt8}
    (htext : text bufsiz s.buf = bs)
    (h : bs.length = bufsiz - 1 ∨ (0 < bs.length ∧ bs.getLast? = some newline)) :
    runComplete bufsiz s
      = { s with bufpos := 0, needprompt := true, actions := s.actions ++ [.runLine bs] } := by
  rw [runComplete, htext]
  exact if_pos h

/-- A text that is kept. -/
theorem runComplete_keep {bufsiz : Nat} {s : Shell} {bs : List UInt8}
    (htext : text bufsiz s.buf = bs)
    (h : ¬ (bs.length = bufsiz - 1 ∨ (0 < bs.length ∧ bs.getLast? = some newline))) :
    runComplete bufsiz s = { s with bufpos := bs.length } := by
  rw [runComplete, htext]
  exact if_neg h

/-- A pass leaves the loop, or goes on with less to read; what is run from there
    on is what is to be run from here on. -/
def Passes (bufsiz : Nat) (quiet : Bool) (s : Shell) : Prop :=
  (∃ r, body bufsiz quiet s = .leave r ∧ Rest bufsiz s r)
    ∨ ∃ s', body bufsiz quiet s = .again s' ∧ LoopInv s' ∧ toGo s' < toGo s
        ∧ ∀ r, Rest bufsiz s' r → Rest bufsiz s r

theorem Interrupts.append {ev ev' : List Event} (h : Interrupts (ev ++ ev')) : Interrupts ev' :=
  fun e left hmem => h e left (List.mem_append_right _ hmem)

section Passes

variable {bufsiz : Nat} {quiet : Bool} {s : Shell} {c : List UInt8} {ev : List Event}
variable (h : LoopInv s) (heof : s.stream.eof = false)

include heof in
theorem toGo_reading : toGo s = 2 * s.stream.rest.length + 1 := by
  rw [toGo, heof]
  rfl

include h heof

/-- `fgets` reads a line. -/
theorem pass_line (hc : newline ∉ c) (hlen : c.length < bufsiz - 1)
    (hev : s.stream.rest = (c ++ [newline]).map .byte ++ ev)
    (htook : gets (bufsiz - 1) s.stream.rest = (c ++ [newline], .filled, ev)) :
    Passes bufsiz quiet s := by
  obtain ⟨acts, prompt, hacts, hbody⟩ := @body_eq bufsiz quiet s heof
  have hnul := h.nulFree
  have hinterrupts := h.interrupts
  rw [hev, bytes_map] at hnul
  rw [hev] at hinterrupts
  have hlen' : (c ++ [newline]).length = c.length + 1 := by
    rw [List.length_append, List.length_singleton]
  have htext : text bufsiz (store s.buf 0 (c ++ [newline])) = c ++ [newline] :=
    text_store (fun b hb => hnul b (List.mem_append_left _ hb)) (by omega)
  rw [Passes, hbody, h.reading heof, Nat.sub_zero, fgets, htook]
  refine Or.inr ⟨_, rfl, ?_⟩
  rw [runComplete_run htext (Or.inr ⟨by omega, List.getLast?_concat⟩)]
  refine ⟨⟨?_, hinterrupts.append, h.error, ?_, fun _ => rfl⟩, ?_, ?_⟩
  · exact fun b hb => hnul b (List.mem_append_right _ hb)
  · exact fun he => absurd he (by rw [heof]; exact Bool.false_ne_true)
  · rw [toGo_reading heof, toGo, heof, hev, List.length_append, List.length_map]
    show 2 * ev.length + 1 < _
    omega
  · intro r hr
    rw [Rest] at hr ⊢
    rw [hr, runs_append, hacts, hev, kept_line hc hlen, calls_line hc hlen, List.append_assoc]
    rfl

/-- `fgets` fills the buffer. -/
theorem pass_full (hsiz : 1 < bufsiz) (hc : newline ∉ c) (hlen : c.length = bufsiz - 1)
    (hev : s.stream.rest = c.map .byte ++ ev)
    (htook : gets (bufsiz - 1) s.stream.rest = (c, .filled, ev)) : Passes bufsiz quiet s := by
  obtain ⟨acts, prompt, hacts, hbody⟩ := @body_eq bufsiz quiet s heof
  have hnul := h.nulFree
  have hinterrupts := h.interrupts
  rw [hev, bytes_map] at hnul
  rw [hev] at hinterrupts
  have htext : text bufsiz (store s.buf 0 c) = c :=
    text_store (fun b hb => hnul b (List.mem_append_left _ hb)) (by omega)
  rw [Passes, hbody, h.reading heof, Nat.sub_zero, fgets, htook]
  refine Or.inr ⟨_, rfl, ?_⟩
  rw [runComplete_run htext (Or.inl hlen)]
  refine ⟨⟨?_, hinterrupts.append, h.error, ?_, fun _ => rfl⟩, ?_, ?_⟩
  · exact fun b hb => hnul b (List.mem_append_right _ hb)
  · exact fun he => absurd he (by rw [heof]; exact Bool.false_ne_true)
  · rw [toGo_reading heof, toGo, heof, hev, List.length_append, List.length_map]
    show 2 * ev.length + 1 < _
    omega
  · intro r hr
    rw [Rest] at hr ⊢
    rw [hr, runs_append, hacts, hev, kept_full hc hlen (by omega), calls_full hc hlen (by omega),
      List.append_assoc]
    rfl

/-- `fgets` finds the end of the file, behind a last line without a newline or at
    once. -/
theorem pass_ended (hsiz : 1 < bufsiz) (hc : newline ∉ c) (hlen : c.length < bufsiz - 1)
    (hev : s.stream.rest = c.map .byte)
    (htook : gets (bufsiz - 1) s.stream.rest = (c, .ended, [])) : Passes bufsiz quiet s := by
  obtain ⟨acts, prompt, hacts, hbody⟩ := @body_eq bufsiz quiet s heof
  have hbytes : bytes s.stream.rest = c := by
    rw [hev, ← List.append_nil (c.map Event.byte), bytes_map]
    exact List.append_nil c
  have hnone : calls (bufsiz - 1) (kept (bufsiz - 1) [] s.stream.rest) = [] := by
    rw [hev, kept_ended hc hlen, calls_rest hc hlen]
  rw [Passes, hbody, h.reading heof, Nat.sub_zero, fgets, htook]
  by_cases hnil : c = []
  · refine Or.inl ⟨acts, ?_, ?_⟩
    · simp only [if_pos hnil, h.error]
      rfl
    · rw [Rest, hnone, List.append_nil, hacts]
  · -- the line is kept in the buffer, and the loop ends at its test
    have hnul := h.nulFree
    rw [hbytes] at hnul
    have htext : text bufsiz (store s.buf 0 c) = c := text_store hnul (by omega)
    refine Or.inr ⟨_, by dsimp only; rw [if_neg hnil], ?_⟩
    rw [runComplete_keep htext (by
      rintro (hfull | ⟨-, hlast⟩)
      · omega
      · exact hc (List.mem_of_getLast? hlast))]
    refine ⟨⟨?_, ?_, h.error, fun _ => rfl, Bool.noConfusion⟩, ?_, ?_⟩
    · intro b hb
      cases hb
    · intro e left hmem
      cases hmem
    · rw [toGo_reading heof, toGo]
      show 0 < _
      omega
    · intro r hr
      rw [Rest] at hr ⊢
      rw [hr, hnone, hacts]
      exact congrArg _ (calls_nil (bufsiz - 1) (by omega))

/-- A read error interrupts `fgets`. -/
theorem pass_failed {e : Nat} {left : Nat → UInt8} (hsiz : 1 < bufsiz) (hc : newline ∉ c)
    (hlen : c.length < bufsiz - 1) (hev : s.stream.rest = c.map .byte ++ .fail e left :: ev)
    (htook : gets (bufsiz - 1) s.stream.rest = (c, .failed e left, ev)) :
    Passes bufsiz quiet s := by
  obtain ⟨acts, prompt, hacts, hbody⟩ := @body_eq bufsiz quiet s heof
  have hnul := h.nulFree
  have hinterrupts := h.interrupts
  rw [hev, bytes_map] at hnul
  rw [hev] at hinterrupts
  have hafter := hinterrupts.append
  obtain rfl : e = eintr := hafter e left List.mem_cons_self
  -- the terminator is stored where the read began
  have htext : ∀ buf : Nat → UInt8, text bufsiz (Function.update buf 0 0) = [] := by
    intro buf
    refine text_of_prefix (fun b hb => absurd hb List.not_mem_nil) (by show 0 < _; omega) ?_ ?_
    · intro k hk
      exact absurd hk (Nat.not_lt_zero k)
    · exact Function.update_self ..
  rw [Passes, hbody, h.reading heof, Nat.sub_zero, fgets, htook]
  refine Or.inr ⟨_, if_pos rfl, ?_⟩
  rw [runComplete_keep (htext _) (by
    rintro (hfull | ⟨hlt, -⟩)
    · rw [List.length_nil] at hfull
      omega
    · exact Nat.not_lt_zero _ hlt)]
  refine ⟨⟨?_, ?_, rfl, Bool.noConfusion, fun _ => rfl⟩, ?_, ?_⟩
  · exact fun b hb => hnul b (List.mem_append_right _ hb)
  · exact fun e' left' hmem => hafter e' left' (List.mem_cons_of_mem _ hmem)
  · rw [toGo_reading heof, toGo, hev, List.length_append, List.length_map, List.length_cons]
    show 2 * ev.length + 1 < _
    omega
  · intro r hr
    rw [Rest] at hr ⊢
    rw [hr, hev, kept_failed hc hlen]
    exact congrArg (· ++ _) hacts

end Passes

/-- **ONE PASS** of the read loop. -/
theorem body_step {bufsiz : Nat} {quiet : Bool} (hsiz : 1 < bufsiz) {s : Shell} (h : LoopInv s) :
    Passes bufsiz quiet s := by
  by_cases heof : s.stream.eof = true
  · refine Or.inl ⟨s.actions, by rw [body, if_pos heof], ?_⟩
    have hnone : calls (bufsiz - 1) (kept (bufsiz - 1) [] s.stream.rest) = [] := by
      rw [h.ended heof]
      exact calls_nil (bufsiz - 1) (by omega)
    rw [Rest, hnone, List.append_nil]
  rw [Bool.not_eq_true] at heof
  have hcases := gets_cases (bufsiz - 1) s.stream.rest
  generalize htook : gets (bufsiz - 1) s.stream.rest = took at hcases
  cases hcases with
  | line c ev hc hlen hev => exact pass_line h heof hc hlen hev htook
  | full c ev hc hlen hev => exact pass_full h heof hsiz hc hlen hev htook
  | ended c hc hlen hev => exact pass_ended h heof hsiz hc hlen hev htook
  | failed c e left ev hc hlen hev => exact pass_failed h heof hsiz hc hlen hev htook

/-- The loop ends, and what it has run. -/
theorem mainLoop_runs {bufsiz : Nat} (hsiz : 1 < bufsiz) (quiet : Bool) (buf : Nat → UInt8)
    {events : List Event} (hnul : ∀ b ∈ bytes events, b ≠ 0) (heintr : Interrupts events) :
    ∃ r, Returns (mainLoop bufsiz quiet buf events) r
      ∧ runs r = calls (bufsiz - 1) (kept (bufsiz - 1) [] events) := by
  obtain ⟨r, hr, hrun⟩ := run_measure LoopInv toGo (Rest bufsiz)
    (fun s hs => @body_step bufsiz quiet hsiz s hs)
    { stream := { rest := events, eof := false, error := none }
      buf := buf, bufpos := 0, needprompt := true, actions := [] }
    ⟨hnul, heintr, rfl, fun he => absurd he Bool.false_ne_true, fun _ => rfl⟩
  exact ⟨r, ⟨_, fun fuel hf => hrun fuel hf⟩, hr⟩

/-- **THE READ LOOP**, for every stream: it ends, and runs each line that a newline
    ends, in order and once, whole when it fits the buffer and otherwise in pieces
    that fill it; of a last line without a newline only such pieces are run.  An
    error that comes inside a line loses what was taken of it.  So the lines of the
    input are run, and nothing else, if and only if no error comes inside a line,
    all lines fit, and a last line without a newline fills the buffer. -/
theorem mainLoop_spec {bufsiz : Nat} (hsiz : 1 < bufsiz) (quiet : Bool) (buf : Nat → UInt8)
    {events : List Event} (hnul : ∀ b ∈ bytes events, b ≠ 0) (heintr : Interrupts events) :
    ∃ r, Returns (mainLoop bufsiz quiet buf events) r
      ∧ runs r = calls (bufsiz - 1) (kept (bufsiz - 1) [] events)
      ∧ (Between (bufsiz - 1) 0 events → runs r = calls (bufsiz - 1) (bytes events))
      ∧ (runs r = lines (bytes events) ↔
          Between (bufsiz - 1) 0 events ∧ RunWhole (bufsiz - 1) (bytes events)) := by
  obtain ⟨r, hret, hruns⟩ := mainLoop_runs hsiz quiet buf hnul heintr
  have hkept : Between (bufsiz - 1) 0 events →
      kept (bufsiz - 1) [] events = bytes events :=
    fun hb => @kept_of_between _ [] _ hb
  refine ⟨r, hret, hruns, fun hb => by rw [hruns, hkept hb], ?_⟩
  rw [hruns]
  constructor
  · intro heq
    -- no byte is missing in what is run
    have hlen : (bytes events).length ≤ (kept (bufsiz - 1) [] events).length := by
      rw [← flatten_lines (bytes events), ← heq]
      exact length_flatten_calls _ _
    obtain ⟨hle, hbetween⟩ := @length_kept (bufsiz - 1) [] events
    rw [List.length_nil, Nat.zero_add] at hle hbetween
    have hb := hbetween (by omega)
    rw [hkept hb] at heq
    exact ⟨hb, (calls_eq_lines (by omega) _).mp heq⟩
  · rintro ⟨hb, hwhole⟩
    rw [hkept hb]
    exact (calls_eq_lines (by omega) _).mpr hwhole

/-- Two lines, the second after an interrupted read. -/
theorem mainLoop_spec_small :
    ∃ r, Returns (mainLoop 8192 true (fun _ => 0)
          [.byte 97, .byte newline, .fail eintr (fun _ => 1), .byte 98, .byte newline]) r
      ∧ runs r = [[97, newline], [98, newline]] := by
  obtain ⟨r, hret, -, -, hiff⟩ := @mainLoop_spec 8192 (by decide) true (fun _ => 0)
    [.byte 97, .byte newline, .fail eintr (fun _ => 1), .byte 98, .byte newline]
    (by simp [bytes, newline]) (by
      intro e left hmem
      simp only [List.mem_cons, reduceCtorEq, Event.fail.injEq, List.not_mem_nil, false_or,
        or_false] at hmem
      exact hmem.1)
  refine ⟨r, hret, hiff.mpr ⟨⟨rfl, ?_⟩, ?_, ?_⟩⟩
  · trivial
  · decide
  · decide

/-- A line that is longer than the buffer is cut, a last line without a newline is
    not run, and an error inside a line loses its beginning. -/
theorem not_line_by_line :
    (∃ events r, (∀ b ∈ bytes events, b ≠ 0) ∧ Between 8191 0 events
        ∧ openLine (bytes events) = []
        ∧ Returns (mainLoop 8192 true (fun _ => 0) events) r ∧ runs r ≠ lines (bytes events))
      ∧ (∃ r, Returns (mainLoop 8192 true (fun _ => 0) [.byte 97]) r ∧ runs r ≠ lines [97])
      ∧ ∃ r, Returns (mainLoop 8192 true (fun _ => 0)
          [.byte 97, .fail eintr (fun _ => 1), .byte 98, .byte newline]) r
        ∧ runs r ≠ lines [97, 98, newline] := by
  have hbyte : ∀ c : List UInt8, Interrupts (c.map .byte) := by
    intro c e left hmem
    obtain ⟨b, -, hb⟩ := List.mem_map.mp hmem
    cases hb
  refine ⟨?_, ?_, ?_⟩
  · -- a line of 8192 bytes
    obtain ⟨c, hlen, hc⟩ : ∃ c : List UInt8, c.length = 8192 ∧ ∀ b ∈ c, b = 97 :=
      ⟨List.replicate 8192 97, List.length_replicate, fun b hb => (List.mem_replicate.mp hb).2⟩
    have hno : newline ∉ c := fun hmem => absurd (hc _ hmem) (by decide)
    have hbytes : bytes ((c ++ [newline]).map .byte) = c ++ [newline] := by
      rw [← List.append_nil (List.map _ _), bytes_map]
      exact List.append_nil _
    have hnul : ∀ b ∈ bytes ((c ++ [newline]).map .byte), b ≠ 0 := by
      rw [hbytes]
      intro b hb
      rcases List.mem_append.mp hb with hb | hb
      · rw [hc b hb]
        decide
      · rw [List.mem_singleton.mp hb]
        decide
    obtain ⟨r, hret, hruns⟩ := @mainLoop_runs 8192 (by omega) true (fun _ => 0) _ hnul (hbyte _)
    refine ⟨_, r, hnul, between_bytes _ 0, ?_, hret, ?_⟩
    · rw [hbytes, openLine_cons hno]
      rfl
    · rw [hruns, @kept_of_between _ [] _ (between_bytes _ 0), List.nil_append, hbytes]
      intro heq
      have hfits := ((calls_eq_lines (by omega) _).mp heq).1 (c ++ [newline]) (by
        rw [lines_cons hno]
        exact List.mem_cons_self)
      rw [List.length_append, hlen] at hfits
      omega
  · -- a last line without its newline
    obtain ⟨r, hret, hruns⟩ := @mainLoop_runs 8192 (by omega) true (fun _ => 0) [.byte 97]
      (by simp [bytes]) (hbyte [97])
    refine ⟨r, hret, ?_⟩
    have hnone : calls 8191 (kept 8191 [] [.byte 97]) = [] := calls_rest (c := [97]) (by decide)
      (by decide)
    rw [hruns, hnone]
    decide
  · -- an interrupted read after a first byte
    obtain ⟨r, hret, hruns⟩ := @mainLoop_runs 8192 (by omega) true (fun _ => 0)
      [.byte 97, .fail eintr (fun _ => 1), .byte 98, .byte newline] (by simp [bytes, newline]) (by
        intro e left hmem
        simp only [List.mem_cons, reduceCtorEq, Event.fail.injEq, List.not_mem_nil, false_or,
          or_false] at hmem
        exact hmem.1)
    refine ⟨r, hret, ?_⟩
    have hone : calls 8191 (kept 8191 [] [.byte 97, .fail eintr (fun _ => 1), .byte 98, .byte newline])
        = [[98, newline]] := by
      have hline := calls_line (n := 8191) (c := [98]) (L := []) (by decide) (by decide)
      rw [calls_nil 8191 (by omega)] at hline
      exact hline
    rw [hruns, hone]
    decide

end ReadLoop
