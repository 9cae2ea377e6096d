import Cs61.ShellParser

/-! # `shell_tokenizer::str` — the text of a token

    `str` goes through the bytes of a token once more, with its own state of
    quotes.  Its escapes look at the next byte of the line, not at the end of
    the token, so a token that is cut off after a backslash is read on past
    its end.

    * `str_isSome` — the text of a token of the whole line;
    * `str_cut_ne` — a word that is cut off has another text. -/

namespace ShellText

open ShellTokens TokenLists ShellParser

/-- A string: no byte of it is the terminator. -/
structure CommandLine extends Line where
  nulFree : ∀ b ∈ bytes, b ≠ 0

/-! ## The two loops -/

section Loops

variable {line : Line}

theorem rawText_succ (s len : Nat) :
    rawText line s (len + 1) = line.byte s :: rawText line (s + 1) len := by
  rw [rawText, List.range'_succ, List.map_cons]
  rfl

/-- As many bytes as asked for. -/
theorem rawText_length (s len : Nat) : (rawText line s len).length = len := by
  rw [rawText, List.length_map, List.length_range']

/-- One pass of the loop of `str`, in the shape of the source. -/
theorem strLoop_succ (left p : Nat) (c : UInt8) : strLoop line (left + 1) p c
    = if (line.byte p = dquote ∨ line.byte p = squote) ∧ c = 0 then
        strLoop line left (p + 1) (line.byte p)
      else if line.byte p = c then strLoop line left (p + 1) 0
      else if line.byte p = backslash ∧ line.byte (p + 1) ≠ 0 ∧ c ≠ squote then
        if left = 0 then none
        else (strLoop line (left - 1) (p + 2) c).map (line.byte (p + 1) :: ·)
      else (strLoop line left (p + 1) c).map (line.byte p :: ·) := by
  cases left with
  | zero =>
      rw [strLoop.eq_def]
      simp
  | succ left =>
      rw [strLoop.eq_def]
      simp

/-- Behind the line stands a NUL byte. -/
theorem byte_length (line : Line) : line.byte line.length = 0 := by
  rw [Line.byte, List.getD_eq_getElem?_getD, Line.length, List.getElem?_eq_none (Nat.le_refl _)]
  rfl

theorem byte_ne_zero (hnul : ∀ b ∈ line.bytes, b ≠ 0) {i : Nat} (h : i < line.length) :
    line.byte i ≠ 0 := by
  have hlt : i < line.bytes.length := h
  rw [Line.byte, List.getD_eq_getElem?_getD, List.getElem?_eq_getElem hlt]
  exact hnul _ (List.getElem_mem hlt)

/-- Where the word loop escapes a byte, `str` does, too: both see the end of the line. -/
theorem escapes_iff (hnul : ∀ b ∈ line.bytes, b ≠ 0) {left p : Nat} {c : UInt8}
    (hp : p + 1 + left = line.length) :
    (line.byte p = backslash ∧ line.byte (p + 1) ≠ 0 ∧ c ≠ squote)
      ↔ (line.byte p = backslash ∧ left ≠ 0 ∧ c ≠ squote) := by
  -- the only zero byte that is read is the terminator of the line
  have hbyte : line.byte (p + 1) ≠ 0 ↔ left ≠ 0 := by
    constructor
    · rintro h rfl
      rw [hp] at h
      exact h (byte_length line)
    · intro h
      exact byte_ne_zero hnul (by omega)
  rw [hbyte]

/-- A blank is no quote and no backslash. -/
theorem isspace_ne {b : UInt8} (h : isspace b = true) :
    b ≠ dquote ∧ b ≠ squote ∧ b ≠ backslash := by
  refine ⟨?_, ?_, ?_⟩ <;> rintro rfl <;> revert h <;> decide

/-- What the word loop and the loop of `str` do with the byte at `p`, if the
    word does not end there; `n` bytes of the line are left after it. -/
inductive Pass (line : Line) (n p : Nat) (c : UInt8) : Prop where
  | opening (quote : line.byte p = dquote ∨ line.byte p = squote) (unquoted : c = 0)
      (scan : ∀ m q, scanWord line (m + 1) p c q = scanWord line m (p + 1) (line.byte p) true)
      (text : ∀ k, strLoop line (k + 1) p c = strLoop line k (p + 1) (line.byte p))
  | closing (quote : line.byte p = c)
      (scan : ∀ m q, scanWord line (m + 1) p c q = scanWord line m (p + 1) 0 q)
      (text : ∀ k, strLoop line (k + 1) p c = strLoop line k (p + 1) 0)
  | escape (quote : line.byte p = backslash) (more : n ≠ 0)
      (last : ∀ q, scanWord line 1 p c q = (p + 1, q))
      (scan : ∀ m q, scanWord line (m + 2) p c q = scanWord line m (p + 2) c true)
      (overrun : strLoop line 1 p c = none)
      (text : ∀ k, strLoop line (k + 2) p c
        = (strLoop line k (p + 2) c).map (line.byte (p + 1) :: ·))
  | literal (scan : ∀ m q, m ≤ n → scanWord line (m + 1) p c q = scanWord line m (p + 1) c q)
      (text : ∀ k, strLoop line (k + 1) p c = (strLoop line k (p + 1) c).map (line.byte p :: ·))

theorem pass {n p : Nat} {c : UInt8} (hnul : ∀ b ∈ line.bytes, b ≠ 0)
    (hp : p + 1 + n = line.length)
    (hstop : ¬ (c = 0 ∧ (isspace (line.byte p) = true ∨ isshellspecial (line.byte p) = true))) :
    Pass line n p c := by
  have hescape := escapes_iff (c := c) hnul hp
  by_cases h1 : (line.byte p = dquote ∨ line.byte p = squote) ∧ c = 0
  · refine .opening h1.1 h1.2 ?_ ?_
    · intro m q
      rw [scanWord_succ, if_neg hstop, if_pos h1]
    · intro k
      rw [strLoop_succ, if_pos h1]
  by_cases h2 : line.byte p = c
  · refine .closing h2 ?_ ?_
    · intro m q
      rw [scanWord_succ, if_neg hstop, if_neg h1, if_pos h2]
    · intro k
      rw [strLoop_succ, if_neg h1, if_pos h2]
  by_cases h3 : line.byte p = backslash ∧ n ≠ 0 ∧ c ≠ squote
  · refine .escape h3.1 h3.2.1 ?_ ?_ ?_ ?_
    · intro q
      rw [scanWord_succ, if_neg hstop, if_neg h1, if_neg h2, if_neg (fun h => h.2.1 rfl), scanWord]
    · intro m q
      rw [scanWord_succ, if_neg hstop, if_neg h1, if_neg h2,
        if_pos ⟨h3.1, Nat.succ_ne_zero m, h3.2.2⟩]
      rfl
    · rw [strLoop_succ, if_neg h1, if_neg h2, if_pos (hescape.mpr h3), if_pos rfl]
    · intro k
      rw [strLoop_succ, if_neg h1, if_neg h2, if_pos (hescape.mpr h3), if_neg (Nat.succ_ne_zero k)]
      rfl
  · refine .literal ?_ ?_
    · intro m q hm
      have h3' : ¬ (line.byte p = backslash ∧ m ≠ 0 ∧ c ≠ squote) :=
        fun h => h3 ⟨h.1, by omega, h.2.2⟩
      rw [scanWord_succ, if_neg hstop, if_neg h1, if_neg h2, if_neg h3']
    · intro k
      rw [strLoop_succ, if_neg h1, if_neg h2, if_neg (fun h => h3 (hescape.mp h))]

/-- A word goes on at its first byte. -/
theorem not_stop {n p k : Nat} {c : UInt8} {q : Bool} (hk : (scanWord line n p c q).1 = p + k)
    (h : 0 < k) : (∃ j, n = j + 1)
      ∧ ¬ (c = 0 ∧ (isspace (line.byte p) = true ∨ isshellspecial (line.byte p) = true)) := by
  have hn := (scanWord_bounds line n p c q).2
  obtain ⟨j, rfl⟩ : ∃ j, n = j + 1 := ⟨n - 1, by omega⟩
  refine ⟨⟨j, rfl⟩, fun hstop => ?_⟩
  rw [scanWord_succ, if_pos hstop] at hk
  omega

/-- The loop of `str` returns on a word of the whole line. -/
theorem strLoop_isSome (hnul : ∀ b ∈ line.bytes, b ≠ 0) {n p k : Nat} {c : UInt8} {q : Bool}
    (hp : p + n = line.length) (hk : (scanWord line n p c q).1 = p + k) :
    ∃ w, strLoop line k p c = some w := by
  induction k using Nat.strongRecOn generalizing n p c q with
  | _ k ih =>
      cases k with
      | zero => exact ⟨[], by rw [strLoop]⟩
      | succ k =>
          obtain ⟨⟨n, rfl⟩, hstop⟩ := not_stop hk (Nat.succ_pos k)
          -- both loops take the same bytes, so `str` never steps over the end
          cases pass (n := n) hnul (by omega) hstop with
          | opening _ _ scan text =>
              rw [scan] at hk
              rw [text]
              exact ih k (by omega) (n := n) (by omega) (by rw [hk]; omega)
          | closing _ scan text =>
              rw [scan] at hk
              rw [text]
              exact ih k (by omega) (n := n) (by omega) (by rw [hk]; omega)
          | escape _ more _ scan _ text =>
              obtain ⟨n, rfl⟩ : ∃ j, n = j + 1 := ⟨n - 1, by omega⟩
              have hle := (scanWord_bounds line n (p + 2) c true).1
              rw [scan] at hk
              obtain ⟨k, rfl⟩ : ∃ j, k = j + 1 := ⟨k - 1, by omega⟩
              obtain ⟨w, hw⟩ := ih k (by omega) (n := n) (p := p + 2) (by omega) (by rw [hk]; omega)
              exact ⟨_, by rw [text, hw]; rfl⟩
          | literal scan text =>
              rw [scan n q (Nat.le_refl n)] at hk
              obtain ⟨w, hw⟩ := ih k (by omega) (n := n) (p := p + 1) (by omega) (by rw [hk]; omega)
              exact ⟨_, by rw [text, hw]; rfl⟩

/-- A word that is cut off in whitespace: the loop of `str` gives another text. -/
theorem strLoop_cut_ne (hnul : ∀ b ∈ line.bytes, b ≠ 0) {n p m k : Nat} {c : UInt8} {q : Bool}
    (hp : p + n = line.length) (hk : (scanWord line n p c q).1 = p + k) (hm : m < k)
    (hws : ∀ i, p + m ≤ i → i < p + k → isspace (line.byte i) = true)
    (hc : c = 0 ∨ c = dquote ∨ c = squote) {w : List UInt8} (hw : strLoop line k p c = some w) :
    strLoop line m p c ≠ some w := by
  induction m using Nat.strongRecOn generalizing n p k c q w with
  | _ m ih =>
      obtain ⟨⟨n, rfl⟩, hstop⟩ := not_stop hk (Nat.zero_lt_of_lt hm)
      obtain ⟨k, rfl⟩ : ∃ j, k = j + 1 := ⟨k - 1, by omega⟩
      have hpass := pass (n := n) hnul (by omega) hstop
      cases m with
      | zero =>
          -- whitespace goes on a word in quotes, and is part of the text
          have hspace := hws p (by omega) (by omega)
          obtain ⟨hd, hs, hb⟩ := isspace_ne hspace
          cases hpass with
          | opening quote => exact absurd quote (not_or.mpr ⟨hd, hs⟩)
          | closing quote =>
              rcases hc with rfl | rfl | rfl
              · exact absurd ⟨rfl, Or.inl hspace⟩ hstop
              · exact absurd quote hd
              · exact absurd quote hs
          | escape quote => exact absurd quote hb
          | literal _ text =>
              rw [text] at hw
              obtain ⟨v, -, rfl⟩ := Option.map_eq_some_iff.mp hw
              rw [strLoop]
              intro h
              cases Option.some.inj h
      | succ m =>
          cases hpass with
          | opening quote _ scan text =>
              -- a quote opens or closes, and the hypothesis is about the other state
              rw [scan] at hk
              rw [text] at hw ⊢
              exact ih m (by omega) (n := n) (k := k) (by omega) (by rw [hk]; omega) (by omega)
                (fun i h h' => hws i (by omega) (by omega)) (Or.inr quote) hw
          | closing _ scan text =>
              rw [scan] at hk
              rw [text] at hw ⊢
              exact ih m (by omega) (n := n) (k := k) (by omega) (by rw [hk]; omega) (by omega)
                (fun i h h' => hws i (by omega) (by omega)) (Or.inl rfl) hw
          | escape _ more _ scan overrun text =>
              -- an escape takes two bytes
              cases m with
              | zero =>
                  -- cut off after the backslash: `str` reads on past its end
                  rw [overrun]
                  exact fun h => by cases h
              | succ m =>
                  obtain ⟨n, rfl⟩ : ∃ j, n = j + 1 := ⟨n - 1, by omega⟩
                  obtain ⟨k, rfl⟩ : ∃ j, k = j + 1 := ⟨k - 1, by omega⟩
                  rw [scan] at hk
                  rw [text] at hw ⊢
                  obtain ⟨v, hv, rfl⟩ := Option.map_eq_some_iff.mp hw
                  intro h
                  obtain ⟨v', hv', heq⟩ := Option.map_eq_some_iff.mp h
                  obtain rfl := (List.cons.inj heq).2
                  exact ih m (by omega) (n := n) (p := p + 2) (k := k) (by omega)
                    (by rw [hk]; omega) (by omega) (fun i h h' => hws i (by omega) (by omega)) hc
                    hv hv'
          | literal scan text =>
              -- any other byte is in both texts
              rw [scan n q (Nat.le_refl n)] at hk
              rw [text] at hw ⊢
              obtain ⟨v, hv, rfl⟩ := Option.map_eq_some_iff.mp hw
              intro h
              obtain ⟨v', hv', heq⟩ := Option.map_eq_some_iff.mp h
              obtain rfl := (List.cons.inj heq).2
              exact ih m (by omega) (n := n) (p := p + 1) (k := k) (by omega) (by rw [hk]; omega)
                (by omega) (fun i h h' => hws i (by omega) (by omega)) hc hv hv'

/-- A word that is cut off before any quote or escape: its bytes are another text. -/
theorem rawText_cut_ne (hnul : ∀ b ∈ line.bytes, b ≠ 0) {n p m k : Nat} {q : Bool}
    (hp : p + n = line.length) (hk : (scanWord line n p 0 q).1 = p + k) (hm : m < k)
    (hws : ∀ i, p + m ≤ i → i < p + k → isspace (line.byte i) = true)
    (hraw : (scanWord line m p 0 false).2 = false) {w : List UInt8}
    (hw : strLoop line k p 0 = some w) : rawText line p m ≠ w := by
  induction m generalizing n p k q w with
  | zero =>
      exact absurd ⟨rfl, Or.inl (hws p (by omega) (by omega))⟩ (not_stop hk hm).2
  | succ m ih =>
      obtain ⟨⟨n, rfl⟩, hstop⟩ := not_stop hk (Nat.zero_lt_of_lt hm)
      obtain ⟨k, rfl⟩ : ∃ j, k = j + 1 := ⟨k - 1, by omega⟩
      have hkn := (scanWord_bounds line (n + 1) p 0 q).2
      rw [rawText_succ]
      cases pass (n := n) hnul (by omega) hstop with
      | opening _ _ scan =>
          rw [scan, scanWord_quoted] at hraw
          cases hraw
      | closing quote => exact absurd quote (byte_ne_zero hnul (by omega))
      | escape quote more _ scan _ text =>
          cases m with
          | zero =>
              -- the text has the escaped byte, the region only the backslash
              obtain ⟨n, rfl⟩ : ∃ j, n = j + 1 := ⟨n - 1, by omega⟩
              have hle := (scanWord_bounds line n (p + 2) 0 true).1
              rw [scan] at hk
              obtain ⟨k, rfl⟩ : ∃ j, k = j + 1 := ⟨k - 1, by omega⟩
              rw [text] at hw
              obtain ⟨v, -, rfl⟩ := Option.map_eq_some_iff.mp hw
              intro heq
              have hsame : line.byte p = line.byte (p + 1) := (List.cons.inj heq).1
              rw [quote] at hsame
              exact (isspace_ne (hws (p + 1) (by omega) (by omega))).2.2 hsame.symm
          | succ m =>
              rw [scan, scanWord_quoted] at hraw
              cases hraw
      | literal scan text =>
          rw [scan m false (by omega)] at hraw
          rw [scan n q (Nat.le_refl n)] at hk
          rw [text] at hw
          obtain ⟨v, hv, rfl⟩ := Option.map_eq_some_iff.mp hw
          intro heq
          exact ih (n := n) (p := p + 1) (k := k) (by omega) (by rw [hk]; omega) (by omega)
            (fun i h h' => hws i (by omega) (by omega)) hraw hv (List.cons.inj heq).2

end Loops

/-! ## The text of a token -/

section Text

variable {line : CommandLine} {t : Token}

/-- The text of a token whose length can be represented. -/
theorem str_atToken {e : Nat} (hshort : t.stop - t.start < 2 ^ 32) :
    (atToken e t).str line.toLine = if t.quoted = true then
        strLoop line.toLine (t.stop - t.start) t.start 0
      else some (rawText line.toLine t.start (t.stop - t.start)) := by
  rw [Tokenizer.str, atToken, Nat.mod_eq_of_lt hshort]

/-- A word of the whole line, as its loop sees it. -/
theorem scan_of_normal (ht : IsToken line.toLine line.length t) (hword : t.type = .normal) :
    scanWord line.toLine (line.length - t.start) t.start 0 false = (t.stop, t.quoted) := by
  have := scanWord_word (Nat.le_of_lt ht.lt) (ht.read.symm ▸ hword)
  rwa [ht.read] at this

/-- **THE WHOLE LINE**: `str` returns on each of its tokens. -/
theorem str_isSome (ht : IsToken line.toLine line.length t) (hshort : t.stop - t.start < 2 ^ 32) :
    ∃ w, (atToken line.length t).str line.toLine = some w := by
  rw [str_atToken hshort]
  by_cases hq : t.quoted = true
  · rw [if_pos hq]
    have hword : t.type = .normal := by
      rw [← ht.read] at hq ⊢
      exact normal_of_quoted hq
    have hlt := ht.lt_stop
    have hle := ht.lt
    refine strLoop_isSome line.nulFree (n := line.length - t.start) (q := false) (by omega) ?_
    rw [scan_of_normal ht hword]
    omega
  · rw [if_neg hq]
    exact ⟨_, rfl⟩

/-- **A TOKEN THAT IS CUT OFF** in its own whitespace has another text. -/
theorem str_cut_ne (ht : IsToken line.toLine line.length t) (hshort : t.stop - t.start < 2 ^ 32)
    {r : Nat} (hr : t.start < r) (hstop : r < t.stop)
    (hws : ∀ i, r ≤ i → i < t.stop → isspace (line.byte i) = true) {w : List UInt8}
    (hw : (atToken line.length t).str line.toLine = some w) :
    (atToken r (readToken line.toLine t.start r)).str line.toLine ≠ some w := by
  have hre : r ≤ line.length := Nat.le_of_lt (Nat.lt_of_lt_of_le hstop ht.stop_le)
  have hle := ht.lt
  have hword := ht.normal (Nat.le_of_lt hr) hstop (hws r (Nat.le_refl r) hstop)
  -- the token and its cut are words, read by one scan
  have hscan := scan_of_normal ht hword
  obtain ⟨htype, hcut⟩ := readToken_trim ht hr hre hws
  rw [Nat.min_eq_right (Nat.le_of_lt hstop)] at hcut
  have hscan' := scanWord_word (Nat.le_of_lt hr) (htype.trans hword)
  have hquoted := (scanWord_cut line.toLine t.start 0 false
    (show r - t.start ≤ line.length - t.start by omega)).2.2
  rw [hscan', hscan] at hquoted
  have hk : (scanWord line.toLine (line.length - t.start) t.start 0 false).1
      = t.start + (t.stop - t.start) := by
    rw [hscan]
    omega
  have hws' : ∀ i, t.start + (r - t.start) ≤ i → i < t.start + (t.stop - t.start) →
      isspace (line.byte i) = true := fun i h h' => hws i (by omega) (by omega)
  rw [str_atToken hshort] at hw
  rw [str_atToken (by rw [readToken_start]; omega), readToken_start, hcut]
  -- the cut has quotes, and so has the token
  by_cases hq' : (readToken line.toLine t.start r).quoted = true
  · rw [if_pos (hquoted hq')] at hw
    rw [if_pos hq']
    exact strLoop_cut_ne line.nulFree (by omega) hk (by omega) hws' (Or.inl rfl) hw
  rw [if_neg hq']
  intro heq
  have heq' := Option.some.inj heq
  -- the token has quotes behind the cut only
  by_cases hq : t.quoted = true
  · rw [if_pos hq] at hw
    refine rawText_cut_ne line.nulFree (n := line.length - t.start) (by omega) hk (by omega) hws'
      ?_ hw heq'
    rw [hscan']
    exact Bool.eq_false_iff.mpr hq'
  · -- without quotes, the texts differ in length
    rw [if_neg hq] at hw
    have hlen := congrArg List.length (heq'.trans (Option.some.inj hw).symm)
    rw [rawText_length, rawText_length] at hlen
    omega

end Text

end ShellText
