import Cs61.CommandText

/-! # What `str` reads

    `str` looks at the byte behind every backslash that it does not take for
    an escaped byte, and goes two bytes on.  If such a backslash ends the token,
    that byte is not the token's (`Dangles`).

    * `within_iff` — `str` stays in a token exactly if the token does not dangle;
    * `tracked_reached` — where the tokens of a region come from;
    * `safeText_iff` — the command lines all of whose tokens `str` stays in. -/

namespace StrReads

open LoopRules ShellTokens TokenLists ShellParser ShellRegions CommandSplit ShellText CommandText

/-! ## Reads -/

/-- A run of the loop of `str`: its passes, the bytes it reads, and whether
    `pos` steps over the end of the token and the loop goes on. -/
structure StrRun where
  passes : Nat
  reads : List Nat
  overran : Bool

/-- One more pass in front. -/
def StrRun.pass (r : StrRun) (reads : List Nat) : StrRun :=
  { passes := r.passes + 1, reads := reads ++ r.reads, overran := r.overran }

/-- The loop of `strLoop`; a run that steps over the end is cut there. -/
def strRun (line : Line) : Nat → Nat → UInt8 → StrRun
  | 0, _, _ => { passes := 0, reads := [], overran := false }
  | left + 1, pos, curquote =>
      if (line.byte pos = dquote ∨ line.byte pos = squote) ∧ curquote = 0 then
        (strRun line left (pos + 1) (line.byte pos)).pass [pos]
      else if line.byte pos = curquote then (strRun line left (pos + 1) 0).pass [pos]
      else if line.byte pos = backslash then
        if line.byte (pos + 1) ≠ 0 ∧ curquote ≠ squote then
          match left with
          | 0 => { passes := 1, reads := [pos, pos + 1], overran := true }
          | left + 1 => (strRun line left (pos + 2) curquote).pass [pos, pos + 1]
        else (strRun line left (pos + 1) curquote).pass [pos, pos + 1]
      else (strRun line left (pos + 1) curquote).pass [pos]

/-- What `str` does on a token; without quotes it copies the bytes. -/
def Tokenizer.strRun (line : Line) (it : Tokenizer) : StrRun :=
  if it.quoted = true then StrReads.strRun line it.len it.s 0
  else { passes := 0, reads := List.range' it.s it.len, overran := false }

/-- The loop ends after at most `len` passes and reads bytes of the token only. -/
def StrRun.Within (r : StrRun) (s len : Nat) : Prop :=
  r.overran = false ∧ r.passes ≤ len ∧ ∀ i ∈ r.reads, s ≤ i ∧ i < s + len

/-! ## Dangling backslashes -/

/-- The last byte is a backslash that is no escaped byte; `c` is the open quote. -/
def dangling (c : UInt8) : List UInt8 → Prop
  | [] => False
  | [b] => b = backslash
  | b :: b' :: rest =>
      if (b = dquote ∨ b = squote) ∧ c = 0 then dangling b (b' :: rest)
      else if b = c then dangling 0 (b' :: rest)
      else if b = backslash ∧ c ≠ squote then dangling c rest
      else dangling c (b' :: rest)

/-- A token with quotes or escapes that ends in such a backslash. -/
def Dangles (line : Line) (t : Token) : Prop :=
  t.quoted = true ∧ dangling 0 (rawText line t.start (t.stop - t.start))

/-- A token as a region that is trimmed behind it reads it. -/
def trimmed (line : Line) (t : Token) : Token :=
  readToken line t.start (trim line t.start t.stop)

/-- The token ends a command: a control operator or the end follows, after
    whitespace only. -/
def EndsCommand (line : Line) (e : Nat) (t : Token) (rest : List Token) : Prop :=
  delimits typemaskCommand (tokenizer e rest).type = true
    ∧ ∀ i, t.stop ≤ i → i < nextStart e rest → isspace (line.byte i) = true

/-- No token dangles, and none that ends a command does when it is trimmed. -/
def Tidy (line : Line) : Prop :=
  ∀ c t rest, tokens line line.length 0 = c ++ t :: rest →
    ¬Dangles line t ∧ (EndsCommand line line.length t rest → ¬Dangles line (trimmed line t))

/-- `str` stays within each token of the line, and of each region that the
    parsers reach. -/
def SafeText (line : Line) : Prop :=
  (∀ W, Returns (tokenize line) W → ∀ it ∈ W, (Tokenizer.strRun line it).Within it.s it.len)
    ∧ ∀ k d, Reached line k d → ∀ L, Returns (d.tokenLoop line) L →
      ∀ it ∈ L, (Tokenizer.strRun line it).Within it.s it.len

/-! ## One token -/

section Loop

variable {line : Line}

theorem StrRun.Within.pass {r : StrRun} {s p len len' : Nat} {reads : List Nat}
    (h : r.Within p len') (hend : p + len' = s + len) (hlt : s < p)
    (hreads : ∀ i ∈ reads, s ≤ i ∧ i < s + len) : (r.pass reads).Within s len := by
  obtain ⟨hover, hpasses, hin⟩ := h
  refine ⟨hover, ?_, fun i hi => ?_⟩
  · show r.passes + 1 ≤ len
    omega
  · rcases List.mem_append.mp hi with hi | hi
    · exact hreads i hi
    · have := hin i hi
      omega

/-- One pass, in the shape of the source. -/
theorem strRun_succ (left p : Nat) (c : UInt8) : strRun line (left + 1) p c
    = if (line.byte p = dquote ∨ line.byte p = squote) ∧ c = 0 then
        (strRun line left (p + 1) (line.byte p)).pass [p]
      else if line.byte p = c then (strRun line left (p + 1) 0).pass [p]
      else if line.byte p = backslash then
        if line.byte (p + 1) ≠ 0 ∧ c ≠ squote then
          if left = 0 then { passes := 1, reads := [p, p + 1], overran := true }
          else (strRun line (left - 1) (p + 2) c).pass [p, p + 1]
        else (strRun line left (p + 1) c).pass [p, p + 1]
      else (strRun line left (p + 1) c).pass [p] := by
  cases left with
  | zero =>
      rw [strRun.eq_def]
      simp
  | succ left =>
      rw [strRun.eq_def]
      simp

/-- A run is cut off where the text of the token has no end. -/
theorem strRun_over (k p : Nat) (c : UInt8) :
    (strRun line k p c).overran = true ↔ strLoop line k p c = none := by
  induction k using Nat.strongRecOn generalizing p c with
  | _ k ih =>
      cases k with
      | zero => simp [strRun, strLoop]
      | succ k =>
          rw [strRun_succ, strLoop_succ]
          by_cases h1 : (line.byte p = dquote ∨ line.byte p = squote) ∧ c = 0
          · rw [if_pos h1, if_pos h1]
            exact ih k (Nat.lt_succ_self k) _ _
          rw [if_neg h1, if_neg h1]
          by_cases h2 : line.byte p = c
          · rw [if_pos h2, if_pos h2]
            exact ih k (Nat.lt_succ_self k) _ _
          rw [if_neg h2, if_neg h2]
          by_cases h3 : line.byte p = backslash ∧ line.byte (p + 1) ≠ 0 ∧ c ≠ squote
          · rw [if_pos h3.1, if_pos h3.2, if_pos h3]
            by_cases hk : k = 0
            · rw [if_pos hk, if_pos hk]
              exact iff_of_true rfl rfl
            · rw [if_neg hk, if_neg hk, Option.map_eq_none_iff]
              exact ih (k - 1) (by omega) _ _
          rw [if_neg h3, Option.map_eq_none_iff, ← ih k (Nat.lt_succ_self k)]
          by_cases h4 : line.byte p = backslash
          · rw [if_pos h4, if_neg (fun h => h3 ⟨h4, h⟩)]
            rfl
          · rw [if_neg h4]
            rfl

theorem quote_ne_backslash {c : UInt8} (hc : c = 0 ∨ c = dquote ∨ c = squote) : c ≠ backslash := by
  rcases hc with rfl | rfl | rfl <;> decide

theorem dangling_cons_cons (c b b' : UInt8) (rest : List UInt8) : dangling c (b :: b' :: rest)
    = if (b = dquote ∨ b = squote) ∧ c = 0 then dangling b (b' :: rest)
      else if b = c then dangling 0 (b' :: rest)
      else if b = backslash ∧ c ≠ squote then dangling c rest
      else dangling c (b' :: rest) := by
  rw [dangling]

/-- What a pass does, with `k` bytes of the token behind it. -/
inductive StrTurn (line : Line) (k p : Nat) (c : UInt8) : Prop where
  | one (c' : UInt8) (reads : List Nat) (quote : c' = 0 ∨ c' = dquote ∨ c' = squote)
      (within : ∀ i ∈ reads, p ≤ i ∧ i < p + (k + 1))
      (run : strRun line (k + 1) p c = (strRun line k (p + 1) c').pass reads)
      (text : dangling c (rawText line p (k + 1)) ↔ dangling c' (rawText line (p + 1) k))
  | two (j : Nat) (left : k = j + 1)
      (run : strRun line (k + 1) p c = (strRun line j (p + 2) c).pass [p, p + 1])
      (text : dangling c (rawText line p (k + 1)) ↔ dangling c (rawText line (p + 2) j))
  | last (left : k = 0) (behind : p + 1 ∈ (strRun line (k + 1) p c).reads)
      (text : dangling c (rawText line p (k + 1)))

/-- A turn at the last byte of the token. -/
theorem turn_last {p : Nat} {c : UInt8} (hc : c = 0 ∨ c = dquote ∨ c = squote) :
    StrTurn line 0 p c := by
  have htext : dangling c (rawText line p 1) ↔ line.byte p = backslash := Iff.rfl
  have hne := quote_ne_backslash hc
  by_cases hb : line.byte p = backslash
  · refine .last rfl ?_ (htext.mpr hb)
    have hquote : ¬((line.byte p = dquote ∨ line.byte p = squote) ∧ c = 0) := by
      rw [hb]
      exact fun hq => absurd hq.1 (by decide)
    rw [strRun_succ, if_neg hquote, if_neg (fun h => hne (h.symm.trans hb)), if_pos hb]
    split
    · simp
    · simp [StrRun.pass]
  · have hfalse : dangling c (rawText line p 1) ↔ False := htext.trans (iff_false_intro hb)
    have hread : ∀ i ∈ [p], p ≤ i ∧ i < p + 1 := by simp
    by_cases h1 : (line.byte p = dquote ∨ line.byte p = squote) ∧ c = 0
    · exact .one _ [p] (.inr h1.1) hread (by rw [strRun_succ, if_pos h1]) hfalse
    by_cases h2 : line.byte p = c
    · exact .one 0 [p] (.inl rfl) hread (by rw [strRun_succ, if_neg h1, if_pos h2]) hfalse
    · exact .one c [p] hc hread (by rw [strRun_succ, if_neg h1, if_neg h2, if_neg hb]) hfalse

/-- A turn before the last byte. -/
theorem turn_succ {k p : Nat} {c : UInt8} (hbehind : line.byte (p + 1) ≠ 0)
    (hc : c = 0 ∨ c = dquote ∨ c = squote) : StrTurn line (k + 1) p c := by
  have hread : ∀ i ∈ [p], p ≤ i ∧ i < p + (k + 1 + 1) := by simp
  have hreads : ∀ i ∈ [p, p + 1], p ≤ i ∧ i < p + (k + 1 + 1) := by simp
  have htext := dangling_cons_cons c (line.byte p) (line.byte (p + 1)) (rawText line (p + 2) k)
  rw [← @rawText_succ line (p + 1) k, ← @rawText_succ line p (k + 1)] at htext
  have hrun := @strRun_succ line (k + 1) p c
  by_cases h1 : (line.byte p = dquote ∨ line.byte p = squote) ∧ c = 0
  · rw [if_pos h1] at htext hrun
    exact .one _ [p] (.inr h1.1) hread hrun (iff_of_eq htext)
  rw [if_neg h1] at htext hrun
  by_cases h2 : line.byte p = c
  · rw [if_pos h2] at htext hrun
    exact .one 0 [p] (.inl rfl) hread hrun (iff_of_eq htext)
  rw [if_neg h2] at htext hrun
  by_cases h3 : line.byte p = backslash
  · rw [if_pos h3] at hrun
    by_cases h4 : c = squote
    · -- in single quotes, but the next byte has been read
      rw [if_neg (fun h => h.2 h4)] at htext hrun
      exact .one c [p, p + 1] hc hreads hrun (iff_of_eq htext)
    · rw [if_pos ⟨h3, h4⟩] at htext
      rw [if_pos ⟨hbehind, h4⟩, if_neg (Nat.succ_ne_zero k)] at hrun
      exact .two k rfl hrun (iff_of_eq htext)
  · rw [if_neg h3] at hrun
    rw [if_neg (fun h => h3 h.1)] at htext
    exact .one c [p] hc hread hrun (iff_of_eq htext)

/-- Every turn reads at most one byte behind the token. -/
theorem turn (hnul : ∀ b ∈ line.bytes, b ≠ 0) {k p : Nat} {c : UInt8}
    (hp : p + (k + 1) ≤ line.length) (hc : c = 0 ∨ c = dquote ∨ c = squote) :
    StrTurn line k p c := by
  cases k with
  | zero => exact turn_last hc
  | succ k => exact turn_succ (byte_ne_zero hnul (by omega)) hc

/-- A token that dangles: `str` reads the byte behind it. -/
theorem mem_reads_of_dangling (hnul : ∀ b ∈ line.bytes, b ≠ 0) {k p : Nat} {c : UInt8}
    (hp : p + k ≤ line.length) (hc : c = 0 ∨ c = dquote ∨ c = squote)
    (h : dangling c (rawText line p k)) : p + k ∈ (strRun line k p c).reads := by
  induction k using Nat.strongRecOn generalizing p c with
  | _ k ih =>
      cases k with
      | zero => exact h.elim
      | succ k =>
          cases turn hnul hp hc with
          | one c' reads quote _ run text =>
              have hmem := ih k (Nat.lt_succ_self k) (by omega) quote (text.mp h)
              rw [run]
              refine List.mem_append_right _ ?_
              rwa [show p + 1 + k = p + (k + 1) by omega] at hmem
          | two j left run text =>
              subst left
              have hmem := ih j (by omega) (by omega) hc (text.mp h)
              rw [run]
              refine List.mem_append_right _ ?_
              rwa [show p + 2 + j = p + (j + 1 + 1) by omega] at hmem
          | last left behind _ =>
              subst left
              exact behind

/-- Any other token: `str` stays in it. -/
theorem within_of_not_dangling (hnul : ∀ b ∈ line.bytes, b ≠ 0) {k p : Nat} {c : UInt8}
    (hp : p + k ≤ line.length) (hc : c = 0 ∨ c = dquote ∨ c = squote)
    (h : ¬dangling c (rawText line p k)) : (strRun line k p c).Within p k := by
  induction k using Nat.strongRecOn generalizing p c with
  | _ k ih =>
      cases k with
      | zero =>
          rw [strRun]
          exact ⟨rfl, Nat.le_refl 0, fun i hi => absurd hi List.not_mem_nil⟩
      | succ k =>
          cases turn hnul hp hc with
          | one c' reads quote within run text =>
              rw [run]
              exact (ih k (Nat.lt_succ_self k) (by omega) quote (mt text.mpr h)).pass (by omega)
                (Nat.lt_succ_self p) within
          | two j left run text =>
              subst left
              rw [run]
              refine (ih j (by omega) (by omega) hc (mt text.mpr h)).pass (by omega) (by omega) ?_
              simp
          | last _ _ text => exact absurd text h

/-- `str` reads inside the token unless a backslash dangles at its end. -/
theorem strRun_within (hnul : ∀ b ∈ line.bytes, b ≠ 0) {k p : Nat} (hp : p + k ≤ line.length) :
    (strRun line k p 0).Within p k ↔ ¬dangling 0 (rawText line p k) := by
  constructor
  · intro hwithin hdangling
    have := (hwithin.2.2 _ (mem_reads_of_dangling hnul hp (.inl rfl) hdangling)).2
    omega
  · exact within_of_not_dangling hnul hp (.inl rfl)

end Loop

/-! ## Tokens -/

section Tokens

variable {line : CommandLine} {e : Nat} {t : Token}

/-- `str` stays in a token exactly if the token does not dangle. -/
theorem within_iff (hshort : t.stop - t.start < 2 ^ 32) (hlt : t.start ≤ t.stop)
    (hstop : t.stop ≤ line.length) :
    (Tokenizer.strRun line.toLine (atToken e t)).Within (atToken e t).s (atToken e t).len
      ↔ ¬Dangles line.toLine t := by
  have hlen : (atToken e t).len = t.stop - t.start := Nat.mod_eq_of_lt hshort
  have hs : (atToken e t).s = t.start := rfl
  have hq : (atToken e t).quoted = t.quoted := rfl
  rw [Tokenizer.strRun, Dangles, hlen, hs, hq]
  by_cases hquoted : t.quoted = true
  · rw [if_pos hquoted, strRun_within line.nulFree (by omega), not_and]
    exact ⟨fun h _ => h, fun h => h hquoted⟩
  · rw [if_neg hquoted]
    refine iff_of_true ⟨rfl, Nat.zero_le _, fun i hi => ?_⟩ fun h => hquoted h.1
    exact List.mem_range'_1.mp hi

end Tokens

/-! ## Where the tokens of a region come from -/

section Origin

variable {line : Line} {e : Nat}

/-- `u` is a token of the line, or one that is trimmed where it ends a command. -/
def Origin (line : Line) (u : Token) : Prop :=
  ∃ c t rest, tokens line line.length 0 = c ++ t :: rest
    ∧ (u = t ∨ EndsCommand line line.length t rest ∧ u = trimmed line t)

/-- What is known about a list of tokens that runs to `e`: where its tokens come
    from, and that those which end a command in the region do so in the line. -/
def Tracked (line : Line) (e : Nat) (L : List Token) : Prop :=
  ∀ c u rest, L = c ++ u :: rest → ∃ c' t rest', tokens line line.length 0 = c' ++ t :: rest'
    ∧ (u = t ∨ EndsCommand line line.length t rest' ∧ u = trimmed line t)
    ∧ (EndsCommand line e u rest → EndsCommand line line.length t rest')

theorem Tracked.suffix {c L : List Token} (h : Tracked line e (c ++ L)) : Tracked line e L := by
  intro c' u rest hL
  exact h (c ++ c') u rest (by rw [hL, List.append_assoc])

/-- Every token left has an origin in the line. -/
theorem Tracked.origin {L : List Token} (h : Tracked line e L) : ∀ u ∈ L, Origin line u := by
  intro u hu
  obtain ⟨c, rest, rfl⟩ := List.append_of_mem hu
  obtain ⟨c', t, rest', hL, hu, -⟩ := h c u rest rfl
  exact ⟨c', t, rest', hL, hu⟩

/-- The line itself. -/
theorem tracked_line (line : Line) : Tracked line line.length (tokens line line.length 0) :=
  fun c u rest hL => ⟨c, u, rest, hL, .inl rfl, id⟩

theorem isToken_of_split {c rest : List Token} {t : Token}
    (hL : tokens line line.length 0 = c ++ t :: rest) : IsToken line line.length t :=
  (isToken_of_mem (Nat.zero_le _) (hL ▸ List.mem_append_right c List.mem_cons_self)).1

/-- A trimmed token ends where the whitespace at its end starts. -/
theorem trimmed_spec {t : Token} (ht : IsToken line line.length t) :
    t.start < trim line t.start t.stop ∧ trim line t.start t.stop ≤ t.stop
      ∧ (trimmed line t).start = t.start ∧ (trimmed line t).stop = trim line t.start t.stop
      ∧ (trimmed line t).type = t.type
      ∧ ¬isspace (line.byte (trim line t.start t.stop - 1)) = true := by
  have hlt := ht.lt_stop
  obtain ⟨-, hle, hws, htight⟩ := trim_spec line (Nat.le_of_lt hlt)
  have hstart : t.start < trim line t.start t.stop := lt_trim (Nat.le_refl _) hlt ht.space
  obtain ⟨htype, hstop⟩ := readToken_trim ht hstart (Nat.le_trans hle ht.stop_le) hws
  rw [Nat.min_eq_right hle] at hstop
  exact ⟨hstart, hle, readToken_start _ _, hstop, htype, htight hstart⟩

/-- What trimming stops at determines it. -/
theorem trim_eq {s d r : Nat} (hs : s ≤ r) (hr : r ≤ d)
    (hws : ∀ i, r ≤ i → i < d → isspace (line.byte i) = true)
    (htight : s < r → ¬isspace (line.byte (r - 1)) = true) : trim line s d = r := by
  obtain ⟨hle, hd, hws', htight'⟩ := trim_spec line (Nat.le_trans hs hr)
  rcases Nat.lt_trichotomy (trim line s d) r with hlt | heq | hgt
  · exact absurd (hws' (r - 1) (by omega) (by omega)) (htight (by omega))
  · exact heq
  · exact absurd (hws (trim line s d - 1) (by omega) (by omega)) (htight' (by omega))

section Region

variable {k : Kind} {c : Parser} {chunk rest : List Token}

theorem AtRegion.start_le (h : AtRegion line k.typemask e c chunk rest) {u : Token}
    (hu : u ∈ chunk) : c.s ≤ u.start := by
  rw [h.start]
  exact (h.toEnd.isToken (List.mem_append_left rest hu)).2

/-- A token that the region does not cut off is read as before. -/
theorem readToken_inside (h : AtRegion line k.typemask e c chunk rest) {u : Token}
    (hu : u ∈ chunk) (hstop : u.stop ≤ c.stop) : readToken line u.start c.stop = u := by
  have htok := (h.toEnd.isToken (List.mem_append_left rest hu)).1
  rw [readToken_of_le (h.mem u hu) h.stop_le_end (by rwa [htok.read]), htok.read]

/-- The last token of a region that is cut off is a token of the line, trimmed. -/
theorem readToken_cut_off {c₁ : List Token} {u : Token}
    (h : AtRegion line k.typemask e c (c₁ ++ [u]) rest)
    (htr : Tracked line e ((c₁ ++ [u]) ++ rest)) (hcut : c.stop < u.stop) :
    ∃ c' t rest', tokens line line.length 0 = c' ++ t :: rest'
      ∧ EndsCommand line line.length t rest'
      ∧ readToken line u.start c.stop = trimmed line t := by
  obtain ⟨c', t, rest', hL, horigin, hends⟩ := htr c₁ u rest (by simp)
  have hu : u ∈ c₁ ++ [u] := List.mem_append_right c₁ List.mem_cons_self
  have hle : u.stop ≤ nextStart e rest := by
    have hend := h.toEnd
    rw [List.append_assoc] at hend
    exact hend.suffix.stop_le_nextStart
  have ht : EndsCommand line line.length t rest' :=
    hends ⟨delimits_command k h.delim, fun i hi hlt => h.trimmed i (by omega) hlt⟩
  have hblank : ∀ i, c.stop ≤ i → i < u.stop → isspace (line.byte i) = true :=
    fun i hi hlt => h.trimmed i hi (by omega)
  refine ⟨c', t, rest', hL, ht, ?_⟩
  rcases horigin with rfl | ⟨-, rfl⟩
  · have hstart := h.mem u hu
    have hs := AtRegion.start_le h hu
    rw [trimmed, trim_eq (Nat.le_of_lt hstart) (Nat.le_of_lt hcut) hblank
      (fun _ => h.tight (by omega))]
  · -- a trimmed token ends in no whitespace that could be cut off
    obtain ⟨-, -, -, hstop, -, hspace⟩ := trimmed_spec (isToken_of_split hL)
    rw [hstop] at hcut hblank
    exact absurd (hblank _ (by omega) (by omega)) hspace

/-- A region's tokens are tracked as its parser's are. -/
theorem Tracked.region (h : AtRegion line k.typemask e c chunk rest)
    (htr : Tracked line e (chunk ++ rest)) : Tracked line c.stop (c.tokenList line) := by
  intro c₁' u' c₂' hsplit
  rw [h.tokenList.1] at hsplit
  obtain ⟨c₁, c₂, rfl, rfl, hrest⟩ := List.map_eq_append_iff.mp hsplit
  obtain ⟨u, c₂, rfl, rfl, rfl⟩ := List.map_eq_cons_iff.mp hrest
  have hu : u ∈ c₁ ++ u :: c₂ := List.mem_append_right c₁ List.mem_cons_self
  by_cases hcut : c.stop < u.stop
  · have hlast : c₂ = [] := by
      cases c₂ with
      | nil => rfl
      | cons v c₂ =>
          have hend := h.toEnd
          rw [List.append_assoc] at hend
          have hle : u.stop ≤ v.start := hend.suffix.stop_le_nextStart
          have := h.mem v (by simp)
          omega
    subst hlast
    obtain ⟨c', t, rest', hL, ht, hread⟩ := readToken_cut_off h htr hcut
    exact ⟨c', t, rest', hL, .inr ⟨ht, hread⟩, fun _ => ht⟩
  · have hread := readToken_inside h hu (Nat.le_of_not_lt hcut)
    obtain ⟨c', t, rest', hL, horigin, hends⟩ := htr c₁ u (c₂ ++ rest) (by simp)
    rw [hread]
    refine ⟨c', t, rest', hL, horigin, fun hcommand => hends ?_⟩
    cases c₂ with
    | nil =>
        refine ⟨delimits_command k h.delim, fun i hi hlt => ?_⟩
        rcases Nat.lt_or_ge i c.stop with hin | hout
        · exact hcommand.2 i hi hin
        · exact h.trimmed i hout hlt
    | cons v c₂ =>
        obtain ⟨hdelim, hws⟩ := hcommand
        refine ⟨?_, fun i hi hlt => hws i hi ?_⟩
        · show delimits typemaskCommand v.type = true
          rw [← (h.tokenList.2 v (by simp)).1]
          exact hdelim
        · show i < (readToken line v.start c.stop).start
          rwa [readToken_start]

/-- The region that ends with a token of the line reads it trimmed. -/
theorem readToken_last {c₁ : List Token} {t : Token}
    (h : AtRegion line k.typemask e c (c₁ ++ [t]) rest)
    (hws : ∀ i, t.stop ≤ i → i < nextStart e rest → isspace (line.byte i) = true) :
    readToken line t.start c.stop = trimmed line t := by
  have ht : t ∈ c₁ ++ [t] := List.mem_append_right c₁ List.mem_cons_self
  have htok := (h.toEnd.isToken (List.mem_append_left rest ht)).1
  have hle : t.stop ≤ nextStart e rest := by
    have hend := h.toEnd
    rw [List.append_assoc] at hend
    exact hend.suffix.stop_le_nextStart
  have hstart := h.mem t ht
  have hs := AtRegion.start_le h ht
  rcases Nat.lt_or_ge c.stop t.stop with hcut | hfull
  · rw [trimmed, trim_eq (Nat.le_of_lt hstart) (Nat.le_of_lt hcut)
      (fun i hi hlt => h.trimmed i hi (by omega)) (fun _ => h.tight (by omega))]
  · -- nothing is cut off, so the token does not end in whitespace
    have hlast : ¬isspace (line.byte (t.stop - 1)) = true := fun hspace =>
      Nat.not_lt.mpr hfull (stop_lt_of_isspace h hws hspace)
    have htrim : trim line t.start t.stop = t.stop :=
      trim_eq (Nat.le_of_lt htok.lt_stop) (Nat.le_refl _) (fun i hi hlt => by omega) (fun _ => hlast)
    rw [readToken_inside h ht hfull, trimmed, htrim,
      readToken_of_le htok.lt_stop htok.stop_le (by rw [htok.read]), htok.read]

end Region

/-- A token ends within the line. -/
theorem Origin.stop_le {u : Token} (h : Origin line u) : u.stop ≤ line.length := by
  obtain ⟨c, t, rest, hL, rfl | ⟨-, rfl⟩⟩ := h
  · exact (isToken_of_split hL).stop_le
  · obtain ⟨-, hle, -, hstop, -⟩ := trimmed_spec (isToken_of_split hL)
    rw [hstop]
    exact Nat.le_trans hle (isToken_of_split hL).stop_le

/-- Every region that is reached is at a chunk of tracked tokens. -/
theorem tracked_reached (hshort : Short (tokens line line.length 0)) {k : Kind} {d : Parser}
    (h : Reached line k d) : ∃ e chunk rest, AtRegion line k.typemask e d chunk rest
      ∧ Tracked line e (chunk ++ rest) ∧ Short (chunk ++ rest) := by
  induction h with
  | @ofLine k d hret =>
      obtain ⟨chunk, rest, hL, hin, hrest⟩ := exists_rest (delimits_eol k) (tokens line line.length 0)
      have hall := (tokenList_ofLine line).trans hL
      have hshort' : Short ((Parser.ofLine line).tokenList line) := by rwa [tokenList_ofLine]
      obtain ⟨d', hret', hat⟩ :=
        firstDelimited_spec (region_ofLine line) hall hshort' hin hrest
      rw [hret.unique hret']
      exact ⟨_, chunk, rest, hat, hL ▸ tracked_line line, hL ▸ hshort⟩
  | @part k k' c d _ _ hret ih =>
      -- the first chunk of the tokens that `c` itself reads
      obtain ⟨e, chunk, rest, hat, htr, hsh⟩ := ih
      obtain ⟨chunk', rest', hL, hin, hrest⟩ := exists_rest (delimits_eol k') (c.tokenList line)
      have hshort' := hat.short hsh.chunk
      obtain ⟨d', hret', hat'⟩ := firstDelimited_spec hat.region hL hshort' hin hrest
      rw [hret.unique hret']
      exact ⟨_, chunk', rest', hat', hL ▸ htr.region hat, hL ▸ hshort'⟩
  | @next k c d _ hret ih =>
      obtain ⟨e, chunk, rest, hat, htr, hsh⟩ := ih
      obtain ⟨chunk', rest', hL, hin, hrest⟩ := exists_rest (delimits_eol k) rest.tail
      obtain ⟨d', hret', hat'⟩ := nextDelimited_spec hat hsh.suffix hL hin hrest
      rw [hret.unique hret']
      refine ⟨e, chunk', rest', hat', ?_, ?_⟩
      · rw [← hL]
        have htr' := htr.suffix
        cases rest with
        | nil => exact htr'
        | cons t L => exact htr'.suffix (c := [t])
      · rw [← hL]
        exact fun t ht => hsh t (List.mem_append_right chunk (List.mem_of_mem_tail ht))

end Origin

/-! ## Lines -/

section Lines

variable {line : CommandLine}

theorem not_dangles_of_origin (htidy : Tidy line.toLine) {u : Token} (h : Origin line.toLine u) :
    ¬Dangles line.toLine u := by
  obtain ⟨c, t, rest, hL, rfl | ⟨hends, rfl⟩⟩ := h
  · exact (htidy c u rest hL).1
  · exact (htidy c t rest hL).2 hends

/-- A line without dangling backslashes is read inside its tokens. -/
theorem safe_of_tidy (hshort : Short (tokens line.toLine line.length 0))
    (htidy : Tidy line.toLine) : SafeText line.toLine := by
  refine ⟨fun W hW it hit => ?_, fun k d hd L hL it hit => ?_⟩
  · obtain rfl := hW.unique (tokenize_spec hshort)
    obtain ⟨t, ht, rfl⟩ := List.mem_map.mp hit
    have htok := (isToken_of_mem (Nat.zero_le _) ht).1
    exact (within_iff (hshort t ht) (Nat.le_of_lt htok.lt_stop) htok.stop_le).mpr
      (not_dangles_of_origin htidy ((tracked_line _).origin t ht))
  · obtain ⟨e, chunk, rest, hat, htr, hsh⟩ := tracked_reached hshort hd
    have hshort' := hat.short hsh.chunk
    obtain rfl := hL.unique (tokenLoop_spec hat.le hshort')
    obtain ⟨u, hu, rfl⟩ := List.mem_map.mp hit
    have htok := (isToken_of_mem hat.le hu).1
    have horigin := (htr.region hat).origin u hu
    exact (within_iff (hshort' u hu) (Nat.le_of_lt htok.lt_stop) horigin.stop_le).mpr
      (not_dangles_of_origin htidy horigin)

/-- A line that is read inside its tokens has no dangling backslash. -/
theorem tidy_of_safe (hshort : Short (tokens line.toLine line.length 0))
    (hsafe : SafeText line.toLine) : Tidy line.toLine := by
  intro c t rest hL
  have htok := isToken_of_split hL
  have hmem : t ∈ tokens line.toLine line.length 0 :=
    hL ▸ List.mem_append_right c List.mem_cons_self
  refine ⟨?_, fun hends hdangles => ?_⟩
  · exact (within_iff (hshort t hmem) (Nat.le_of_lt htok.lt_stop) htok.stop_le).mp
      (hsafe.1 _ (tokenize_spec hshort) _ (List.mem_map_of_mem hmem))
  · obtain ⟨hstart, hle, hs, hstop, htype, hspace⟩ := trimmed_spec htok
    -- a token with quotes or escapes is a word, so a command region ends with it
    have hword : t.type = .normal := by
      rw [← htype]
      exact normal_of_quoted hdangles.1
    have hnormal : ¬delimits typemaskCommand t.type = true := by
      rw [hword]
      decide
    obtain ⟨d, c', hd, hat, hchunk⟩ := reach_token hshort hL hnormal hends.1
    have hu : t ∈ c' ++ [t] := List.mem_append_right c' List.mem_cons_self
    have hread := readToken_last (k := .command) hat hends.2
    have hmem' : atToken d.stop (trimmed line.toLine t)
        ∈ (d.tokenList line.toLine).map (atToken d.stop) := by
      refine List.mem_map_of_mem ?_
      rw [hat.tokenList.1, ← hread]
      exact List.mem_map.mpr ⟨t, hu, rfl⟩
    have hwithin := hsafe.2 .command d hd _ (tokenLoop_spec hat.le (hat.short hchunk)) _ hmem'
    have hlen := hshort t hmem
    have hend := htok.stop_le
    exact (within_iff (by omega) (by omega) (by omega)).mp hwithin hdangles

/-- **WITHIN THE TOKEN**: `str` ends in time and reads bytes of the token only,
    for every token of a line and its regions, exactly if the line is tidy. -/
theorem safeText_iff (hshort : Short (tokens line.toLine line.length 0)) :
    SafeText line.toLine ↔ Tidy line.toLine :=
  ⟨tidy_of_safe hshort, safe_of_tidy hshort⟩

/-- `"a"\ ;b`, where the blank is escaped. -/
def quotedBlank : CommandLine where
  bytes := [34, 97, 34, 92, 32, 59, 98]
  nulFree := by simp

/-- The theorem's condition for a line with quotes and a blank. -/
theorem safeText_iff_small : SafeText quotedBlank.toLine ↔ Tidy quotedBlank.toLine :=
  safeText_iff (short_of_length (by decide))

/-- The command `"a"\ ` is trimmed to `"a"\`, and `str` steps over its end. -/
theorem quotedBlank_not_safe : ¬SafeText quotedBlank.toLine := by
  intro h
  have hword : readToken quotedBlank.toLine 0 7
      = { start := 0, type := .normal, quoted := true, stop := 5 } := by decide
  have hsemi : readToken quotedBlank.toLine 5 7
      = { start := 5, type := .sequence, quoted := false, stop := 6 } := by decide
  have hskip : skipShellSpace quotedBlank.toLine 0 7 = 0 := by decide
  have hskip' : skipShellSpace quotedBlank.toLine 5 7 = 5 := by decide
  have htokens : tokens quotedBlank.toLine 7 0
      = [] ++ { start := 0, type := .normal, quoted := true, stop := 5 }
        :: { start := 5, type := .sequence, quoted := false, stop := 6 }
        :: tokens quotedBlank.toLine 7 6 := by
    rw [tokens, hskip, dif_pos (by decide), hword, tokens, hskip', dif_pos (by decide), hsemi]
    rfl
  have hends : EndsCommand quotedBlank.toLine 7
      { start := 0, type := .normal, quoted := true, stop := 5 }
      ({ start := 5, type := .sequence, quoted := false, stop := 6 }
        :: tokens quotedBlank.toLine 7 6) :=
    ⟨by decide, fun i hi hlt => absurd hi (Nat.not_le.mpr hlt)⟩
  refine (tidy_of_safe (short_of_length (by decide)) h [] _ _ htokens).2 hends ⟨by decide, ?_⟩
  show dangling 0 [34, 97, 34, 92]
  simp [dangling, dquote, squote, backslash]

end Lines

end StrReads
