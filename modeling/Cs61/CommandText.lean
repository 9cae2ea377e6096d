import Cs61.CommandSplit
import Cs61.ShellText

/-! # Command regions — when a region keeps the text of its tokens

    A region is trimmed by its raw bytes.  If its last token ends in whitespace
    of its own, escaped or in a quote that is never closed, the region cuts it
    off, and its text changes (`text_cut`).  In every other line, going through
    the sub-parsers changes no text (`text_kept`). -/

namespace CommandText

open LoopRules ShellTokens TokenLists ShellParser ShellRegions CommandSplit ShellText

/-! ## Regions that are reached -/

/-- The three kinds of regions within a line. -/
inductive Kind where
  | conditional
  | pipeline
  | command

/-- The token types at which a part of the kind ends. -/
def Kind.typemask : Kind → BitVec 64
  | conditional => typemaskConditional
  | pipeline => typemaskPipeline
  | command => typemaskCommand

/-- The `X_begin` functions of each parser. -/
def Kind.parts : Kind → List Kind
  | conditional => [pipeline, command]
  | pipeline => [command]
  | command => []

/-- Regions that `conditional_begin`, `pipeline_begin`, `command_begin` and `++`
    reach from the parser of the line. -/
inductive Reached (line : Line) : Kind → Parser → Prop where
  | ofLine (k : Kind) {d : Parser}
      (h : Returns ((Parser.ofLine line).firstDelimited line k.typemask) d) : Reached line k d
  | part {k k' : Kind} {c d : Parser} (hc : Reached line k c) (hk : k' ∈ k.parts)
      (h : Returns (c.firstDelimited line k'.typemask) d) : Reached line k' d
  | next {k : Kind} {c d : Parser} (hc : Reached line k c)
      (h : Returns (c.nextDelimited line k.typemask) d) : Reached line k d

/-- Each token of a command region has the text of the line's token that starts
    at the same place. -/
def SameText (line : Line) : Prop :=
  ∀ d, Reached line .command d → ∀ L W, Returns (d.tokenLoop line) L → Returns (tokenize line) W →
    ∀ it ∈ L, ∃ it' ∈ W, it'.s = it.s
      ∧ ∃ text, it'.str line = some text ∧ it.str line = some text

/-- In a list of tokens that runs to `e`: no token that ends in whitespace is
    followed, after whitespace only, by a control operator or the end. -/
def Untrimmed (line : Line) (e : Nat) (L : List Token) : Prop :=
  ∀ c t rest, L = c ++ t :: rest → delimits typemaskCommand (tokenizer e rest).type = true →
    (∀ i, t.stop ≤ i → i < nextStart e rest → isspace (line.byte i) = true) →
    ¬ isspace (line.byte (t.stop - 1)) = true

variable {line : Line} {e : Nat}

/-- The tokens at the end of a line that is not trimmed. -/
theorem Untrimmed.suffix {c L : List Token} (h : Untrimmed line e (c ++ L)) :
    Untrimmed line e L := by
  intro c' t rest hL
  exact h (c ++ c') t rest (by rw [hL, List.append_assoc])

/-- What ends a region of any kind ends a command. -/
theorem delimits_command (k : Kind) {type : TokenType} (h : delimits k.typemask type = true) :
    delimits typemaskCommand type = true := by
  revert h
  cases k <;> cases type <;> decide

/-! ## Lines whose regions keep their text -/

section Kept

variable {k : Kind} {c : Parser} {chunk rest : List Token}

/-- A region that does not cut off its last token has the tokens of its chunk. -/
theorem tokenList_of_untrimmed (h : AtRegion line k.typemask e c chunk rest)
    (hu : Untrimmed line e (chunk ++ rest)) : c.tokenList line = chunk := by
  have hstop : ∀ t ∈ chunk, t.stop ≤ c.stop := by
    intro t ht
    obtain ⟨c₁, c₂, rfl⟩ := List.append_of_mem ht
    have hL := h.toEnd
    rw [List.append_assoc] at hL
    have hlt := (hL.suffix.isToken (t := t) List.mem_cons_self).1.lt_stop
    cases c₂ with
    | nil =>
        -- the last token of the chunk, right before the delimiter
        by_contra hcut
        have hle : t.stop ≤ nextStart e rest := hL.suffix.stop_le_nextStart
        refine hu c₁ t rest (by rw [List.append_assoc]; rfl) (delimits_command k h.delim)
          (fun i hi hlt => h.trimmed i (by omega) hlt) ?_
        exact h.trimmed _ (by omega) (by omega)
    | cons u c₂ =>
        have hle : t.stop ≤ u.start := hL.suffix.stop_le_nextStart
        have := h.mem u (by simp)
        omega
  rw [h.tokenList.1]
  conv_rhs => rw [← List.map_id chunk]
  refine List.map_congr_left ?_
  intro t ht
  obtain ⟨htok, -⟩ := h.toEnd.isToken (List.mem_append_left rest ht)
  rw [readToken_of_le (h.mem t ht) h.stop_le_end (by rw [htok.read]; exact hstop t ht), htok.read]
  rfl

/-- Nor do the regions within it cut off their last tokens. -/
theorem untrimmed_of_region (h : AtRegion line k.typemask e c chunk rest)
    (hu : Untrimmed line e (chunk ++ rest)) : Untrimmed line c.stop chunk := by
  rintro c₁ t c₂ rfl hdelim hws
  refine hu c₁ t (c₂ ++ rest) (by rw [List.append_assoc]; rfl) ?_ ?_
  · cases c₂ with
    | nil => exact delimits_command k h.delim
    | cons u c₂ => exact hdelim
  · intro i hi hlt
    cases c₂ with
    | nil =>
        rcases Nat.lt_or_ge i c.stop with hin | hout
        · exact hws i hi hin
        · exact h.trimmed i hout hlt
    | cons u c₂ => exact hws i hi hlt

end Kept

/-- The end of the line ends every part. -/
theorem delimits_eol (k : Kind) : delimits k.typemask .eol = true := by
  cases k <;> decide

/-- Every region that is reached is at a chunk of the line's own tokens. -/
theorem reached_spec (hshort : Short (tokens line line.length 0))
    (hu : Untrimmed line line.length (tokens line line.length 0)) {k : Kind} {d : Parser}
    (h : Reached line k d) : ∃ e chunk rest, AtRegion line k.typemask e d chunk rest
      ∧ Untrimmed line e (chunk ++ rest)
      ∧ ∀ t ∈ chunk ++ rest, t ∈ tokens line line.length 0 := by
  induction h with
  | ofLine k hret =>
      -- the first chunk of the line
      obtain ⟨chunk, rest, hL, hin, hrest⟩ := exists_rest (delimits_eol k) (tokens line line.length 0)
      rw [← tokenList_ofLine] at hL hshort
      obtain ⟨d', hret', hat⟩ := firstDelimited_spec (region_ofLine line) hL hshort hin hrest
      have hall : chunk ++ rest = tokens line line.length 0 := hL.symm.trans (tokenList_ofLine line)
      rw [hret.unique hret']
      refine ⟨_, chunk, rest, hat, ?_, ?_⟩ <;> rw [hall]
      · exact hu
      · exact fun t ht => ht
  | @part k k' c d _ _ hret ih =>
      -- the first chunk within the chunk of `c`, which `c` reads as it stands
      obtain ⟨e, chunk, rest, hat, hun, hsub⟩ := ih
      have htok := tokenList_of_untrimmed hat hun
      obtain ⟨chunk', rest', hL, hin, hrest⟩ := exists_rest (delimits_eol k') chunk
      have hshort' : Short (c.tokenList line) := by
        rw [htok]
        exact fun t ht => hshort t (hsub t (List.mem_append_left rest ht))
      obtain ⟨d', hret', hat'⟩ :=
        firstDelimited_spec hat.region (htok.trans hL) hshort' hin hrest
      rw [hret.unique hret']
      refine ⟨_, chunk', rest', hat', ?_, ?_⟩
      · rw [← hL]
        exact untrimmed_of_region hat hun
      · rw [← hL]
        exact fun t ht => hsub t (List.mem_append_left rest ht)
  | @next k c d _ hret ih =>
      -- the chunk after the delimiter of `c`
      obtain ⟨e, chunk, rest, hat, hun, hsub⟩ := ih
      obtain ⟨chunk', rest', hL, hin, hrest⟩ := exists_rest (delimits_eol k) rest.tail
      have hshort' : Short rest := fun t ht => hshort t (hsub t (List.mem_append_right chunk ht))
      obtain ⟨d', hret', hat'⟩ := nextDelimited_spec hat hshort' hL hin hrest
      rw [hret.unique hret']
      refine ⟨e, chunk', rest', hat', ?_, ?_⟩
      · rw [← hL]
        have hrest' := hun.suffix
        cases rest with
        | nil => exact hrest'
        | cons t L => exact hrest'.suffix (c := [t])
      · rw [← hL]
        exact fun t ht => hsub t (List.mem_append_right chunk (List.mem_of_mem_tail ht))

/-- A line without such tokens keeps its text in every command region. -/
theorem text_kept {line : CommandLine} (hshort : Short (tokens line.toLine line.length 0))
    (hu : Untrimmed line.toLine line.length (tokens line.toLine line.length 0)) :
    SameText line.toLine := by
  intro d hd L W hL hW it hit
  obtain ⟨e, chunk, rest, hat, hun, hsub⟩ := reached_spec hshort hu hd
  have htok := tokenList_of_untrimmed hat hun
  have hshort' : Short (d.tokenList line.toLine) := by
    rw [htok]
    exact fun t ht => hshort t (hsub t (List.mem_append_left rest ht))
  obtain rfl := hL.unique (tokenLoop_spec hat.le hshort')
  obtain rfl := hW.unique (tokenize_spec hshort)
  obtain ⟨t, ht, rfl⟩ := List.mem_map.mp hit
  rw [htok] at ht
  have hmem := hsub t (List.mem_append_left rest ht)
  obtain ⟨w, hw⟩ := str_isSome (isToken_of_mem (Nat.zero_le _) hmem).1 (hshort t hmem)
  -- `str` does not depend on the end of the tokenizer's region
  exact ⟨_, List.mem_map_of_mem hmem, rfl, w, hw, hw⟩

/-! ## Lines whose regions change their text -/

/-- The loop over command regions reaches the region of every chunk. -/
theorem reach_chunk {d : Parser} {chunk rest c rest' : List Token} {t : Token}
    (hd : Reached line .command d) (hat : AtRegion line typemaskCommand e d chunk rest)
    (hshort : Short (chunk ++ rest)) (hL : chunk ++ rest = (c ++ [t]) ++ rest')
    (ht : ¬ delimits typemaskCommand t.type = true)
    (hdelim : delimits typemaskCommand (tokenizer e rest').type = true) :
    ∃ d' c', Reached line .command d' ∧ AtRegion line typemaskCommand e d' (c' ++ [t]) rest'
      ∧ Short (c' ++ [t]) := by
  induction hn : rest.length using Nat.strongRecOn generalizing d chunk rest c with
  | _ n ih =>
      -- by where the chunk of `t` ends: behind the first region, or inside it
      rcases List.append_eq_append_iff.mp hL with ⟨as, hc, hrest⟩ | ⟨bs, hchunk, hrest⟩
      · cases as with
        | nil =>
            -- the region is the one that ends with `t`
            rw [List.append_nil] at hc
            rw [List.nil_append] at hrest
            subst hrest
            subst hc
            exact ⟨d, c, hd, hat, hshort.chunk⟩
        | cons x as =>
            subst hrest
            rcases List.eq_nil_or_concat' as with rfl | ⟨c', y, rfl⟩
            · -- the token itself is no delimiter
              obtain ⟨-, heq⟩ := List.append_inj' hc rfl
              obtain rfl := (List.cons.inj heq).1
              exact absurd hat.delim ht
            · -- `t` comes after the delimiter `x`: on to the next region
              have hc' : c ++ [t] = (chunk ++ x :: c') ++ [y] := by
                rw [hc, List.append_assoc]
                rfl
              obtain ⟨-, heq⟩ := List.append_inj' hc' rfl
              obtain rfl := (List.cons.inj heq).1
              obtain ⟨chunk₂, rest₂, hL₂, hin, hdelim₂⟩ :=
                exists_rest (delimits_eol .command) ((c' ++ [t]) ++ rest')
              obtain ⟨d₂, hnext, hat₂⟩ := nextDelimited_spec hat hshort.suffix hL₂ hin hdelim₂
              have hlen : rest₂.length < n := by
                have := congrArg List.length hL₂
                rw [@List.length_append _ chunk₂] at this
                rw [← hn]
                simp only [List.cons_append, List.length_cons] at this ⊢
                omega
              have hshort₂ : Short (chunk₂ ++ rest₂) := by
                rw [← hL₂]
                exact hshort.suffix.tail
              exact ih rest₂.length hlen (hd.next hnext) hat₂ hshort₂ hL₂.symm rfl
      · cases bs with
        | nil =>
            rw [List.append_nil] at hchunk
            rw [List.nil_append] at hrest
            subst hrest
            subst hchunk
            exact ⟨d, c, hd, hat, hshort.chunk⟩
        | cons y bs =>
            -- the chunk would go on after its delimiter
            subst hrest
            exact absurd hdelim (hat.inside y (by rw [hchunk]; simp))

/-- Every token that a control operator or the end follows ends a command region. -/
theorem reach_token {c rest : List Token} {t : Token} (hshort : Short (tokens line line.length 0))
    (hL : tokens line line.length 0 = c ++ t :: rest) (ht : ¬ delimits typemaskCommand t.type = true)
    (hdelim : delimits typemaskCommand (tokenizer line.length rest).type = true) :
    ∃ d c', Reached line .command d
      ∧ AtRegion line typemaskCommand line.length d (c' ++ [t]) rest ∧ Short (c' ++ [t]) := by
  obtain ⟨chunk, rest₀, hsplit, hin, hdelim₀⟩ :=
    exists_rest (delimits_eol .command) (tokens line line.length 0)
  have hshort₀ : Short (chunk ++ rest₀) := by
    rw [← hsplit]
    exact hshort
  have hsplit' := (tokenList_ofLine line).trans hsplit
  rw [← tokenList_ofLine] at hshort
  obtain ⟨d₀, hfirst, hat₀⟩ :=
    firstDelimited_spec (region_ofLine line) hsplit' hshort hin hdelim₀
  have hparts : chunk ++ rest₀ = (c ++ [t]) ++ rest := by
    rw [← hsplit, hL, List.append_assoc]
    rfl
  exact reach_chunk (.ofLine .command hfirst) hat₀ hshort₀ hparts ht hdelim

/-- A region whose last token ends in whitespace cuts it off, if only whitespace follows. -/
theorem stop_lt_of_isspace {d : Parser} {fl : BitVec 64} {c rest : List Token} {t : Token}
    (hat : AtRegion line fl e d (c ++ [t]) rest)
    (hws : ∀ i, t.stop ≤ i → i < nextStart e rest → isspace (line.byte i) = true)
    (hspace : isspace (line.byte (t.stop - 1)) = true) : d.stop < t.stop := by
  have hstart := hat.mem t (List.mem_append_right c List.mem_cons_self)
  have hs : d.s ≤ t.start := by
    rw [hat.start]
    exact (hat.toEnd.isToken (List.mem_append_left rest
      (List.mem_append_right c List.mem_cons_self))).2
  have hdle : d.stop ≤ nextStart e rest := hat.stop_le
  -- else the last byte of the region is whitespace, and `trim` takes it away
  by_contra hge
  refine hat.tight (by omega) ?_
  rcases Nat.lt_or_ge t.stop d.stop with hlt' | hge'
  · exact hws _ (by omega) (by omega)
  · rw [show d.stop = t.stop by omega]
    exact hspace

/-- Another line has a command region whose last token has another text. -/
theorem text_cut {line : CommandLine} (hshort : Short (tokens line.toLine line.length 0))
    (hsame : SameText line.toLine) :
    Untrimmed line.toLine line.length (tokens line.toLine line.length 0) := by
  intro c t rest hL hdelim hws hspace
  have hend : ToEnd line.toLine line.length (c ++ t :: rest) := ⟨0, Nat.zero_le _, hL⟩
  have hmem : t ∈ tokens line.toLine line.length 0 := by
    rw [hL]
    exact List.mem_append_right c List.mem_cons_self
  have htok := (isToken_of_mem (Nat.zero_le _) hmem).1
  have hlt := htok.lt_stop
  have hword := htok.normal (show t.start ≤ t.stop - 1 by omega) (by omega) hspace
  have hnormal : ¬ delimits typemaskCommand t.type = true := by
    rw [hword]
    decide
  -- the region that ends with the token
  obtain ⟨d, c', hd, hat, hchunk⟩ := reach_token hshort hL hnormal hdelim
  have hcut := stop_lt_of_isspace hat hws hspace
  have hle : t.stop ≤ nextStart line.length rest := hend.suffix.stop_le_nextStart
  have hlast : t ∈ c' ++ [t] := List.mem_append_right c' List.mem_cons_self
  have hmem' : atToken d.stop (readToken line.toLine t.start d.stop)
      ∈ (d.tokenList line.toLine).map (atToken d.stop) := by
    refine List.mem_map_of_mem ?_
    rw [hat.tokenList.1]
    exact List.mem_map.mpr ⟨t, hlast, rfl⟩
  obtain ⟨it', hit', hs', w, hw, hw'⟩ := hsame d hd _ _ (tokenLoop_spec hat.le (hat.short hchunk))
    (tokenize_spec hshort) _ hmem'
  obtain ⟨t', ht', rfl⟩ := List.mem_map.mp hit'
  -- tokens of the line that start at the same place are the same
  have hsame' : t' = t := by
    have hstart' : t'.start = t.start := hs'.trans (readToken_start t.start d.stop)
    rw [← (isToken_of_mem (Nat.zero_le _) ht').1.read, hstart', htok.read]
  subst hsame'
  exact str_cut_ne htok (hshort t' hmem) (hat.mem t' hlast) hcut
    (fun i hi hlt => hat.trimmed i hi (Nat.lt_of_lt_of_le hlt hle)) hw hw'

/-- **SAME TEXT**: going through the sub-parsers changes no text exactly if no
    token that ends in whitespace is trimmed. -/
theorem sameText_iff {line : CommandLine} (hshort : Short (tokens line.toLine line.length 0)) :
    SameText line.toLine
      ↔ Untrimmed line.toLine line.length (tokens line.toLine line.length 0) :=
  ⟨text_cut hshort, text_kept hshort⟩

/-- `a\ ;b`, where the blank is escaped. -/
def escapedBlank : CommandLine where
  bytes := [97, 92, 32, 59, 98]
  nulFree := by simp

theorem sameText_iff_small : SameText escapedBlank.toLine ↔ Untrimmed escapedBlank.toLine
    escapedBlank.length (tokens escapedBlank.toLine escapedBlank.length 0) :=
  sameText_iff (short_of_length (by decide))

/-- The command `a\ ` of the first region is cut off to `a\`. -/
theorem escapedBlank_not_sameText : ¬ SameText escapedBlank.toLine := by
  intro h
  have hword : readToken escapedBlank.toLine 0 5
      = { start := 0, type := .normal, quoted := true, stop := 3 } := by decide
  have hsemi : readToken escapedBlank.toLine 3 5
      = { start := 3, type := .sequence, quoted := false, stop := 4 } := by decide
  have hskip : skipShellSpace escapedBlank.toLine 0 5 = 0 := by decide
  have hskip' : skipShellSpace escapedBlank.toLine 3 5 = 3 := by decide
  have htokens : tokens escapedBlank.toLine 5 0
      = [] ++ { start := 0, type := .normal, quoted := true, stop := 3 }
        :: { start := 3, type := .sequence, quoted := false, stop := 4 }
        :: tokens escapedBlank.toLine 5 4 := by
    rw [tokens, hskip, dif_pos (by decide), hword, tokens, hskip', dif_pos (by decide), hsemi]
    rfl
  refine text_cut (short_of_length (by decide)) h [] _ _ htokens (by decide) ?_ (by decide)
  intro i hi hlt
  exact absurd hi (Nat.not_le.mpr hlt)

end CommandText
