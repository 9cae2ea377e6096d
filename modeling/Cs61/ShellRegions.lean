import Cs61.ShellParser
import Cs61.Chunks

/-! # Regions — what `first_delimited` and `next_delimited` reach

    Within a parser, a region stands for a chunk of the parser's tokens
    (`AtRegion`): its end is trimmed into the whitespace before the delimiter,
    never past the start of its last token.  The first region is at the first
    chunk (`firstDelimited_spec`), and from each region `++` goes to the next
    (`nextDelimited_spec`), so that a loop over the regions goes over the
    chunks (`children_spec`). -/

namespace ShellRegions

open LoopRules ShellTokens TokenLists ShellParser Chunks

variable {line : Line} {fl : BitVec 64} {e : Nat}

/-- Region `c` is at `chunk`, which a delimiter or the end of the parser ends;
    `rest` starts with that delimiter. -/
structure AtRegion (line : Line) (fl : BitVec 64) (e : Nat) (c : Parser)
    (chunk rest : List Token) : Prop where
  end_ : c.end_ = e
  toEnd : ToEnd line e (chunk ++ rest)
  start : c.s = nextStart e (chunk ++ rest)
  le : c.s ≤ c.stop
  stop_le : c.stop ≤ nextStart e rest
  trimmed : ∀ i, c.stop ≤ i → i < nextStart e rest → isspace (line.byte i) = true
  tight : c.s < c.stop → ¬ isspace (line.byte (c.stop - 1)) = true
  mem : ∀ t ∈ chunk, t.start < c.stop
  inside : ∀ t ∈ chunk, ¬ delimits fl t.type = true
  delim : delimits fl (tokenizer e rest).type = true

/-- A region that a parser may be asked to split. -/
structure Region (line : Line) (c : Parser) : Prop where
  le : c.s ≤ c.stop
  start : skipShellSpace line c.s c.stop = c.s

section AtRegion

variable {c : Parser} {chunk rest : List Token}

theorem AtRegion.rest_toEnd (h : AtRegion line fl e c chunk rest) : ToEnd line e rest :=
  h.toEnd.suffix

theorem AtRegion.stop_le_end (h : AtRegion line fl e c chunk rest) : c.stop ≤ e :=
  Nat.le_trans h.stop_le h.rest_toEnd.nextStart_le

/-- What a parser is at is a region of the line. -/
theorem AtRegion.region (h : AtRegion line fl e c chunk rest) : Region line c := by
  refine ⟨h.le, ?_⟩
  rw [skipShellSpace_cut _ h.le h.stop_le_end, h.start, h.toEnd.skip_eq, ← h.start]
  exact Nat.min_eq_left h.le

/-- The region has the tokens of its chunk, read again. -/
theorem AtRegion.tokenList (h : AtRegion line fl e c chunk rest) :
    c.tokenList line = chunk.map (fun t => readToken line t.start c.stop)
      ∧ ∀ t ∈ chunk, (readToken line t.start c.stop).type = t.type
        ∧ (readToken line t.start c.stop).stop = min t.stop c.stop := by
  refine tokens_cut h.le h.stop_le_end h.stop_le h.trimmed ?_ h.mem
  rw [h.start]
  exact h.toEnd.tokens_eq

/-- A tokenizer at the end of the region finds the delimiter. -/
theorem AtRegion.tokens_stop (h : AtRegion line fl e c chunk rest) :
    tokens line e c.stop = rest := by
  have hskip : skipShellSpace line c.stop e = nextStart e rest :=
    skipShellSpace_eq h.stop_le h.rest_toEnd.nextStart_le h.trimmed h.rest_toEnd.skip_eq
  rw [← tokens_skip h.stop_le_end, hskip]
  exact h.rest_toEnd.tokens_eq

/-- The operator behind the region. -/
theorem AtRegion.nextOp (h : AtRegion line fl e c chunk rest) :
    c.nextOp line = (tokenizer e rest).type := by
  rw [Parser.nextOp, h.end_, new_eq h.stop_le_end, h.tokens_stop]

/-- A region whose tokens fit the `unsigned` field has tokens that do. -/
theorem AtRegion.short (h : AtRegion line fl e c chunk rest) (hshort : Short chunk) :
    Short (c.tokenList line) := by
  rw [h.tokenList.1]
  intro t ht
  obtain ⟨u, hu, rfl⟩ := List.mem_map.mp ht
  have := hshort u hu
  have := (h.tokenList.2 u hu).2
  rw [readToken_start]
  omega

end AtRegion

/-! ## From region to region -/

/-- The start of a tokenizer is that of its token. -/
theorem tokenizer_s (e : Nat) (L : List Token) : (tokenizer e L).s = nextStart e L := by
  cases L <;> rfl

/-- A list of tokens is a chunk and the rest, from its delimiter on. -/
theorem exists_rest (heol : delimits fl .eol = true) (L : List Token) :
    ∃ chunk rest, L = chunk ++ rest ∧ (∀ t ∈ chunk, ¬ delimits fl t.type = true)
      ∧ delimits fl (tokenizer e rest).type = true := by
  rcases exists_chunk (fun t : Token => delimits fl t.type) L with h | ⟨c, d, L', hc, hd, rfl⟩
  · exact ⟨L, [], (List.append_nil L).symm, h, heol⟩
  · exact ⟨c, d :: L', rfl, hc, hd⟩

/-- A region that ends where the whitespace before its delimiter is trimmed. -/
theorem atRegion_trim {chunk rest : List Token} (hend : ToEnd line e (chunk ++ rest))
    (hc : ∀ t ∈ chunk, ¬ delimits fl t.type = true)
    (hrest : delimits fl (tokenizer e rest).type = true) :
    AtRegion line fl e
      { s := nextStart e (chunk ++ rest),
        stop := trim line (nextStart e (chunk ++ rest)) (nextStart e rest), end_ := e }
      chunk rest := by
  obtain ⟨hle, hstop⟩ := hend.chunk_le
  obtain ⟨hs, hd, hws, htight⟩ := trim_spec line hle
  refine ⟨rfl, hend, rfl, hs, hd, hws, htight, ?_, hc, hrest⟩
  intro t ht
  obtain ⟨htok, hstart⟩ := hend.isToken (List.mem_append_left rest ht)
  -- a token starts with a byte that is no whitespace, where trimming stops
  exact lt_trim hstart (Nat.lt_of_lt_of_le htok.lt_stop (hstop t ht)) htok.space

/-- **BEGIN** reaches the region of the first chunk. -/
theorem firstDelimited_spec {c : Parser} {chunk rest : List Token} (hc : Region line c)
    (hL : c.tokenList line = chunk ++ rest) (hshort : Short (c.tokenList line))
    (hin : ∀ t ∈ chunk, ¬ delimits fl t.type = true)
    (hrest : delimits fl (tokenizer c.stop rest).type = true) :
    ∃ d, Returns (fun n => c.firstDelimited line fl n) d
      ∧ AtRegion line fl c.stop d chunk rest := by
  have hend : ToEnd line c.stop (chunk ++ rest) := ⟨c.s, hc.le, hL⟩
  have hat := atRegion_trim hend hin hrest
  have hs : nextStart c.stop (chunk ++ rest) = c.s := by
    rw [← hL, Parser.tokenList, nextStart_tokens _ hc.le, hc.start]
  -- `seek` starts at the first token of `c`, which is where `c` starts
  have hseek := seek_spec hend (hL ▸ hshort) hin hrest
  rw [← hL, Parser.tokenList, ← new_eq hc.le] at hseek
  refine ⟨_, hseek.map _, ?_⟩
  rw [hs] at hat
  rw [tokenizer_s, Parser.new, hat.region.start]
  exact hat

/-- **`++`** goes from a region to the region of the next chunk. -/
theorem nextDelimited_spec {c : Parser} {chunk rest chunk' rest' : List Token}
    (hat : AtRegion line fl e c chunk rest) (hshort : Short rest)
    (hL : rest.tail = chunk' ++ rest') (hin : ∀ t ∈ chunk', ¬ delimits fl t.type = true)
    (hrest : delimits fl (tokenizer e rest').type = true) :
    ∃ d, Returns (fun n => c.nextDelimited line fl n) d
      ∧ AtRegion line fl e d chunk' rest' := by
  -- the tokenizer finds the delimiter of `c` again, and goes past it
  have hit : Tokenizer.new line c.stop c.end_ = tokenizer e rest := by
    rw [hat.end_, new_eq hat.stop_le_end, hat.tokens_stop]
  have hnext : (tokenizer e rest).next line = tokenizer e rest.tail := by
    cases rest with
    | nil => exact next_nil line e
    | cons t L => exact next_cons hat.rest_toEnd.nextStart_le hat.rest_toEnd.tokens_eq hshort
  have hend : ToEnd line e (chunk' ++ rest') := by
    rw [← hL]
    cases rest with
    | nil => exact hat.rest_toEnd
    | cons t L => exact hat.rest_toEnd.suffix (c := [t])
  have hshort' : Short (chunk' ++ rest') := by
    rw [← hL]
    exact fun t ht => hshort t (List.mem_of_mem_tail ht)
  have hret := (seek_spec hend hshort' hin hrest).map fun it : Tokenizer =>
    ({ s := nextStart e (chunk' ++ rest'),
       stop := trim line (nextStart e (chunk' ++ rest')) it.s, end_ := e } : Parser)
  rw [tokenizer_s] at hret
  refine ⟨_, hret.congr ?_, atRegion_trim hend hin hrest⟩
  intro n
  rw [Parser.nextDelimited, hit, if_pos hat.delim, hnext, hL, hat.end_, tokenizer_s]

/-! ## All regions -/

/-- Region `d` is the one of a chunk with its delimiter. -/
def IsChild (line : Line) (fl : BitVec 64) (e : Nat) (chunk : List Token × Option Token)
    (d : Parser) : Prop :=
  Short chunk.1 ∧ ∃ rest, AtRegion line fl e d chunk.1 rest ∧ chunk.2 = rest.head?

/-- The loop goes on exactly while there are tokens. -/
theorem differs_iff {c d : Parser} {chunk rest : List Token}
    (hat : AtRegion line fl c.stop d chunk rest) :
    d.differs (c.endParser line) = true ↔ chunk ++ rest ≠ [] := by
  have hle := hat.le
  have hend := hat.stop_le_end
  have hstart := hat.start
  rw [Parser.differs, Parser.endParser, Parser.new, skipShellSpace_end, Bool.or_eq_true,
    bne_iff_ne, bne_iff_ne]
  dsimp only
  cases hL : chunk ++ rest with
  | nil =>
      rw [hL] at hstart
      have hs : d.s = c.stop := hstart
      refine ⟨fun h => ?_, fun h => absurd rfl h⟩
      omega
  | cons t L =>
      have hlt := (hat.toEnd.isToken (t := t) (by rw [hL]; exact List.mem_cons_self)).1.lt
      rw [hL] at hstart
      have hs : d.s = t.start := hstart
      exact ⟨fun _ => List.cons_ne_nil t L, fun _ => Or.inl (by omega)⟩

/-- The loop from one region on. -/
theorem children_from (heol : delimits fl .eol = true) {c d : Parser} {chunk rest : List Token}
    (hat : AtRegion line fl c.stop d chunk rest) (hshort : Short (chunk ++ rest)) :
    ∃ ds, Returns₂ (fun inner outer => collect (fun d => d.differs (c.endParser line))
        (fun d => d.nextDelimited line fl inner) outer d) ds
      ∧ List.Forall₂ (IsChild line fl c.stop)
        (chunks (fun t : Token => delimits fl t.type) (chunk ++ rest)) ds := by
  induction hn : rest.length using Nat.strongRecOn generalizing d chunk rest with
  | _ n ih =>
      by_cases hnil : chunk ++ rest = []
      · refine ⟨[], returns_collect_stop (Bool.eq_false_iff.mpr ?_), ?_⟩
        · exact fun h => (differs_iff hat).mp h hnil
        · rw [hnil]
          exact List.Forall₂.nil
      have hdiffers := (differs_iff hat).mpr hnil
      obtain ⟨chunk', rest', hL, hin, hrest⟩ := exists_rest heol rest.tail
      obtain ⟨d', hnext, hat'⟩ := nextDelimited_spec hat hshort.suffix hL hin hrest
      have hchunk : Short chunk := hshort.chunk
      cases rest with
      | nil =>
          -- the last chunk: the loop ends at the next region
          obtain ⟨rfl, rfl⟩ := List.append_eq_nil_iff.mp hL.symm
          have hstop : d'.differs (c.endParser line) = false :=
            Bool.eq_false_iff.mpr fun h => (differs_iff hat').mp h rfl
          refine ⟨[d], returns_collect_step hdiffers hnext (returns_collect_stop hstop), ?_⟩
          rw [List.append_nil] at hnil ⊢
          rw [chunks_last hnil hat.inside]
          exact List.Forall₂.cons ⟨hchunk, [], hat, rfl⟩ List.Forall₂.nil
      | cons t L =>
          -- past the delimiter `t` there are fewer tokens left
          have hlen : rest'.length < n := by
            rw [← hn, show L = chunk' ++ rest' from hL, List.length_cons, List.length_append]
            omega
          have hshort' : Short (chunk' ++ rest') := by
            rw [← hL]
            exact hshort.suffix.tail
          obtain ⟨ds, hds, hall⟩ := ih rest'.length hlen hat' hshort' rfl
          refine ⟨d :: ds, returns_collect_step hdiffers hnext hds, ?_⟩
          rw [chunks_append hat.inside hat.delim, show L = chunk' ++ rest' from hL]
          exact List.Forall₂.cons ⟨hchunk, t :: L, hat, rfl⟩ hall

/-- **REGIONS ARE CHUNKS**: the loop over the regions of a parser ends, and its
    regions are those of the chunks of the parser's tokens. -/
theorem children_spec (heol : delimits fl .eol = true) {c : Parser} (hc : Region line c)
    (hshort : Short (c.tokenList line)) :
    ∃ ds, Returns₂ (c.children line fl) ds
      ∧ List.Forall₂ (IsChild line fl c.stop)
        (chunks (fun t : Token => delimits fl t.type) (c.tokenList line)) ds := by
  obtain ⟨chunk, rest, hL, hin, hrest⟩ := exists_rest heol (c.tokenList line)
  obtain ⟨d, hfirst, hat⟩ := firstDelimited_spec hc hL hshort hin hrest
  rw [hL] at hshort
  obtain ⟨ds, hds, hall⟩ := children_from heol hat hshort
  rw [hL]
  refine ⟨ds, ?_, hall⟩
  exact hfirst.inner.bind (g := fun inner outer => collect (fun d => d.differs (c.endParser line))
    (fun d => d.nextDelimited line fl inner) outer) hds

end ShellRegions
