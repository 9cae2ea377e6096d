import Cs61.CheckedLoops
import Mathlib.Data.List.GetD

/-! # `mkbootdisk` — the image of the boot disk

    The boot sector with its signature, then each file, filled up to whole
    sectors, then sectors of zeros up to 1024.  A `write` may take fewer bytes
    than it is given and may be interrupted.  `mkbootdisk_writes` says what is
    written under every schedule of such calls. -/

namespace DiskImage

open LoopRules CheckedLoops

/-! ## Writes -/

/-- What the system does with a call of `write`: it fails with `EINTR`, fails
    with another error, or takes up to `k` bytes. -/
inductive WriteCall where
  | eintr
  | failed
  | takes (k : Nat)
deriving DecidableEq

/-- Calls that are interrupted, or take at least one byte. -/
def WriteCall.Progress : WriteCall → Prop
  | eintr => True
  | failed => False
  | takes k => 1 ≤ k

/-- What every call of `write` does. -/
abbrev Schedule := Nat → WriteCall

/-- The variables of `mkbootdisk.cc`, what has been written, and the number of
    calls so far. -/
structure Writer where
  maxoff : Nat
  curoff : Nat
  nsectors : Nat
  out : List UInt8
  calls : Nat

/-- The loop of `diskwrite`.  An error ends the program with its text. -/
def writeBody (sched : Schedule) (s : List UInt8 × Writer) :
    Turn (List UInt8 × Writer) (Except String Writer) :=
  if 0 < s.1.length then
    let called := { s.2 with calls := s.2.calls + 1 }
    match sched s.2.calls with
    | .eintr => .again (s.1, called)
    | .failed => .leave (.error "write")
    | .takes k =>
        let w := min k s.1.length
        if w = 0 then .leave (.error "write hit end of file\n")
        else .again (s.1.drop w,
          { called with curoff := called.curoff + w, out := called.out ++ s.1.take w })
  else .leave (.ok s.2)

/-- `diskwrite(data, amt)`. -/
def diskwrite (sched : Schedule) (data : List UInt8) (d : Writer) (fuel : Nat) :
    Option (Except String Writer) :=
  if d.maxoff ≠ 0 ∧ d.maxoff < d.curoff + data.length then
    some (.error "more data than allowed in partition!\n")
  else run (writeBody sched) fuel (data, d)

/-! ## `main` -/

/-- A part of the disk that is cleared. -/
def zeros (n : Nat) : List UInt8 := List.replicate n 0

/-- `while ((n = fread(buf, 1, 4096, f)) > 0)`. -/
def copyFile (sched : Schedule) (file : List UInt8) (d : Writer) (fuel : Nat) :
    Option (Except String Writer) :=
  if 0 < (file.take 4096).length then
    andThen (diskwrite sched (file.take 4096) d fuel) fun d =>
    copyFile sched (file.drop 4096) d fuel
  else some (.ok d)
termination_by file.length
decreasing_by
  simp only [List.length_take] at *
  rw [List.length_drop]
  omega

/-- `k` sectors of zeros, and `nsectors++` after each. -/
def zeroSectors (sched : Schedule) : Nat → Writer → Nat → Option (Except String Writer)
  | 0, d, _ => some (.ok d)
  | k + 1, d, fuel =>
      andThen (diskwrite sched (zeros 512) d fuel) fun d =>
      zeroSectors sched k { d with nsectors := d.nsectors + 1 } fuel

/-- `while (nsectors < limit)`.  `diskwrite` leaves `nsectors` alone, so the
    number of passes is known. -/
def fillTo (sched : Schedule) (limit : Nat) (d : Writer) (fuel : Nat) :
    Option (Except String Writer) :=
  zeroSectors sched (limit - d.nsectors) d fuel

/-- A file. -/
def addFile (sched : Schedule) (file : List UInt8) (d : Writer) (fuel : Nat) :
    Option (Except String Writer) :=
  andThen (copyFile sched file d fuel) fun d =>
  let pos := file.length
  if pos % 512 ≠ 0 then
    andThen (diskwrite sched (zeros (512 - pos % 512)) d fuel) fun d =>
    some (.ok { d with nsectors := d.nsectors + (pos + (512 - pos % 512)) / 512 })
  else some (.ok { d with nsectors := d.nsectors + pos / 512 })

/-- What an argument after the boot sector stands for: `@X`, or a file. -/
inductive Operand where
  | skipto (sector : Nat)
  | file (bytes : List UInt8)

/-- What the tool does for one operand. -/
def addOperand (sched : Schedule) (o : Operand) (d : Writer) (fuel : Nat) :
    Option (Except String Writer) :=
  match o with
  | .skipto sector =>
      if sector < d.nsectors then some (.error
        "mkbootdisk: can't skip to sector %u, already at sector %u\n")
      else fillTo sched sector d fuel
  | .file bytes => addFile sched bytes d fuel

/-- The operands, one after the other. -/
def addOperands (sched : Schedule) : List Operand → Writer → Nat → Option (Except String Writer)
  | [], d, _ => some (.ok d)
  | o :: rest, d, fuel =>
      andThen (addOperand sched o d fuel) fun d => addOperands sched rest d fuel

/-- The boot sector, with its signature. -/
def bootSector (buf : List UInt8) : List UInt8 := buf ++ zeros (510 - buf.length) ++ [0x55, 0xAA]

/-- The state in which `main` starts, for a new disk. -/
def newDisk : Writer := { maxoff := 0, curoff := 0, nsectors := 0, out := [], calls := 0 }

/-- `mkbootdisk BOOTSECTORFILE [FILE | @SECNUM]...`. -/
def mkbootdisk (sched : Schedule) (bootsector : List UInt8) (operands : List Operand)
    (fuel : Nat) : Option (Except String Writer) :=
  let buf := bootsector.take 4096
  if 510 < buf.length then some (.error "%s: boot block too large: %s%u bytes (max 510)\n")
  else
    andThen (diskwrite sched (bootSector buf) newDisk fuel) fun d =>
    andThen (addOperands sched operands { d with nsectors := 1 } fuel) fun d =>
    fillTo sched 1024 d fuel

/-! ## What is written -/

/-- Some call goes through, however long one waits. -/
def Fair (sched : Schedule) : Prop := ∀ i, ∃ j, i ≤ j ∧ sched j ≠ .eintr

/-- A part of the program that starts at sector `n`: if it ends, then by
    returning, with `data` written and at sector `m`; and it ends unless it is
    interrupted forever. -/
structure Writes (sched : Schedule) (n : Nat) (f : Writer → Nat → Option (Except String Writer))
    (data : List UInt8) (m : Nat) : Prop where
  result : ∀ {d fuel r}, d.maxoff = 0 → d.nsectors = n → f d fuel = some r →
    ∃ d', r = .ok d' ∧ d'.maxoff = 0 ∧ d'.nsectors = m ∧ d'.out = d.out ++ data
  returns : Fair sched → ∀ {d}, d.maxoff = 0 → d.nsectors = n → ∃ d', Returns (f d) (.ok d')

section Parts

variable {sched : Schedule} {n m p : Nat} {f g : Writer → Nat → Option (Except String Writer)}
  {a b data : List UInt8}

/-- Nothing is written. -/
theorem Writes.skip : Writes sched n (fun d _ => some (.ok d)) [] n := by
  refine ⟨?_, fun _ d _ _ => ⟨d, Returns.pure _⟩⟩
  intro d fuel r hmax hn hr
  exact ⟨d, (Option.some.inj hr).symm, hmax, hn, (List.append_nil _).symm⟩

/-- `nsectors` is moved. -/
theorem Writes.move {f : Writer → Writer} (hmax : ∀ d, (f d).maxoff = d.maxoff)
    (hout : ∀ d, (f d).out = d.out) (hn : ∀ d, d.nsectors = n → (f d).nsectors = m) :
    Writes sched n (fun d _ => some (.ok (f d))) [] m := by
  refine ⟨?_, fun _ d _ _ => ⟨f d, Returns.pure _⟩⟩
  intro d fuel r hd hnd hr
  refine ⟨f d, (Option.some.inj hr).symm, (hmax d).trans hd, hn d hnd, ?_⟩
  rw [hout, List.append_nil]

/-- One part after the other. -/
theorem Writes.seq (hf : Writes sched n f a m) (hg : Writes sched m g b p) :
    Writes sched n (fun d fuel => andThen (f d fuel) fun d => g d fuel) (a ++ b) p := by
  constructor
  · intro d fuel r hmax hn hr
    cases hfd : f d fuel with
    | none =>
        rw [hfd] at hr
        cases hr
    | some r₁ =>
        obtain ⟨d₁, rfl, hmax₁, hn₁, hout₁⟩ := hf.result hmax hn hfd
        rw [andThen_ok hfd] at hr
        obtain ⟨d₂, rfl, hmax₂, hn₂, hout₂⟩ := hg.result hmax₁ hn₁ hr
        exact ⟨d₂, rfl, hmax₂, hn₂, by rw [hout₂, hout₁, List.append_assoc]⟩
  · intro hfair d hmax hn
    obtain ⟨d₁, k, hk⟩ := hf.returns hfair hmax hn
    obtain ⟨d₁', hd₁', hmax₁, hn₁, -⟩ := hf.result hmax hn (hk k (Nat.le_refl k))
    obtain rfl := Except.ok.inj hd₁'
    obtain ⟨d₂, l, hl⟩ := hg.returns hfair hmax₁ hn₁
    refine ⟨d₂, k + l, fun fuel hfuel => ?_⟩
    show andThen (f d fuel) _ = _
    rw [andThen_ok (hk fuel (by omega))]
    exact hl fuel (by omega)

/-- The same writes by another function. -/
theorem Writes.congr (h : Writes sched n f data m)
    (hfg : ∀ d fuel, d.nsectors = n → g d fuel = f d fuel) : Writes sched n g data m := by
  refine ⟨?_, ?_⟩
  · intro d fuel r hmax hn hr
    rw [hfg d fuel hn] at hr
    exact h.result hmax hn hr
  · intro hfair d hmax hn
    obtain ⟨d', hd'⟩ := h.returns hfair hmax hn
    exact ⟨d', hd'.congr fun fuel => hfg d fuel hn⟩

end Parts

section Progress

variable {sched : Schedule} (hsched : ∀ i, (sched i).Progress) {n : Nat} {data : List UInt8}
include hsched

/-- A pass of the loop of `diskwrite`. -/
theorem writeBody_cases (s : List UInt8 × Writer) :
    (s.1 = [] ∧ writeBody sched s = .leave (.ok s.2))
      ∨ (s.1 ≠ [] ∧ sched s.2.calls = .eintr
        ∧ writeBody sched s = .again (s.1, { s.2 with calls := s.2.calls + 1 }))
      ∨ ∃ w, 0 < w ∧ w ≤ s.1.length ∧ writeBody sched s = .again (s.1.drop w,
          { s.2 with calls := s.2.calls + 1, curoff := s.2.curoff + w, out := s.2.out ++ s.1.take w }) := by
  by_cases hlen : 0 < s.1.length
  · have hp := hsched s.2.calls
    rw [writeBody, if_pos hlen]
    cases hcall : sched s.2.calls with
    | eintr => exact Or.inr (Or.inl ⟨List.ne_nil_of_length_pos hlen, rfl, rfl⟩)
    | failed =>
        rw [hcall] at hp
        exact hp.elim
    | takes k =>
        rw [hcall] at hp
        have hk : 1 ≤ k := hp
        refine Or.inr (Or.inr ⟨min k s.1.length, by omega, Nat.min_le_right _ _, ?_⟩)
        show (if min k s.1.length = 0 then _ else _) = _
        rw [if_neg (by omega)]
  · refine Or.inl ⟨List.eq_nil_of_length_eq_zero (by omega), ?_⟩
    rw [writeBody, if_neg hlen]

/-- The loop of writes ends with the data written. -/
theorem run_writeBody_result (fuel : Nat) {s : List UInt8 × Writer} {r : Except String Writer}
    (h : run (writeBody sched) fuel s = some r) :
    ∃ d', r = .ok d' ∧ d'.maxoff = s.2.maxoff ∧ d'.nsectors = s.2.nsectors
      ∧ d'.out = s.2.out ++ s.1 := by
  refine run_invariant
    (fun t => t.2.maxoff = s.2.maxoff ∧ t.2.nsectors = s.2.nsectors
      ∧ t.2.out ++ t.1 = s.2.out ++ s.1)
    (fun r => ∃ d', r = .ok d' ∧ d'.maxoff = s.2.maxoff ∧ d'.nsectors = s.2.nsectors
      ∧ d'.out = s.2.out ++ s.1) ?_ ?_ fuel s r ⟨rfl, rfl, rfl⟩ h
  · rintro t t' ⟨hmax, hn, hout⟩ hstep
    rcases writeBody_cases hsched t with ⟨-, hbody⟩ | ⟨-, -, hbody⟩ | ⟨w, -, -, hbody⟩
    · rw [hbody] at hstep
      cases hstep
    · rw [hbody] at hstep
      obtain rfl := Turn.again.inj hstep
      exact ⟨hmax, hn, hout⟩
    · rw [hbody] at hstep
      obtain rfl := Turn.again.inj hstep
      refine ⟨hmax, hn, ?_⟩
      show (t.2.out ++ t.1.take w) ++ t.1.drop w = _
      rw [List.append_assoc, List.take_append_drop]
      exact hout
  · rintro t r' ⟨hmax, hn, hout⟩ hstep
    rcases writeBody_cases hsched t with ⟨hnil, hbody⟩ | ⟨-, -, hbody⟩ | ⟨w, -, -, hbody⟩
    · rw [hbody] at hstep
      obtain rfl := Turn.leave.inj hstep
      rw [hnil, List.append_nil] at hout
      exact ⟨t.2, rfl, hmax, hn, hout⟩
    · rw [hbody] at hstep
      cases hstep
    · rw [hbody] at hstep
      cases hstep

/-- The loop goes on until a call takes something; then there is less to do. -/
theorem run_writeBody_returns (hfair : Fair sched) (s : List UInt8 × Writer) :
    ∃ d', Returns (fun fuel => run (writeBody sched) fuel s) (.ok d') := by
  induction hlen : s.1.length using Nat.strongRecOn generalizing s with
  | _ len ih =>
      obtain ⟨j, hj, hcall⟩ := hfair s.2.calls
      obtain ⟨k, rfl⟩ : ∃ k, j = s.2.calls + k := ⟨j - s.2.calls, by omega⟩
      clear hj
      induction k generalizing s with
      | zero =>
          rcases writeBody_cases hsched s with ⟨-, hbody⟩ | ⟨-, heintr, -⟩ | ⟨w, hw, hle, hbody⟩
          · exact ⟨s.2, returns_leave hbody⟩
          · exact absurd heintr hcall
          · obtain ⟨d', hd'⟩ := ih (s.1.drop w).length (by rw [List.length_drop]; omega)
              (s.1.drop w, { s.2 with
                calls := s.2.calls + 1, curoff := s.2.curoff + w, out := s.2.out ++ s.1.take w }) rfl
            exact ⟨d', returns_again hbody hd'⟩
      | succ k ihk =>
          rcases writeBody_cases hsched s with ⟨-, hbody⟩ | ⟨-, -, hbody⟩ | ⟨w, hw, hle, hbody⟩
          · exact ⟨s.2, returns_leave hbody⟩
          · have hnext : s.2.calls + (k + 1) = s.2.calls + 1 + k := by omega
            rw [hnext] at hcall
            obtain ⟨d', hd'⟩ := ihk (s.1, { s.2 with calls := s.2.calls + 1 }) hlen hcall
            exact ⟨d', returns_again hbody hd'⟩
          · obtain ⟨d', hd'⟩ := ih (s.1.drop w).length (by rw [List.length_drop]; omega)
              (s.1.drop w, { s.2 with
                calls := s.2.calls + 1, curoff := s.2.curoff + w, out := s.2.out ++ s.1.take w }) rfl
            exact ⟨d', returns_again hbody hd'⟩

/-- `diskwrite` writes its data. -/
theorem diskwrite_writes (data : List UInt8) : Writes sched n (diskwrite sched data) data n := by
  have heq : ∀ {d : Writer} fuel, d.maxoff = 0 →
      diskwrite sched data d fuel = run (writeBody sched) fuel (data, d) := by
    intro d fuel hmax
    rw [diskwrite, if_neg fun h => h.1 hmax]
  constructor
  · intro d fuel r hmax hn hr
    rw [heq fuel hmax] at hr
    obtain ⟨d', rfl, hmax', hn', hout⟩ := run_writeBody_result hsched fuel hr
    exact ⟨d', rfl, hmax'.trans hmax, hn'.trans hn, hout⟩
  · intro hfair d hmax hn
    obtain ⟨d', hd'⟩ := run_writeBody_returns hsched hfair (data, d)
    exact ⟨d', hd'.congr fun fuel => heq fuel hmax⟩

/-- A file is copied. -/
theorem copyFile_writes (file : List UInt8) : Writes sched n (copyFile sched file) file n := by
  induction hlen : file.length using Nat.strongRecOn generalizing file with
  | _ len ih =>
      have htake : (file.take 4096).length = min 4096 file.length := List.length_take
      by_cases hpos : 0 < (file.take 4096).length
      · have hrest := ih (file.drop 4096).length (by rw [List.length_drop]; omega) _ rfl
        have h := (diskwrite_writes hsched (file.take 4096)).seq hrest
        rw [List.take_append_drop] at h
        refine h.congr fun d fuel _ => ?_
        rw [copyFile, if_pos hpos]
      · have hnil : file = [] := List.eq_nil_of_length_eq_zero (by omega)
        subst hnil
        refine Writes.skip.congr fun d fuel _ => ?_
        rw [copyFile, if_neg hpos]

/-- Sectors are cleared. -/
theorem zeroSectors_writes (k : Nat) :
    Writes sched n (zeroSectors sched k) (zeros (512 * k)) (n + k) := by
  induction k generalizing n with
  | zero => exact Writes.skip
  | succ k ih =>
      have hsplit : zeros (512 * (k + 1)) = zeros 512 ++ ([] ++ zeros (512 * k)) := by
        rw [List.nil_append, zeros, zeros, zeros, List.replicate_append_replicate]
        congr 1
        omega
      have hmove : Writes sched n (fun d _ => some (.ok { d with nsectors := d.nsectors + 1 }))
          [] (n + 1) :=
        Writes.move (fun _ => rfl) (fun _ => rfl) (fun d hd => by show d.nsectors + 1 = _; rw [hd])
      have h := (diskwrite_writes hsched (zeros 512)).seq (hmove.seq (ih (n := n + 1)))
      rw [hsplit, show n + (k + 1) = n + 1 + k by omega]
      exact h.congr fun d fuel _ => rfl

/-- The disk is filled up. -/
theorem fillTo_writes (limit : Nat) :
    Writes sched n (fillTo sched limit) (zeros (512 * (limit - n))) (max n limit) := by
  have h := zeroSectors_writes (n := n) hsched (limit - n)
  rw [show n + (limit - n) = max n limit by omega] at h
  refine h.congr fun d fuel hn => ?_
  rw [fillTo, hn]

/-- The bytes of a file in whole sectors. -/
def padded (file : List UInt8) : List UInt8 :=
  file ++ zeros ((512 - file.length % 512) % 512)

/-- How many sectors a file takes. -/
def sectors (file : List UInt8) : Nat := (file.length + 511) / 512

/-- A file is written in whole sectors. -/
theorem addFile_writes (file : List UInt8) :
    Writes sched n (addFile sched file) (padded file) (n + sectors file) := by
  have hmove : ∀ k, Writes sched n
      (fun d _ => some (.ok { d with nsectors := d.nsectors + k })) [] (n + k) := fun k =>
    Writes.move (fun _ => rfl) (fun _ => rfl) (fun d hd => by show d.nsectors + k = _; rw [hd])
  by_cases hfull : file.length % 512 = 0
  · have hpad : padded file = file ++ [] := by
      rw [padded, show (512 - file.length % 512) % 512 = 0 by omega]
      rfl
    have hcount : sectors file = file.length / 512 := by
      rw [sectors]
      omega
    rw [hpad, hcount]
    refine ((copyFile_writes hsched file).seq (hmove _)).congr fun d fuel _ => ?_
    rw [addFile]
    refine congrArg (andThen _) (funext fun d => ?_)
    rw [if_neg (not_not_intro hfull)]
  · have hpad : padded file = file ++ (zeros (512 - file.length % 512) ++ []) := by
      rw [padded, List.append_nil, Nat.mod_eq_of_lt (by omega)]
    have hcount : sectors file = (file.length + (512 - file.length % 512)) / 512 := by
      rw [sectors]
      omega
    rw [hpad, hcount]
    refine ((copyFile_writes hsched file).seq
      ((diskwrite_writes hsched _).seq (hmove _))).congr fun d fuel _ => ?_
    rw [addFile]
    refine congrArg (andThen _) (funext fun d => ?_)
    rw [if_pos hfull]

/-- The image of a boot sector and one file. -/
def image (bootsector file : List UInt8) : List UInt8 :=
  bootSector bootsector ++ padded file ++ zeros (512 * (1024 - (1 + sectors file)))

/-- **DISK IMAGES**: `mkbootdisk BOOTSECTOR FILE` writes the image, however its
    writes are cut and interrupted, if it ends; and it ends unless it is
    interrupted forever. -/
theorem mkbootdisk_writes {bootsector : List UInt8} (hboot : bootsector.length ≤ 510)
    (file : List UInt8) :
    (∀ fuel r, mkbootdisk sched bootsector [.file file] fuel = some r →
        ∃ d, r = .ok d ∧ d.out = image bootsector file)
      ∧ (Fair sched → ∃ d, Returns (mkbootdisk sched bootsector [.file file]) (.ok d)
          ∧ d.out = image bootsector file) := by
  -- the boot sector fits
  have hbuf : bootsector.take 4096 = bootsector := List.take_of_length_le (by omega)
  have hmove : Writes sched 0 (fun d _ => some (.ok { d with nsectors := 1 })) [] 1 :=
    Writes.move (fun _ => rfl) (fun _ => rfl) (fun _ _ => rfl)
  have hfile : Writes sched 1 (addOperands sched [.file file]) (padded file) (1 + sectors file) := by
    have h := (addFile_writes (n := 1) hsched file).seq Writes.skip
    rw [List.append_nil] at h
    exact h
  have hrest := hmove.seq (hfile.seq (fillTo_writes (n := 1 + sectors file) hsched 1024))
  have hall := (diskwrite_writes (n := 0) hsched (bootSector bootsector)).seq hrest
  -- the calls of `mkbootdisk`, one after another
  have heq : ∀ fuel, mkbootdisk sched bootsector [.file file] fuel
      = andThen (diskwrite sched (bootSector bootsector) newDisk fuel) fun d =>
        andThen (some (.ok { d with nsectors := 1 })) fun d =>
        andThen (addOperands sched [.file file] d fuel) fun d => fillTo sched 1024 d fuel := by
    intro fuel
    rw [mkbootdisk, hbuf, if_neg (by omega)]
    rfl
  have hout : ∀ d : Writer, d.out = newDisk.out ++ (bootSector bootsector ++ ([] ++ (padded file
      ++ zeros (512 * (1024 - (1 + sectors file)))))) → d.out = image bootsector file := by
    intro d hd
    rw [hd, image, List.append_assoc]
    rfl
  constructor
  · -- whatever is returned, it is this
    intro fuel r hr
    rw [heq] at hr
    obtain ⟨d, rfl, -, -, hd⟩ := hall.result (d := newDisk) rfl rfl hr
    exact ⟨d, rfl, hout d hd⟩
  · -- and it is returned when every block gets written
    intro hfair
    obtain ⟨d, k, hk⟩ := hall.returns hfair (d := newDisk) rfl rfl
    obtain ⟨d', hd', -, -, hdata⟩ := hall.result (d := newDisk) rfl rfl (hk k (Nat.le_refl k))
    obtain rfl := Except.ok.inj hd'
    exact ⟨d, Returns.congr heq ⟨k, hk⟩, hout d hdata⟩

end Progress

/-! ## The image -/

/-- The boot sector is one sector. -/
theorem length_bootSector {bootsector : List UInt8} (hboot : bootsector.length ≤ 510) :
    (bootSector bootsector).length = 512 := by
  rw [bootSector, List.length_append, List.length_append, zeros, List.length_replicate]
  show _ + _ + 2 = 512
  omega

/-- A file takes whole sectors. -/
theorem length_padded (file : List UInt8) : (padded file).length = 512 * sectors file := by
  rw [padded, List.length_append, zeros, List.length_replicate, sectors]
  omega

/-- How long the image is. -/
theorem length_image {bootsector : List UInt8} (hboot : bootsector.length ≤ 510)
    (file : List UInt8) :
    (image bootsector file).length = 512 * max 1024 (1 + sectors file) := by
  rw [image, List.length_append, List.length_append, length_bootSector hboot, length_padded,
    zeros, List.length_replicate]
  omega

theorem getD_append_zeros (file : List UInt8) (k i : Nat) :
    (file ++ zeros k).getD i 0 = file.getD i 0 := by
  rcases Nat.lt_or_ge i file.length with hlt | hge
  · exact List.getD_append _ _ _ _ hlt
  · rw [List.getD_append_right _ _ _ _ hge, zeros, List.getD_eq_default file _ hge,
      List.getD_eq_getElem?_getD, List.getElem?_getD_replicate_default_eq]

/-- Behind the boot sector the image is the file, with zeros behind it. -/
theorem image_getD {bootsector : List UInt8} (hboot : bootsector.length ≤ 510)
    (file : List UInt8) (i : Nat) : (image bootsector file).getD (512 + i) 0 = file.getD i 0 := by
  have hlen := length_bootSector hboot
  rw [image, List.append_assoc, List.getD_append_right _ _ _ _ (by omega), hlen,
    Nat.add_sub_cancel_left, padded, List.append_assoc, zeros, zeros,
    List.replicate_append_replicate]
  exact getD_append_zeros file _ i

end DiskImage
