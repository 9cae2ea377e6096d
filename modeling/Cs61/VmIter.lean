import Cs61.PageTable

/-! # `vmiter` — the virtual-memory iterator

    The iterator as `k-vmiter.hh` and `k-vmiter.cc` have it: the fields, the
    queries, the moves and `try_map`.  Reads go through a memory argument, so a
    query names the memory it is made in.

    A failed assertion and a panic end the call with a `Fault`.  Shift counts
    are taken modulo 64, as the processor does. -/

namespace VmIter

open PageTable

/-- How a call can end other than by returning. -/
inductive Fault where
  | panic (format : String) (args : List Word)
  | assertFail (expr : String) (description : Option String)
  /-- A store through `zero_pe`, which is a constant. -/
  | constWrite
deriving DecidableEq, Repr

/-- `assert(x, description)`. -/
def check (x : Bool) (expr : String) (description : Option String) : Except Fault Unit :=
  if x = true then .ok () else .error (.assertFail expr description)

/-- A page-entry pointer: into a page-table page, or at the constant `zero_pe`. -/
inductive Pep where
  | zeroPe
  | slot (a : Word)
deriving DecidableEq, Repr

/-- `*pep`. -/
def Pep.read (mem : Mem) : Pep → Word
  | .zeroPe => 0#64
  | .slot a => mem a

/-- `pep + k`. -/
def Pep.add (pep : Pep) (k : Word) : Pep :=
  match pep with
  | .zeroPe => .zeroPe
  | .slot a => .slot (a + 8#64 * k)

/-- `(reinterpret_cast<uintptr_t>(pep) % PAGESIZE) >> 3`. -/
def Pep.curidx : Pep → Word
  | .zeroPe => 0#64
  | .slot a => (a % pageSize) >>> 3

/-- `*pep = v`. -/
def Pep.write (mem : Mem) (pep : Pep) (v : Word) : Except Fault Mem :=
  match pep with
  | .zeroPe => .error .constWrite
  | .slot a => .ok (Function.update mem a v)

/-- The iterator.  `perm_` is an `int` that starts at 0 or 0xFFF and only loses
    bits, so a 64-bit word holds it exactly. -/
structure Vmiter where
  pt : Word
  pep : Pep
  lbits : Nat
  perm : Word
  va : Word
deriving DecidableEq

namespace Vmiter

/-- `initial_lbits`: the level of the root. -/
def initialLbits : Nat := pageOffBits + 3 * pageIndexBits
/-- `noncanonical_lbits`: the level of the addresses in the gap. -/
def noncanonicalLbits : Nat := 47
/-- `done_lbits`: the iterator is behind the last address. -/
def doneLbits : Nat := 64
/-- `initial_perm`: every permission. -/
def initialPerm : Word := 0xFFF#64

/-- `lbits_mask(lbits)`. -/
def lbitsMask (lbits : Nat) : Word := ~~~(~~~(0#64) <<< (lbits % 64))

/-! ## Queries -/

/-- `done()`. -/
def done (it : Vmiter) : Bool := it.lbits == doneLbits

/-- `last_va()`. -/
def lastVa (it : Vmiter) : Word :=
  if it.lbits == noncanonicalLbits then vaHighMin
  else (it.va ||| lbitsMask it.lbits) + 1#64

/-- `range_size()`. -/
def rangeSize (it : Vmiter) : Word := it.lastVa - it.va

/-- `low()`. -/
def low (it : Vmiter) : Bool := decide (it.va ≤ vaLowMax)

/-- `pa()`. -/
def pa (mem : Mem) (it : Vmiter) : Word :=
  if it.pep.read mem &&& pteP != 0#64 then
    let pa := it.pep.read mem &&& ptePAMask
    let pa := if pageOffBits < it.lbits then pa &&& ~~~(0x1000#64) else pa
    pa + (it.va &&& lbitsMask it.lbits)
  else ~~~(0#64)

/-- `perm()`. -/
def perms (mem : Mem) (it : Vmiter) : Word :=
  let ph := it.pep.read mem &&& it.perm
  ph &&& -(ph &&& pteP)

/-- `perm(desired_perm)`. -/
def hasPerm (mem : Mem) (it : Vmiter) (desired : Word) : Bool :=
  it.perms mem &&& desired == desired

/-- `present()`. -/
def present (mem : Mem) (it : Vmiter) : Bool := it.hasPerm mem pteP
/-- `writable()`. -/
def writable (mem : Mem) (it : Vmiter) : Bool := it.hasPerm mem (pteP ||| pteW)
/-- `user()`. -/
def user (mem : Mem) (it : Vmiter) : Bool := it.hasPerm mem (pteP ||| pteU)

/-! ## The walk -/

/-- One pass of the loop of `down`: follow `*pep_` one level down. -/
def descend (mem : Mem) (it : Vmiter) : Vmiter :=
  let pe := it.pep.read mem
  let lbits := it.lbits - pageIndexBits
  { it with
    perm := it.perm &&& (pe ||| ~~~ptePWU)
    lbits := lbits
    pep := .slot (entryPtr (pe &&& ptePAMask) ((it.va >>> lbits) &&& 0x1FF#64)) }

/-- The loop test of `down`. -/
def descends (mem : Mem) (it : Vmiter) : Bool :=
  decide (pageOffBits < it.lbits) && isTable (it.pep.read mem)

/-- The loop of `down`, for at most `n` passes. -/
def downLoop (mem : Mem) : Nat → Vmiter → Vmiter
  | 0, it => it
  | n + 1, it => if it.descends mem = true then downLoop mem n (it.descend mem) else it

/-- The check after the loop of `down`. -/
def uninitialized (mem : Mem) (it : Vmiter) : Bool :=
  decide (0x100000000#64 ≤ it.pep.read mem &&& ptePAMask)
    && decide (it.lbits < pageOffBits + 2 * pageIndexBits)

/-- The assertion that the iterator has a page table. -/
def checked (mem : Mem) (it : Vmiter) : Except Fault Vmiter :=
  if it.uninitialized mem = true then
    .error (.panic "Page table %p may contain uninitialized memory!\n(Page table contents: %p)\n"
      [it.pt, it.pep.read mem])
  else .ok it

/-- `down`.  Each pass lowers `lbits`, so `lbits` passes are enough. -/
def down (mem : Mem) (it : Vmiter) : Except Fault Vmiter :=
  (downLoop mem it.lbits it).checked mem

/-- Where `find_impl` starts the walk for `va`. -/
def seek (va : Word) (stepping : Bool) (it : Vmiter) : Vmiter :=
  if stepping && va == 0#64 then
    { it with lbits := doneLbits, perm := 0#64, pep := .zeroPe, va := va }
  else if decide (it.lbits < initialLbits)
      && (it.va ^^^ va) &&& (~~~(0#64) <<< (it.lbits + pageIndexBits)) == 0#64 then
    -- stepping to another entry of the same page-table page
    { it with pep := it.pep.add (((va >>> it.lbits) &&& 0x1FF#64) - it.pep.curidx), va := va }
  else if !vaIsCanonical va then
    { it with lbits := noncanonicalLbits, perm := 0#64, pep := .zeroPe, va := va }
  else
    { it with
      lbits := initialLbits
      perm := initialPerm
      pep := .slot (entryPtr it.pt ((va >>> initialLbits) &&& 0x1FF#64))
      va := va }

/-- `find_impl(va, stepping)`. -/
def findImpl (mem : Mem) (va : Word) (stepping : Bool) (it : Vmiter) : Except Fault Vmiter :=
  (it.seek va stepping).down mem

/-- The fields `vmiter(pt, va)` sets before it calls `find_impl`. -/
def init (pt : Word) : Vmiter :=
  { pt := pt, pep := .slot (entryPtr pt 0#64), lbits := initialLbits, perm := initialPerm,
    va := 0#64 }

/-- `vmiter(pt, va)`. -/
def new (mem : Mem) (pt va : Word) : Except Fault Vmiter :=
  (init pt).findImpl mem va false

/-! ## Moves -/

/-- `find(va)`. -/
def find (mem : Mem) (va : Word) (it : Vmiter) : Except Fault Vmiter :=
  if va != it.va then it.findImpl mem va false else .ok it

/-- `operator+=`. -/
def addAssign (mem : Mem) (delta : Word) (it : Vmiter) : Except Fault Vmiter :=
  it.find mem (it.va + delta)

/-- `operator-=`. -/
def subAssign (mem : Mem) (delta : Word) (it : Vmiter) : Except Fault Vmiter :=
  it.find mem (it.va - delta)

/-- `operator++`. -/
def inc (mem : Mem) (it : Vmiter) : Except Fault Vmiter := it.find mem (it.va + 1#64)

/-- `operator--`. -/
def dec (mem : Mem) (it : Vmiter) : Except Fault Vmiter := it.find mem (it.va - 1#64)

/-- `next()`. -/
def next (mem : Mem) (it : Vmiter) : Except Fault Vmiter :=
  let lbits :=
    if decide (pageOffBits < it.lbits) && it.perms mem == 0#64 then it.lbits else pageOffBits
  it.findImpl mem ((it.va ||| lbitsMask lbits) + 1#64) true

/-- `next_range()`. -/
def nextRange (mem : Mem) (it : Vmiter) : Except Fault Vmiter :=
  it.findImpl mem it.lastVa true

/-! ## `try_map` -/

/-- The results of successive `kalloc(PAGESIZE)` calls; 0 is `nullptr`.
    What `kalloc` puts into a page does not matter here: `try_map` clears it. -/
abbrev Kalloc := Nat → Word

/-- `memset(pt, 0, PAGESIZE)`. -/
def zeroPage (mem : Mem) (pt : Word) : Mem :=
  fun a => if pt.toNat ≤ a.toNat ∧ a.toNat < pt.toNat + 4096 then 0#64 else mem a

/-- What the loop of `try_map` leaves behind: whether it ended by itself, or
    `kalloc` failed. -/
structure Grown where
  linked : Bool
  mem : Mem
  it : Vmiter

/-- What `try_map` returns and leaves behind. -/
structure Mapped where
  ret : Int
  mem : Mem
  it : Vmiter

/-- The assertions of `try_map` about the physical address. -/
def checkPa (pa perm : Word) : Except Fault Unit :=
  if perm &&& pteP != 0#64 then
    (check (pa != ~~~(0#64)) "pa != uintptr_t(-1)"
      (some "vmiter::try_map mapping nonexistent pa")).bind fun _ =>
    check (pa &&& ptePAMask == pa) "(pa & PTE_PAMASK) == pa"
      (some "vmiter::try_map pa not aligned")
  else
    check (pa &&& pteP == 0#64) "(pa & PTE_P) == 0" (some "vmiter::try_map invalid pa")

/-- The assertions `try_map` makes before it changes anything. -/
def checkMap (it : Vmiter) (pa perm : Word) : Except Fault Unit :=
  (check (it.va % pageSize == 0#64) "(va_ % PAGESIZE) == 0"
    (some "vmiter::try_map va not aligned")).bind fun _ =>
  (checkPa pa perm).bind fun _ =>
  check (perm &&& ~~~it.perm &&& ptePWU == 0#64)
    "!(perm & ~perm_ & (PTE_P | PTE_W | PTE_U))" none

/-- The loop of `try_map`, for at most `n` passes; `k` counts `kalloc` calls. -/
def grow (kalloc : Kalloc) (perm : Word) : Nat → Nat → Mem → Vmiter → Except Fault Grown
  | 0, _, mem, it => .ok { linked := true, mem := mem, it := it }
  | n + 1, k, mem, it =>
      if decide (pageOffBits < it.lbits) && perm != 0#64 then
        (check (it.pep.read mem &&& pteP == 0#64) "!(*pep_ & PTE_P)" none).bind fun _ =>
        let pt := kalloc k
        if pt == 0#64 then .ok { linked := false, mem := mem, it := it }
        else
          (it.pep.write (zeroPage mem pt) (pt ||| pteP ||| pteW ||| pteU)).bind fun mem' =>
          (it.down mem').bind fun it' =>
          grow kalloc perm n (k + 1) mem' it'
      else .ok { linked := true, mem := mem, it := it }

/-- The last part of `try_map`. -/
def install (pa perm : Word) (g : Grown) : Except Fault Mapped :=
  if g.linked = true then
    if g.it.lbits == pageOffBits then
      (g.it.pep.write g.mem (pa ||| perm)).bind fun mem' =>
      .ok { ret := 0, mem := mem', it := g.it }
    else .ok { ret := 0, mem := g.mem, it := g.it }
  else .ok { ret := -1, mem := g.mem, it := g.it }

/-- The physical address `try_map` works with: -1 stands for 0 in an unmapping. -/
def mapPa (pa perm : Word) : Word := if pa == ~~~(0#64) && perm == 0#64 then 0#64 else pa

/-- `try_map(pa, perm)`.  `perm` is an `int`; every expression it occurs in
    extends its sign to 64 bits. -/
def tryMap (kalloc : Kalloc) (mem : Mem) (it : Vmiter) (pa : Word) (perm : BitVec 32) :
    Except Fault Mapped :=
  let perm := perm.signExtend 64
  let pa := mapPa pa perm
  (it.checkMap pa perm).bind fun _ =>
  (grow kalloc perm it.lbits 0 mem it).bind fun g =>
  install pa perm g

end Vmiter

end VmIter
