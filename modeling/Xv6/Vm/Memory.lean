import Mathlib.Algebra.Group.Int.Defs
import Xv6.Lib.Act
import Mathlib.Logic.Function.Basic

/-!
# Physical memory and page directories

`kalloc` and `kfree` of `kalloc.c` over the pages of physical memory; the free list is
threaded through the first word of each free page.  A `uint` is a `Nat` below 2³²; a
page of physical or of virtual memory is given by its number.  Page directories and page
tables are kept as records, apart from the bytes of the pages that hold them.
-/

namespace Xv6.Vm

open Lib Function

abbrev PGSIZE : Nat := 4096
abbrev NPTENTRIES : Nat := 1024
abbrev EXTMEM : Nat := 0x100000
abbrev PHYSTOP : Nat := 0xE000000
abbrev DEVSPACE : Nat := 0xFE000000
abbrev KERNBASE : Nat := 0x80000000
abbrev KERNLINK : Nat := KERNBASE + EXTMEM

structure Layout where
  data : Nat
  kend : Nat
  text_lt_data : EXTMEM / PGSIZE < data
  data_le_kend : data ≤ kend
  kend_lt_top : kend < PHYSTOP / PGSIZE

structure Pte where
  frame : Nat
  writable : Bool
  user : Bool
  deriving DecidableEq

structure PageTable where
  frame : Nat
  entry : Nat → Option Pte

structure Pgdir where
  frame : Nat
  table : Nat → Option PageTable

namespace Pgdir

def pte (d : Pgdir) (n : Nat) : Option Pte :=
  (d.table (n / NPTENTRIES)).bind fun t => t.entry (n % NPTENTRIES)

/-- A store through the pointer that `walkpgdir` returned for a page. -/
def setPte (d : Pgdir) (n : Nat) (x : Option Pte) : Pgdir :=
  match d.table (n / NPTENTRIES) with
  | none => d
  | some t =>
    let t := { t with entry := update t.entry (n % NPTENTRIES) x }
    { d with table := update d.table (n / NPTENTRIES) (some t) }

def addTable (d : Pgdir) (i : Nat) (f : Nat) : Pgdir :=
  { d with table := update d.table i (some ⟨f, fun _ => none⟩) }

def new (f : Nat) : Pgdir := ⟨f, fun _ => none⟩

end Pgdir

structure Mem where
  bytes : Nat → Nat → UInt8
  freelist : Option Nat
  /-- the calls of `kalloc` that fail whatever the free list holds -/
  fails : Nat → Bool
  calls : Nat
  /-- what is found by each read of an entry through a null pointer -/
  null : Nat → Option Pte
  /-- the pages for which an entry has been read through a null pointer, latest first -/
  nulls : List Nat
  /-- the pages of physical memory a file has been read into, with the directory that maps
  them, latest first -/
  loaded : List (Pgdir × Nat)

def word (p : Nat → UInt8) (off : Nat) : Nat :=
  (p off).toNat + 256 * (p (off + 1)).toNat + 65536 * (p (off + 2)).toNat +
    16777216 * (p (off + 3)).toNat

def storeWord (p : Nat → UInt8) (w : Nat) : Nat → UInt8
  | 0 => UInt8.ofNat w
  | 1 => UInt8.ofNat (w / 256)
  | 2 => UInt8.ofNat (w / 65536)
  | 3 => UInt8.ofNat (w / 16777216)
  | i => p i

/-- A `struct run *`. -/
def runPtr : Option Nat → Nat
  | none => 0
  | some f => KERNBASE + f * PGSIZE

def ofRunPtr (w : Nat) : Option Nat :=
  if w = 0 then none else some ((w + 2 ^ 32 - KERNBASE) % 2 ^ 32 / PGSIZE)

namespace Mem

/-- `r->next` -/
def next (m : Mem) (f : Nat) : Option Nat := ofRunPtr (word (m.bytes f) 0)

def setPage (m : Mem) (f : Nat) (p : Nat → UInt8) : Mem :=
  { m with bytes := update m.bytes f p }

end Mem

abbrev VmM := Act Mem

def kalloc : VmM (Option Nat) := do
  let m ← Act.get
  Act.modify fun m => { m with calls := m.calls + 1 }
  if m.fails m.calls then pure none
  else
    match m.freelist with
    | none => pure none
    | some f => do
      Act.modify fun m => { m with freelist := m.next f }
      pure (some f)

def kfree (L : Layout) (f : Nat) : VmM Unit :=
  if f < L.kend ∨ PHYSTOP / PGSIZE ≤ f then Act.panic "kfree"
  else
    Act.modify fun m =>
      { m.setPage f (storeWord (fun _ => 1) (runPtr m.freelist)) with freelist := some f }

/-- The loop of `freerange`, with the pages it frees. -/
def freeLoop (L : Layout) : Nat → Nat → VmM Unit
  | 0, _ => pure ()
  | k + 1, f => do
    kfree L f
    freeLoop L k (f + 1)

/-- `freerange`, from page `lo` to page `hi` -/
def freerange (L : Layout) (lo hi : Nat) : VmM Unit := freeLoop L (hi - lo) lo

/-- `memset` of a page, or any other overwriting of it. -/
def fillPage (f : Nat) (p : Nat → UInt8) : VmM Unit := Act.modify fun m => m.setPage f p

def pageUp (sz : Nat) : Nat := (sz + (PGSIZE - 1)) % 2 ^ 32 / PGSIZE

end Xv6.Vm
