import Xv6.Vm.Memory

/-!
# Address spaces

The functions of `vm.c` that build, copy, change and free page directories, and `growproc`.
`walkpgdir` returns the directory in which the page has a page table; the entry it points
to is then `pte` of the page, and a store to it is `setPte`.  Each function returns the
directory it was given as it leaves it.
-/

namespace Xv6.Vm

open Lib

def walkpgdir (d : Pgdir) (n : Nat) (alloc : Bool) : VmM (Option Pgdir) :=
  match d.table (n / NPTENTRIES) with
  | some _ => pure (some d)
  | none =>
    if alloc then do
      match ← kalloc with
      | none => pure none
      | some f => pure (some (d.addTable (n / NPTENTRIES) f))
    else pure none

def mapPage (d : Pgdir) (n : Nat) (x : Pte) : VmM (Bool × Pgdir) := do
  match ← walkpgdir d n true with
  | none => pure (false, d)
  | some d =>
    match d.pte n with
    | some _ => Act.panic "remap"
    | none => pure (true, d.setPte n (some x))

/-- The loop of `mappages`, on page and frame numbers of 20 bits, with the rounds that follow
the first. -/
def mapLoop (w u : Bool) : Nat → Nat → Nat → Pgdir → VmM (Bool × Pgdir)
  | 0, n, f, d => mapPage d n ⟨f, w, u⟩
  | k + 1, n, f, d => do
    let (ok, d) ← mapPage d n ⟨f, w, u⟩
    if ok then mapLoop w u k ((n + 1) % 2 ^ 20) ((f + 1) % 2 ^ 20) d else pure (false, d)

def mappages (d : Pgdir) (va size pa : Nat) (w u : Bool) : VmM (Bool × Pgdir) :=
  let a : Nat := va / PGSIZE
  let last : Nat := (va + size - 1) % 2 ^ 32 / PGSIZE
  mapLoop w u ((last - a : Int) % 2 ^ 20).toNat a (pa / PGSIZE) d

/-- The loop of `deallocuvm`; `a` is the number of a page. -/
def deallocLoop (L : Layout) (oldsz a : Nat) (d : Pgdir) : VmM Pgdir :=
  if a * PGSIZE < oldsz then
    match d.table (a / NPTENTRIES) with
    | none => deallocLoop L oldsz ((a / NPTENTRIES + 1) * NPTENTRIES) d
    | some t =>
      match t.entry (a % NPTENTRIES) with
      | none => deallocLoop L oldsz (a + 1) d
      | some p =>
        if p.frame = 0 then Act.panic "kfree"
        else do
          kfree L p.frame
          deallocLoop L oldsz (a + 1) (d.setPte a none)
  else pure d
termination_by oldsz - a * PGSIZE
decreasing_by all_goals (simp only [PGSIZE, NPTENTRIES] at *; omega)

def deallocuvm (L : Layout) (d : Pgdir) (oldsz newsz : Nat) : VmM (Nat × Pgdir) :=
  if newsz ≥ oldsz then pure (oldsz, d)
  else do
    let d ← deallocLoop L oldsz (pageUp newsz) d
    pure (newsz, d)

/-- The loop of `allocuvm`, with the rounds it makes. -/
def allocLoop (L : Layout) (oldsz newsz : Nat) : Nat → Nat → Pgdir → VmM (Nat × Pgdir)
  | 0, _, d => pure (newsz, d)
  | k + 1, a, d => do
    match ← kalloc with
    | none => do
      let (_, d) ← deallocuvm L d newsz oldsz
      pure (0, d)
    | some f => do
      fillPage f fun _ => 0
      let (ok, d) ← mappages d (a * PGSIZE) PGSIZE (f * PGSIZE) true true
      if ok then allocLoop L oldsz newsz k (a + 1) d
      else do
        let (_, d) ← deallocuvm L d newsz oldsz
        kfree L f
        pure (0, d)

def allocuvm (L : Layout) (d : Pgdir) (oldsz newsz : Nat) : VmM (Nat × Pgdir) :=
  if newsz ≥ KERNBASE then pure (0, d)
  else if newsz < oldsz then pure (oldsz, d)
  else allocLoop L oldsz newsz (pageUp newsz - pageUp oldsz) (pageUp oldsz) d

/-- The loop of `freevm` over the page tables. -/
def freeTables (L : Layout) (d : Pgdir) : List Nat → VmM Unit
  | [] => pure ()
  | i :: rest => do
    match d.table i with
    | none => freeTables L d rest
    | some t => do
      kfree L t.frame
      freeTables L d rest

def freevm (L : Layout) (d : Pgdir) : VmM Unit := do
  let r ← deallocuvm L d KERNBASE 0
  freeTables L r.2 (List.range NPTENTRIES)
  kfree L r.2.frame

structure Kmap where
  virt : Nat
  physStart : Nat
  physEnd : Nat
  writable : Bool

/-- `k->phys_end - k->phys_start` -/
def Kmap.size (k : Kmap) : Nat := (((k.physEnd : Int) - k.physStart) % 2 ^ 32).toNat

def kmap (L : Layout) : List Kmap :=
  [⟨KERNBASE, 0, EXTMEM, true⟩,
    ⟨KERNLINK, EXTMEM, L.data * PGSIZE, false⟩,
    ⟨KERNBASE + L.data * PGSIZE, L.data * PGSIZE, PHYSTOP, true⟩,
    ⟨DEVSPACE, DEVSPACE, 0, true⟩]

/-- The loop of `setupkvm`. -/
def setupLoop (L : Layout) : List Kmap → Pgdir → VmM (Option Pgdir)
  | [], d => pure (some d)
  | k :: rest, d => do
    let (ok, d) ← mappages d k.virt k.size k.physStart k.writable false
    if ok then setupLoop L rest d
    else do
      freevm L d
      pure none

def setupkvm (L : Layout) : VmM (Option Pgdir) := do
  match ← kalloc with
  | none => pure none
  | some f => setupLoop L (kmap L) (.new f)

/-- `clearpteu`, for the page with number `n` -/
def clearpteu (d : Pgdir) (n : Nat) : VmM Pgdir := do
  match ← walkpgdir d n false with
  | none => Act.panic "clearpteu"
  | some d => pure (d.setPte n ((d.pte n).map fun x => { x with user := false }))

/-- The loop of `copyuvm`, with the rounds it makes. -/
def copyLoop (L : Layout) (src : Pgdir) : Nat → Nat → Pgdir → VmM (Option Pgdir)
  | 0, _, d => pure (some d)
  | k + 1, i, d => do
    match ← walkpgdir src i false with
    | none => Act.panic "copyuvm: pte should exist"
    | some _ =>
      match src.pte i with
      | none => Act.panic "copyuvm: page not present"
      | some x => do
        match ← kalloc with
        | none => do
          freevm L d
          pure none
        | some f => do
          let m ← Act.get
          fillPage f (m.bytes x.frame)
          let (ok, d) ← mappages d (i * PGSIZE) PGSIZE (f * PGSIZE) x.writable x.user
          if ok then copyLoop L src k (i + 1) d
          else do
            kfree L f
            freevm L d
            pure none

def copyuvm (L : Layout) (src : Pgdir) (sz : Nat) : VmM (Option Pgdir) := do
  match ← setupkvm L with
  | none => pure none
  | some d => copyLoop L src ((sz + (PGSIZE - 1)) / PGSIZE) 0 d

/-- `*pte` for the entry of a page, where the pointer may be null. -/
def readPte (d : Pgdir) (n : Nat) : VmM (Option Pte) := do
  match ← walkpgdir d n false with
  | some d => pure (d.pte n)
  | none => do
    let m ← Act.get
    Act.modify fun m => { m with nulls := n :: m.nulls }
    pure (m.null m.nulls.length)

/-- `uva2ka`, for the page with number `n` -/
def uva2ka (d : Pgdir) (n : Nat) : VmM (Option Nat) := do
  match ← readPte d n with
  | none => pure none
  | some x => if x.user then pure (some x.frame) else pure none

/-- `memmove` of `n` bytes from `buf` into a page. -/
def copyInto (p : Nat → UInt8) (off : Nat) (buf : Nat → UInt8) (n : Nat) : Nat → UInt8 :=
  fun i => if off ≤ i ∧ i < off + n then buf (i - off) else p i

/-- `copyout`; the result says whether it returns 0. -/
def copyout (d : Pgdir) (va : Nat) (buf : Nat → UInt8) (len : Nat) : VmM Bool :=
  if hlen : 0 < len then do
    match ← uva2ka d (va / PGSIZE) with
    | none => pure false
    | some f => do
      let off := va % PGSIZE
      let n := min (PGSIZE - off) len
      let m ← Act.get
      fillPage f (copyInto (m.bytes f) off buf n)
      copyout d ((va / PGSIZE + 1) * PGSIZE % 2 ^ 32) (fun i => buf (i + n)) (len - n)
  else pure true
termination_by len
decreasing_by
  have := Nat.mod_lt va (show 0 < PGSIZE by decide)
  omega

/-- A process, as far as `growproc` uses it. -/
structure Space where
  pgdir : Pgdir
  sz : Nat

/-- `growproc(n)`; the result says whether it returns 0. -/
def growproc (L : Layout) (p : Space) (n : Int) : VmM (Bool × Space) :=
  let arg := ((p.sz + n) % 2 ^ 32).toNat
  if n > 0 then do
    let (sz, d) ← allocuvm L p.pgdir p.sz arg
    pure (if sz = 0 then (false, { p with pgdir := d }) else (true, ⟨d, sz⟩))
  else if n < 0 then do
    let (sz, d) ← deallocuvm L p.pgdir p.sz arg
    pure (if sz = 0 then (false, { p with pgdir := d }) else (true, ⟨d, sz⟩))
  else pure (true, p)

def sbrk (L : Layout) (p : Space) (n : Int) : VmM (Int × Space) := do
  let addr := p.sz
  let (ok, p) ← growproc L p n
  pure (if ok then ((addr : Int), p) else (-1, p))

end Xv6.Vm
