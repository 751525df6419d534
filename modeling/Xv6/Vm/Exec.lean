import Xv6.Vm.Code

/-!
# `exec`

The part of `exec.c` that builds an address space from a file and pushes the arguments,
with `readi` on a file and `loaduvm`.  The lookup of the path, the locks of the inode and
the name kept for debugging are left out.
-/

namespace Xv6.Vm

open Lib

abbrev MAXARG : Nat := 32
abbrev ELF_MAGIC : Nat := 0x464C457F
abbrev ELF_PROG_LOAD : Nat := 1
/-- `sizeof(struct elfhdr)` -/
abbrev ELFHDR : Nat := 52
/-- `sizeof(struct proghdr)` -/
abbrev PROGHDR : Nat := 32

structure Inode where
  size : Nat
  data : Nat → UInt8

namespace Inode

/-- How many bytes `readi` copies, if it does not return -1. -/
def readi (ip : Inode) (off n : Nat) : Option Nat :=
  let last := (off + n) % 2 ^ 32
  if ip.size < off ∨ last < off then none
  else some (if ip.size < last then ip.size - off else n)

def magic (ip : Inode) : Nat := word ip.data 0
def entry (ip : Inode) : Nat := word ip.data 24
def phoff (ip : Inode) : Nat := word ip.data 28
def phnum (ip : Inode) : Nat := (ip.data 44).toNat + 256 * (ip.data 45).toNat

end Inode

structure Proghdr where
  type : Nat
  off : Nat
  vaddr : Nat
  filesz : Nat
  memsz : Nat

def Inode.proghdr (ip : Inode) (off : Nat) : Proghdr where
  type := word ip.data off
  off := word ip.data (off + 4)
  vaddr := word ip.data (off + 8)
  filesz := word ip.data (off + 16)
  memsz := word ip.data (off + 20)

/-- `ph.vaddr + ph.memsz` -/
def Proghdr.top (ph : Proghdr) : Nat := (ph.vaddr + ph.memsz) % 2 ^ 32

/-- `readi` copies into a page of physical memory, which the directory maps. -/
def loadPage (d : Pgdir) (f : Nat) (p : Nat → UInt8) : VmM Unit :=
  Act.modify fun m => { m.setPage f p with loaded := (d, f) :: m.loaded }

/-- The loop of `loaduvm`, with the rounds it makes. -/
def loadLoop (d : Pgdir) (va : Nat) (ip : Inode) (offset sz : Nat) : Nat → Nat → VmM Bool
  | 0, _ => pure true
  | k + 1, i => do
    let page := (va / PGSIZE + i) % 2 ^ 20
    match ← walkpgdir d page false with
    | none => Act.panic "loaduvm: address should exist"
    | some d =>
      -- `PTE_ADDR` of an entry that is not present is 0
      let f := ((d.pte page).map Pte.frame).getD 0
      let n := min PGSIZE (sz - i * PGSIZE)
      let off := (offset + i * PGSIZE) % 2 ^ 32
      match ip.readi off n with
      | none => pure false
      | some c => do
        let m ← Act.get
        loadPage d f (copyInto (m.bytes f) 0 (fun j => ip.data (off + j)) c)
        if c = n then loadLoop d va ip offset sz k (i + 1) else pure false

/-- `loaduvm`; the result says whether it returns 0. -/
def loaduvm (d : Pgdir) (va : Nat) (ip : Inode) (offset sz : Nat) : VmM Bool :=
  if va % PGSIZE ≠ 0 then Act.panic "loaduvm: addr must be page aligned"
  else loadLoop d va ip offset sz (pageUp sz) 0

/-- The loop of `exec` over the program headers, with the rounds it makes; no size where it
goes to `bad`. -/
def loadSegments (L : Layout) (ip : Inode) : Nat → Nat → Nat → Pgdir → VmM (Option Nat × Pgdir)
  | 0, _, sz, d => pure (some sz, d)
  | k + 1, off, sz, d =>
    if ip.readi off PROGHDR ≠ some PROGHDR then pure (none, d)
    else
      let ph := ip.proghdr off
      let next := (off + PROGHDR) % 2 ^ 32
      if ph.type ≠ ELF_PROG_LOAD then loadSegments L ip k next sz d
      else if ph.memsz < ph.filesz then pure (none, d)
      else if ph.top < ph.vaddr then pure (none, d)
      else do
        let r ← allocuvm L d sz ph.top
        if r.1 = 0 then pure (none, r.2)
        else if ph.vaddr % PGSIZE ≠ 0 then pure (none, r.2)
        else do
          let ok ← loaduvm r.2 ph.vaddr ip ph.off ph.filesz
          if ok then loadSegments L ip k next r.1 r.2 else pure (none, r.2)

def roundUp (sz : Nat) : Nat := pageUp sz * PGSIZE

/-- `exec` up to the stack: the two pages above the image, the lower one without access. -/
def execStack (L : Layout) (sz : Nat) (d : Pgdir) : VmM (Option (Nat × Pgdir)) := do
  let sz := roundUp sz
  let r ← allocuvm L d sz ((sz + 2 * PGSIZE) % 2 ^ 32)
  if r.1 = 0 then do
    freevm L r.2
    pure none
  else do
    let d ← clearpteu r.2 ((r.1 - 2 * PGSIZE) / PGSIZE)
    pure (some (r.1, d))

def execImage (L : Layout) (ip : Inode) : VmM (Option (Nat × Pgdir)) :=
  if ip.readi 0 ELFHDR ≠ some ELFHDR then pure none
  else if ip.magic ≠ ELF_MAGIC then pure none
  else do
    match ← setupkvm L with
    | none => pure none
    | some d => do
      let r ← loadSegments L ip ip.phnum ip.phoff 0 d
      match r.1 with
      | none => do
        freevm L r.2
        pure none
      | some sz => execStack L sz r.2

def cstring (s : List UInt8) (i : Nat) : UInt8 := s.getD i 0

/-- `(sp - (strlen(s) + 1)) & ~3` -/
def pushed (sp len : Nat) : Nat := (((sp : Int) - (len + 1)) % 2 ^ 32).toNat / 4 * 4

/-- The loop of `exec` that pushes the strings; the addresses of those pushed so far are
`ustack`. -/
def pushArgs (d : Pgdir) : List (List UInt8) → Nat → List Nat → VmM (Option (Nat × List Nat))
  | [], sp, ustack => pure (some (sp, ustack))
  | s :: rest, sp, ustack =>
    if ustack.length ≥ MAXARG then pure none
    else do
      let sp := pushed sp s.length
      let ok ← copyout d sp (cstring s) (s.length + 1)
      if ok then pushArgs d rest sp (ustack ++ [sp]) else pure none

def wordBytes (ws : List Nat) (i : Nat) : UInt8 := UInt8.ofNat (ws.getD (i / 4) 0 / 256 ^ (i % 4))

/-- `sp - n`, as a `uint` -/
def below (sp n : Nat) : Nat := (((sp : Int) - n) % 2 ^ 32).toNat

/-- `exec` from the strings to the stack pointer it starts the process with. -/
def execArgs (d : Pgdir) (sz : Nat) (argv : List (List UInt8)) : VmM (Option Nat) := do
  match ← pushArgs d argv sz [] with
  | none => pure none
  | some (sp, addrs) => do
    let argc := addrs.length
    let ustack := [0xffffffff, argc, below sp ((argc + 1) * 4)] ++ addrs ++ [0]
    let sp := below sp ((3 + argc + 1) * 4)
    let ok ← copyout d sp (wordBytes ustack) ((3 + argc + 1) * 4)
    pure (if ok then some sp else none)

structure Image where
  space : Space
  eip : Nat
  esp : Nat

def exec (L : Layout) (ip : Inode) (argv : List (List UInt8)) (old : Pgdir) :
    VmM (Option Image) := do
  match ← execImage L ip with
  | none => pure none
  | some (sz, d) => do
    match ← execArgs d sz argv with
    | none => do
      freevm L d
      pure none
    | some sp => do
      freevm L old
      pure (some ⟨⟨d, sz⟩, ip.entry, sp⟩)

end Xv6.Vm
