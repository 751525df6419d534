import Xv6.Names.Calls

/-!
# The state behind the system calls

The inodes and directory entries on the disk, the inode cache in front of them,
the file table, and the current directory and descriptors of every process.  The
cache is kept by inode number: an entry with `ref` 0 is a free slot, and `cached`
counts the others.
-/

namespace Xv6.Names

open Lib Fs Function

abbrev MAXENTS : Nat := MAXFILE * BSIZE / 16

/-- The cached part of an inode; `copy` is the in-memory copy of its fields. -/
structure Slot (P : Type) where
  ref : Nat
  valid : Bool
  lock : Option P
  copy : Inode

/-- `struct file`; `ip` is `none` for `FD_NONE`. -/
structure File where
  ref : Nat
  ip : Option Nat
  off : Nat
  readable : Bool
  writable : Bool

structure State (P : Type) where
  disk : Nat → Inode
  ents : Nat → List Dirent
  slots : Nat → Slot P
  cached : Nat
  files : Nat → File
  cwd : P → Nat
  ofile : P → Nat → Option Nat

def Inode.zero : Inode := ⟨.none, 0, 0, 0⟩

def toShort (x : Int) : Int := x.bmod (2 ^ 16)

/-- `nlink++` or `nlink--`. -/
def Inode.addNlink (n : Inode) (up : Bool) : Inode :=
  { n with nlink := toShort (if up then n.nlink + 1 else n.nlink - 1) }

/-- Write entry `off` of a directory, or append it. -/
def setEnt (es : List Dirent) (off : Nat) (de : Dirent) : List Dirent :=
  if off < es.length then es.set off de else es ++ [de]

namespace State

variable {P : Type} [DecidableEq P]

def setSlot (s : State P) (i : Nat) (x : Slot P) : State P :=
  { s with slots := update s.slots i x }

def iupdate (s : State P) (i : Nat) (n : Inode) : State P :=
  { s with
    slots := update s.slots i { s.slots i with copy := n }
    disk := update s.disk i n }

def iget (s : State P) (i : Nat) : Outcome (State P) Unit :=
  let x := s.slots i
  if 0 < x.ref then
    .ok () (s.setSlot i { x with ref := x.ref + 1 })
  else if s.cached < NINODE then
    .ok () { s.setSlot i { x with ref := 1, valid := false } with cached := s.cached + 1 }
  else
    .panic "iget: no inodes"

def load (s : State P) (i : Nat) : Outcome (State P) Unit :=
  let x := s.slots i
  if x.valid then
    .ok () s
  else if (s.disk i).kind = .none then
    .panic "ilock: no type"
  else
    .ok () (s.setSlot i { x with valid := true, copy := s.disk i })

/-- `itrunc(ip)`, `ip->type = 0`, `iupdate(ip)`, `ip->valid = 0`. -/
def free (s : State P) (i : Nat) : State P :=
  let n := { (s.slots i).copy with kind := .none }
  { s with
    slots := update s.slots i { s.slots i with copy := n, valid := false }
    disk := update s.disk i n
    ents := update s.ents i [] }

def reap (s : State P) (i : Nat) : State P :=
  let x := s.slots i
  if x.valid ∧ x.copy.nlink = 0 ∧ x.ref = 1 then s.free i else s

def unref (s : State P) (i : Nat) : State P :=
  let x := s.slots i
  { s.setSlot i { x with ref := x.ref - 1 } with
    cached := if x.ref = 1 then s.cached - 1 else s.cached }

def addNlink (s : State P) (i : Nat) (up : Bool) : State P :=
  s.iupdate i ((s.slots i).copy.addNlink up)

def ialloc (s : State P) (type : Kind) : Outcome (State P) Nat :=
  match (List.range' 1 (NINODES - 1)).find? fun i => (s.disk i).kind == .none with
  | none => .panic "ialloc: no inodes"
  | some i =>
    let s := { s with
      disk := update s.disk i { Inode.zero with kind := type }
      ents := update s.ents i [] }
    match s.iget i with
    | .ok _ s => .ok i s
    | .blocked => .blocked
    | .panic msg => .panic msg

def filealloc (s : State P) : Option Nat :=
  (List.range NFILE).find? fun f => (s.files f).ref == 0

def fdalloc (s : State P) (p : P) : Option Nat :=
  (List.range NOFILE).find? fun fd => (s.ofile p fd).isNone

def fdopen (s : State P) (p : P) (ip : Nat) (omode : BitVec 32) : Option Nat × State P :=
  match s.filealloc, s.fdalloc p with
  | some f, some fd =>
    let file : File :=
      ⟨1, some ip, 0, !(omode &&& 1 != 0), omode &&& 1 != 0 || omode &&& 2 != 0⟩
    (some fd, { s with
      files := update s.files f file
      ofile := update s.ofile p (update (s.ofile p) fd (some f)) })
  | _, _ => (none, s)

end State

variable {P : Type} [DecidableEq P]

/-- What the operations do when process `p` executes them. -/
def handler (p : P) : Handler FsSig (State P)
  | .iget i, s => s.iget i
  | .idupCwd, s =>
    let x := s.slots (s.cwd p)
    .ok (s.cwd p) (s.setSlot (s.cwd p) { x with ref := x.ref + 1 })
  | .checkRef i, s => if (s.slots i).ref < 1 then .panic "ilock" else .ok () s
  | .acquiresleep _ i, s =>
    match (s.slots i).lock with
    | none => .ok () (s.setSlot i { s.slots i with lock := some p })
    | some _ => .blocked
  | .load i, s => s.load i
  | .checkHeld i, s =>
    if (s.slots i).lock = some p ∧ 1 ≤ (s.slots i).ref then .ok () s else .panic "iunlock"
  | .releasesleep i, s => .ok () (s.setSlot i { s.slots i with lock := none })
  | .reap i, s => .ok () (s.reap i)
  | .unref i, s => .ok () (s.unref i)
  | .inode i, s => .ok (s.slots i).copy s
  | .size i, s => .ok (s.ents i).length s
  -- a block that `bmap` allocates for the entry is no part of this state
  | .readEnt i off, s =>
    match (s.ents i)[off]? with
    | some de => .ok de s
    | none => .panic "readi"
  | .writeEnt i off de, s =>
    if off ≤ (s.ents i).length ∧ off < MAXENTS then
      .ok true { s with ents := update s.ents i (setEnt (s.ents i) off de) }
    else
      .ok false s
  | .addNlink i up, s => .ok () (s.addNlink i up)
  | .ialloc _ type, s => s.ialloc type
  | .initInode i major minor, s =>
    .ok () (s.iupdate i { (s.slots i).copy with major := major, minor := minor, nlink := 1 })
  | .fdopen i omode, s => .ok (s.fdopen p i omode).1 (s.fdopen p i omode).2
  | .panic msg, _ => .panic msg

/-- The root directory `mkfs` writes: its size is rounded up to the next block. -/
def rootEnts (files : List Name) : List Dirent :=
  let es := ⟨ROOTINO, dot⟩ :: ⟨ROOTINO, dotdot⟩ :: files.mapIdx fun k name => ⟨k + 2, name⟩
  es ++ List.replicate ((es.length / 32 + 1) * 32 - es.length) .zero

/-- A fresh file system with the given files in its root directory, and every process
in the root directory with no file open. -/
def mkfs [Fintype P] (files : List Name) : State P where
  disk := fun i =>
    if i = ROOTINO then ⟨.dir, 0, 0, 1⟩
    else if 2 ≤ i ∧ i < files.length + 2 then ⟨.file, 0, 0, 1⟩
    else Inode.zero
  ents := fun i => if i = ROOTINO then rootEnts files else []
  slots := fun i => ⟨if i = ROOTINO then Fintype.card P else 0, false, none, Inode.zero⟩
  cached := if Fintype.card P = 0 then 0 else 1
  files := fun _ => ⟨0, none, 0, false, false⟩
  cwd := fun _ => ROOTINO
  ofile := fun _ _ => none

end Xv6.Names
