import Xv6.Lib.Prog
import Xv6.Names.Path

/-!
# Inodes, directories and `open`

The functions of `fs.c` that work on names, with `open` of `sysfile.c`, as programs over the
atomic operations on inodes.  An operation is what happens between two points where another
process can get in: a test or a change of an inode under its sleep lock together with the
`iupdate` that follows it, or a change of the inode cache under its spin lock.
`struct inode *ip` is the inode number.  `begin_op` and `end_op` do nothing at this level.
-/

namespace Xv6.Names

open Lib Fs

/-- The type of an inode; `none` is the 0 of a free one. -/
inductive Kind where
  | none
  | dir
  | file
  | dev
  deriving DecidableEq

structure Inode where
  kind : Kind
  major : BitVec 16
  minor : BitVec 16
  nlink : Int
  deriving DecidableEq

/-- `struct dirent`. -/
structure Dirent where
  inum : Nat
  name : Name
  deriving DecidableEq

def Dirent.zero : Dirent := ⟨0, []⟩

/-- Which call of `iput` takes a lock: `parent` is the `iunlockput(dp)` of `sys_unlink`
and `create` that is made with `ip` locked. -/
inductive Site where
  | plain
  | parent
  deriving DecidableEq

inductive Op where
  | iget (inum : Nat)
  | idupCwd
  | checkRef (ip : Nat)
  | acquiresleep (site : Site) (ip : Nat)
  | load (ip : Nat)
  | checkHeld (ip : Nat)
  | releasesleep (ip : Nat)
  | reap (ip : Nat)
  | unref (ip : Nat)
  | inode (ip : Nat)
  | size (dp : Nat)
  | readEnt (dp off : Nat)
  | writeEnt (dp off : Nat) (de : Dirent)
  | addNlink (ip : Nat) (up : Bool)
  | ialloc (dp : Nat) (type : Kind)
  /-- major and minor, `ip->nlink = 1`, and `iupdate(ip)` -/
  | initInode (ip : Nat) (major minor : BitVec 16)
  /-- `filealloc`, `fdalloc` and the fields of the new `struct file` -/
  | fdopen (ip : Nat) (omode : BitVec 32)
  | panic (msg : String)

abbrev FsSig : Sig where
  Op := Op
  Ret
    | .idupCwd => Nat
    | .inode _ => Inode
    | .size _ => Nat
    | .readEnt _ _ => Dirent
    | .writeEnt _ _ _ => Bool
    | .ialloc _ _ => Nat
    | .fdopen _ _ => Option Nat
    | .panic _ => Empty
    | _ => Unit

abbrev FsM (α : Type) : Type := Prog FsSig α

abbrev ask (o : Op) : FsM (FsSig.Ret o) := Prog.ask (S := FsSig) o

def panic {α : Type} (msg : String) : FsM α := ask (.panic msg) >>= fun e : Empty => nomatch e

def ilock (ip : Nat) : FsM Unit := do
  ask (.checkRef ip)
  ask (.acquiresleep .plain ip)
  ask (.load ip)

def iunlock (ip : Nat) : FsM Unit := do
  ask (.checkHeld ip)
  ask (.releasesleep ip)

def iput (site : Site) (ip : Nat) : FsM Unit := do
  ask (.acquiresleep site ip)
  ask (.reap ip)
  ask (.releasesleep ip)
  ask (.unref ip)

def iunlockput (site : Site) (ip : Nat) : FsM Unit := do
  iunlock ip
  iput site ip

/-- The loop of `dirlookup`, `n` entries from `off` on. -/
def lookupFrom (dp : Nat) (name : Name) : Nat → Nat → FsM (Option (Nat × Nat))
  | 0, _ => return none
  | n + 1, off => do
    let de ← ask (.readEnt dp off)
    if de.inum = 0 then
      lookupFrom dp name n (off + 1)
    else if name = de.name then
      ask (.iget de.inum)
      return some (de.inum, off)
    else
      lookupFrom dp name n (off + 1)

def dirlookup (dp : Nat) (name : Name) : FsM (Option (Nat × Nat)) := do
  let d ← ask (.inode dp)
  if d.kind ≠ .dir then
    panic "dirlookup not DIR"
  else
    let n ← ask (.size dp)
    lookupFrom dp name n 0

/-- The loop of `dirlink`: the first empty entry, or the end. -/
def emptyFrom (dp : Nat) : Nat → Nat → FsM Nat
  | 0, off => return off
  | n + 1, off => do
    let de ← ask (.readEnt dp off)
    if de.inum = 0 then return off else emptyFrom dp n (off + 1)

/-- Write a new directory entry into the directory `dp`; `false` is -1. -/
def dirlink (dp : Nat) (name : Name) (inum : Nat) : FsM Bool := do
  match ← dirlookup dp name with
  | some (ip, _) =>
    iput .plain ip
    return false
  | none =>
    let n ← ask (.size dp)
    let off ← emptyFrom dp n 0
    let ok ← ask (.writeEnt dp off ⟨inum, name⟩)
    if ok then return true else panic "dirlink"

/-- The loop of `namex`, with the name its last round leaves in the buffer. -/
def walk (parent : Bool) : Nat → List Name → FsM (Option (Nat × Name))
  | ip, [] =>
    if parent then do
      iput .plain ip
      return none
    else
      return some (ip, [])
  | ip, name :: rest => do
    ilock ip
    let d ← ask (.inode ip)
    if d.kind ≠ .dir then
      iunlockput .plain ip
      return none
    else if parent && rest.isEmpty then
      -- stop one level early
      iunlock ip
      return some (ip, name)
    else
      match ← dirlookup ip name with
      | none =>
        iunlockput .plain ip
        return none
      | some (next, _) =>
        iunlockput .plain ip
        walk parent next rest

def namex (path : List Byte) (parent : Bool) : FsM (Option (Nat × Name)) := do
  if path.head? = some slash then
    ask (.iget ROOTINO)
    walk parent ROOTINO (elems path)
  else
    let ip ← ask .idupCwd
    walk parent ip (elems path)

def namei (path : List Byte) : FsM (Option Nat) := do
  match ← namex path false with
  | none => return none
  | some (ip, _) => return some ip

def nameiparent (path : List Byte) : FsM (Option (Nat × Name)) := namex path true

def createDots (ip dp : Nat) : FsM Unit := do
  -- no ip->nlink++ for ".": avoid cyclic ref count
  ask (.addNlink dp true)
  if ← dirlink ip dot ip then
    if ← dirlink ip dotdot dp then
      return ()
    else
      panic "create dots"
  else
    panic "create dots"

/-- The part of `create` for a name that is not there. -/
def createNew (dp : Nat) (name : Name) (type : Kind) (major minor : BitVec 16) : FsM Nat := do
  let ip ← ask (.ialloc dp type)
  ilock ip
  ask (.initInode ip major minor)
  if type = .dir then createDots ip dp
  if ← dirlink dp name ip then
    iunlockput .parent dp
    return ip
  else
    panic "create: dirlink"

/-- Create a new inode, or open an existing file; the inode returned is locked. -/
def create (path : List Byte) (type : Kind) (major minor : BitVec 16) : FsM (Option Nat) := do
  match ← nameiparent path with
  | none => return none
  | some (dp, name) =>
    ilock dp
    match ← dirlookup dp name with
    | some (ip, _) =>
      iunlockput .plain dp
      ilock ip
      let d ← ask (.inode ip)
      if type = .file ∧ d.kind = .file then
        return some ip
      else
        iunlockput .plain ip
        return none
    | none =>
      let ip ← createNew dp name type major minor
      return some ip

abbrev O_CREATE : BitVec 32 := 0x200

/-- The end of `sys_open`, with `ip` locked. -/
def openInode (ip : Nat) (omode : BitVec 32) : FsM Int := do
  match ← ask (.fdopen ip omode) with
  | none =>
    iunlockput .plain ip
    return -1
  | some fd =>
    iunlock ip
    return fd

def sysOpen (path : List Byte) (omode : BitVec 32) : FsM Int := do
  if omode &&& O_CREATE ≠ 0 then
    match ← create path .file 0 0 with
    | none => return -1
    | some ip => openInode ip omode
  else
    match ← namei path with
    | none => return -1
    | some ip =>
      ilock ip
      let d ← ask (.inode ip)
      if d.kind = .dir ∧ omode ≠ 0 then
        iunlockput .plain ip
        return -1
      else
        openInode ip omode

end Xv6.Names
