import Xv6.Fs.Blocks
import Xv6.Names.Path

/-!
# mkfs

`mkfs.c`: it writes an image of `FSSIZE` sectors with a root directory and the files named
on its command line.  The variables are the image file and the two counters `freeinode`
and `freeblock`; `Except String` carries `assert`, `perror` and `exit(1)`.  Numbers are
stored least significant byte first, as `xint` and `xshort` do.
-/

namespace Xv6.Mkfs

open Fs Names Lib.Slice Function

abbrev nbitmap : Nat := FSSIZE / (BSIZE * 8) + 1
abbrev ninodeblocks : Nat := NINODES / IPB + 1
abbrev nlog : Nat := LOGSIZE

abbrev nmeta : Nat := 2 + nlog + ninodeblocks + nbitmap

abbrev nblocks : Nat := FSSIZE - nmeta

abbrev logstart : Nat := 2
abbrev inodestart : Nat := 2 + nlog
abbrev bmapstart : Nat := 2 + nlog + ninodeblocks

/-- `IBLOCK(i, sb)` -/
def iblock (i : Nat) : Nat := i / IPB + inodestart

structure Builder where
  disk : Disk
  freeinode : Nat
  freeblock : Nat

namespace Builder

/-- The sector at the file position `sec * BSIZE`, a product of `uint`s. -/
def seek (sec : Nat) : Nat := sec * BSIZE % 2 ^ 32 / BSIZE

/-- `rsect`: a `read` past the end of the image file is short. -/
def rsect (m : Builder) (sec : Nat) : Except String Block :=
  if seek sec < FSSIZE then .ok (m.disk (seek sec)) else .error "read"

def wsect (m : Builder) (sec : Nat) (buf : Block) : Builder :=
  { m with disk := update m.disk (seek sec) buf }

def rinode (m : Builder) (inum : Nat) : Except String Dinode := do
  let buf ← m.rsect (iblock inum)
  return getDinode buf (inum % IPB)

def winode (m : Builder) (inum : Nat) (ip : Dinode) : Except String Builder := do
  let buf ← m.rsect (iblock inum)
  return m.wsect (iblock inum) (putDinode buf (inum % IPB) ip)

def ialloc (m : Builder) (type : BitVec 16) : Except String (Nat × Builder) := do
  let inum := m.freeinode
  let m := { m with freeinode := m.freeinode + 1 }
  let m ← m.winode inum { Dinode.zero with type := type, nlink := 1 }
  return (inum, m)

/-- `if(xint(din.addrs[i]) == 0) din.addrs[i] = xint(freeblock++)`, and the address. -/
def addrAt (m : Builder) (din : Dinode) (i : Fin (NDIRECT + 1)) : Nat × Builder × Dinode :=
  if din.addrs i = 0 then
    (m.freeblock, { m with freeblock := m.freeblock + 1 },
      { din with addrs := update din.addrs i (BitVec.ofNat 32 m.freeblock) })
  else
    ((din.addrs i).toNat, m, din)

/-- The sector `x` of block `fbn` of the file, in a round of `iappend`. -/
def sectorOf (m : Builder) (din : Dinode) (fbn : Nat) : Except String (Nat × Builder × Dinode) :=
  if h : fbn < NDIRECT then
    .ok (m.addrAt din ⟨fbn, Nat.lt_succ_of_lt h⟩)
  else if fbn < MAXFILE then do
    let (addr, m, din) := m.addrAt din (Fin.last NDIRECT)
    let indirect ← m.rsect addr
    if indirect.word (fbn - NDIRECT) = 0 then
      let x := m.freeblock
      let m := { m with freeblock := m.freeblock + 1 }
      return (x, m.wsect addr (indirect.setWord (fbn - NDIRECT) (BitVec.ofNat 32 x)), din)
    else
      return ((indirect.word (fbn - NDIRECT)).toNat, m, din)
  else
    .error "fbn < MAXFILE"

/-- The loop of `iappend`.  Every round copies at least one byte. -/
def iappendLoop : Nat → Builder → Dinode → Nat → List Byte → Except String (Builder × Dinode × Nat)
  | 0, m, din, off, _ => .ok (m, din, off)
  | rounds + 1, m, din, off, p =>
    if p = [] then
      .ok (m, din, off)
    else do
      let fbn := off / BSIZE
      let (x, m, din) ← m.sectorOf din fbn
      let n1 := min p.length ((fbn + 1) * BSIZE - off)
      let buf ← m.rsect x
      let m := m.wsect x (putBytes buf (off - fbn * BSIZE) (p.take n1))
      iappendLoop rounds m din (off + n1) (p.drop n1)

def iappend (m : Builder) (inum : Nat) (xp : List Byte) : Except String Builder := do
  let din ← m.rinode inum
  let (m, din, off) ← iappendLoop xp.length m din din.size.toNat xp
  m.winode inum { din with size := BitVec.ofNat 32 off }

def bitmap (used : Nat) : Block := (List.range used).foldl (fun buf i => putBit buf i true) 0

def balloc (m : Builder) (used : Nat) : Except String Builder :=
  if used < BSIZE * 8 then .ok (m.wsect bmapstart (bitmap used)) else .error "used < BSIZE*8"

end Builder

/-- `struct dirent`, its name copied by `strncpy` into zeroed memory. -/
def dirent (inum : Nat) (name : Name) : List Byte :=
  [BitVec.ofNat 8 inum, BitVec.ofNat 8 (inum / 256)] ++ name.take DIRSIZ ++
    List.replicate (DIRSIZ - (name.take DIRSIZ).length) 0

/-- A file named on the command line, and what each `read` of it returned. -/
structure HostFile where
  name : Name
  chunks : List (List Byte)
  string : 0 ∉ name
  chunk_pos : ∀ c ∈ chunks, c ≠ []
  chunk_le : ∀ c ∈ chunks, c.length ≤ BSIZE

def HostFile.bytes (f : HostFile) : List Byte := f.chunks.flatten

abbrev underscore : Byte := 95

/-- Skip leading `_` in name when writing to file system. -/
def stripped (name : Name) : Name := if name.head? = some underscore then name.tail else name

/-- `memmove(buf, &sb, sizeof(sb))` -/
def superblock : Block :=
  putList 0 0 (([FSSIZE, nblocks, NINODES, nlog, logstart, inodestart, bmapstart] : List Nat).map
    (BitVec.ofNat 32))

def start : Builder where
  disk := update (fun _ => 0) 1 superblock
  freeinode := 1
  freeblock := nmeta

namespace Builder

def addFile (m : Builder) (f : HostFile) : Except String Builder :=
  if slash ∈ f.name then
    .error "index(argv[i], '/') == 0"
  else do
    let (inum, m) ← m.ialloc T_FILE
    let m ← m.iappend ROOTINO (dirent inum (stripped f.name))
    f.chunks.foldlM (fun m chunk => m.iappend inum chunk) m

/-- The root directory with `.` and `..`. -/
def makeRoot : Except String Builder := do
  let (rootino, m) ← start.ialloc T_DIR
  let m ← m.iappend rootino (dirent rootino dot)
  m.iappend rootino (dirent rootino dotdot)

def fixRoot (m : Builder) : Except String Builder := do
  let din ← m.rinode ROOTINO
  let off := (din.size.toNat / BSIZE + 1) * BSIZE
  m.winode ROOTINO { din with size := BitVec.ofNat 32 off }

end Builder

def mkfs (files : List HostFile) : Except String Disk := do
  let m ← Builder.makeRoot
  let m ← files.foldlM Builder.addFile m
  let m ← m.fixRoot
  let m ← m.balloc m.freeblock
  return m.disk

end Xv6.Mkfs
