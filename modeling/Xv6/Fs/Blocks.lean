import Xv6.Fs.Layout

/-!
# Blocks and inode contents

The functions of `fs.c` that allocate and free blocks and move data between an
inode and the disk.  A disk here is what the buffer cache shows: `bread` returns
the contents of a block and a `log_write` replaces them.  The in-memory inode is
passed in and returned; `Except String` carries the panics.
-/

namespace Xv6.Fs

open Function

theorem bind_eq_ok {ε α β : Type} {x : Except ε α} {f : α → Except ε β} {b : β} :
    (x >>= f) = .ok b ↔ ∃ a, x = .ok a ∧ f a = .ok b := by
  cases x with
  | error e | ok a => simp [bind, Except.bind]

/-- Whether the free map marks block `b` as in use. -/
def bitAt (sb : Superblock) (disk : Disk) (b : Nat) : Bool :=
  getBit (disk (sb.bblock b)) (b % BPB)

def bzero (disk : Disk) (b : Nat) : Disk := update disk b 0

/-- The search of `balloc` in the free map block for the `BPB` blocks from `b` on. -/
def scanBitmap (sb : Superblock) (disk : Disk) (b : Nat) : Option Nat :=
  (List.range BPB).find? fun bi => b + bi < sb.size && !getBit (disk (sb.bblock b)) bi

def findFree (sb : Superblock) (disk : Disk) : Option (Nat × Nat) :=
  (List.range ((sb.size + BPB - 1) / BPB)).findSome? fun k =>
    (scanBitmap sb disk (k * BPB)).map fun bi => (k * BPB, bi)

def balloc (sb : Superblock) (disk : Disk) : Except String (Nat × Disk) :=
  match findFree sb disk with
  | some (b, bi) =>
    let bp := putBit (disk (sb.bblock b)) bi true
    .ok (b + bi, bzero (update disk (sb.bblock b) bp) (b + bi))
  | none => .error "balloc: out of blocks"

/-- `(struct dinode*)bp->data + inum%IPB`, read. -/
def dinodeAt (sb : Superblock) (disk : Disk) (inum : Nat) : Dinode :=
  getDinode (disk (sb.iblock inum)) (inum % IPB)

def iupdate (sb : Superblock) (disk : Disk) (inum : Nat) (d : Dinode) : Disk :=
  update disk (sb.iblock inum) (putDinode (disk (sb.iblock inum)) (inum % IPB) d)

/-- `if((addr = ip->addrs[i]) == 0) ip->addrs[i] = addr = balloc(ip->dev)`. -/
def addrAt (sb : Superblock) (disk : Disk) (d : Dinode) (i : Fin (NDIRECT + 1)) :
    Except String (Nat × Disk × Dinode) :=
  if d.addrs i = 0 then do
    let (addr, disk) ← balloc sb disk
    return (addr, disk, { d with addrs := update d.addrs i (BitVec.ofNat 32 addr) })
  else
    return ((d.addrs i).toNat, disk, d)

/-- Return the disk block address of the `bn`-th block in an inode, allocating it
if there is none. -/
def bmap (sb : Superblock) (disk : Disk) (d : Dinode) (bn : Nat) :
    Except String (Nat × Disk × Dinode) :=
  if h : bn < NDIRECT then
    addrAt sb disk d ⟨bn, Nat.lt_succ_of_lt h⟩
  else if bn - NDIRECT < NINDIRECT then do
    let (addr, disk, d) ← addrAt sb disk d (Fin.last NDIRECT)
    let a := (disk addr).word (bn - NDIRECT)
    if a = 0 then
      let (b, disk) ← balloc sb disk
      let bp := (disk addr).setWord (bn - NDIRECT) (BitVec.ofNat 32 b)
      return (b, update disk addr bp, d)
    else
      return (a.toNat, disk, d)
  else
    .error "bmap: out of range"

abbrev NDEV : Nat := 10

/-- `devsw`: what a device driver makes of a read or a write, if there is one. -/
structure Devsw where
  read : Nat → Option (Nat → Option (List Byte))
  write : Nat → Option (List Byte → Int)

abbrev noDevs : Devsw := ⟨fun _ => none, fun _ => none⟩

namespace Devsw

/-- The driver's entry for a major number, after the checks of `readi` and `writei`. -/
def entry {α : Type} (table : Nat → Option α) (major : BitVec 16) : Option α :=
  if major.toInt < 0 ∨ major.toInt ≥ NDEV then none else table major.toNat

end Devsw

/-- The loop of `readi`: `n` bytes from byte `off` on.  Every round reads at
least one byte, so `n` rounds are enough. -/
def readLoop (sb : Superblock) :
    Nat → Disk → Dinode → Nat → Nat → Except String (List Byte × Disk × Dinode)
  | 0, disk, d, _, _ => .ok ([], disk, d)
  | rounds + 1, disk, d, off, n =>
    if n = 0 then
      .ok ([], disk, d)
    else do
      let (addr, disk, d) ← bmap sb disk d (off / BSIZE)
      let m := min n (BSIZE - off % BSIZE)
      let bytes := getBytes (disk addr) (off % BSIZE) m
      let (rest, disk, d) ← readLoop sb rounds disk d (off + m) (n - m)
      return (bytes ++ rest, disk, d)

/-- Read data from an inode; `none` is the result -1. -/
def readi (sb : Superblock) (devsw : Devsw) (disk : Disk) (d : Dinode) (off n : BitVec 32) :
    Except String (Option (List Byte) × Disk × Dinode) :=
  if d.type = T_DEV then
    match Devsw.entry devsw.read d.major with
    | none => .ok (none, disk, d)
    | some read => .ok (read n.toNat, disk, d)
  else if off > d.size ∨ off + n < off then
    .ok (none, disk, d)
  else do
    let n := if off + n > d.size then d.size - off else n
    let (bytes, disk, d) ← readLoop sb n.toNat disk d off.toNat n.toNat
    return (some bytes, disk, d)

/-- The loop of `writei`. -/
def writeLoop (sb : Superblock) :
    Nat → Disk → Dinode → Nat → List Byte → Except String (Disk × Dinode)
  | 0, disk, d, _, _ => .ok (disk, d)
  | rounds + 1, disk, d, off, src =>
    if src = [] then
      .ok (disk, d)
    else do
      let (addr, disk, d) ← bmap sb disk d (off / BSIZE)
      let m := min src.length (BSIZE - off % BSIZE)
      let bp := putBytes (disk addr) (off % BSIZE) (src.take m)
      writeLoop sb rounds (update disk addr bp) d (off + m) (src.drop m)

def writei (sb : Superblock) (devsw : Devsw) (disk : Disk) (inum : Nat) (d : Dinode)
    (off : BitVec 32) (src : List Byte) : Except String (Int × Disk × Dinode) :=
  let n := BitVec.ofNat 32 src.length
  if d.type = T_DEV then
    match Devsw.entry devsw.write d.major with
    | none => .ok (-1, disk, d)
    | some write => .ok (write src, disk, d)
  else if off > d.size ∨ off + n < off then
    .ok (-1, disk, d)
  else if off + n > BitVec.ofNat 32 (MAXFILE * BSIZE) then
    .ok (-1, disk, d)
  else do
    let (disk, d) ← writeLoop sb src.length disk d off.toNat src
    if n > 0 ∧ off + n > d.size then
      let d := { d with size := off + n }
      return (src.length, iupdate sb disk inum d, d)
    else
      return (src.length, disk, d)

end Xv6.Fs
