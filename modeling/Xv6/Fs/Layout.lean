import Mathlib.Data.Fin.VecNotation
import Xv6.Block

/-!
# The on-disk file system format

The superblock, the inode and the free bit map of `fs.h`.  A `dinode` fills 64
bytes of its block and the bit for block `b` is bit `b % BPB` of its bit map
block; both are read from and stored into the 4096 bits of a block.
-/

namespace Xv6.Fs

open Lib.Slice

abbrev NDIRECT : Nat := 12

abbrev NINDIRECT : Nat := BSIZE / 4

abbrev MAXFILE : Nat := NDIRECT + NINDIRECT

abbrev IPB : Nat := BSIZE / 64

abbrev BPB : Nat := BSIZE * 8

abbrev ROOTINO : Nat := 1

abbrev T_DIR : BitVec 16 := 1
abbrev T_FILE : BitVec 16 := 2
abbrev T_DEV : BitVec 16 := 3

abbrev Byte : Type := BitVec 8

/-- The fields of `struct superblock` that `fs.c` uses, and the layout `mkfs`
gives them: the inode blocks come before the free bit map, which ends the
`nmeta` metadata blocks. -/
structure Superblock where
  size : Nat
  ninodes : Nat
  inodestart : Nat
  bmapstart : Nat
  nmeta : Nat
  size_lt : size < 2 ^ 31
  nmeta_le : nmeta ≤ size
  inode_lt : ∀ inum, inum < ninodes → inodestart + inum / IPB < bmapstart
  bmap_lt : ∀ b, b < size → bmapstart + b / BPB < nmeta

namespace Superblock

def iblock (sb : Superblock) (inum : Nat) : Nat := inum / IPB + sb.inodestart

/-- Block of free map containing bit for block `b`. -/
def bblock (sb : Superblock) (b : Nat) : Nat := b / BPB + sb.bmapstart

end Superblock

/-- `struct dinode`, and the part of `struct inode` that is a copy of it. -/
structure Dinode where
  type : BitVec 16
  major : BitVec 16
  minor : BitVec 16
  nlink : BitVec 16
  size : BitVec 32
  addrs : Fin (NDIRECT + 1) → BitVec 32
  deriving DecidableEq

/-- `memset(dip, 0, sizeof(*dip))`. -/
def Dinode.zero : Dinode := ⟨0, 0, 0, 0, 0, fun _ => 0⟩

namespace Dinode

def pack (d : Dinode) : BitVec 512 :=
  putList (putSlice (putList 0 0 [d.type, d.major, d.minor, d.nlink]) 64 32 d.size) 96
    (List.ofFn d.addrs)

def unpack (x : BitVec 512) : Dinode where
  type := x.extractLsb' 0 16
  major := x.extractLsb' 16 16
  minor := x.extractLsb' 32 16
  nlink := x.extractLsb' 48 16
  size := x.extractLsb' 64 32
  addrs := fun i => x.extractLsb' (96 + 32 * i) 32

theorem unpack_pack (d : Dinode) : unpack d.pack = d := by
  have hshort : ∀ j (hj : j < 4), d.pack.extractLsb' (16 * j) 16 =
      [d.type, d.major, d.minor, d.nlink].get ⟨j, hj⟩ := by
    intro j hj
    unfold pack
    rw [extractLsb'_putList_disjoint _ _ _ _ _ (by omega),
      extractLsb'_putSlice_disjoint _ _ _ _ _ _ (by omega)]
    have h := extractLsb'_putList (0 : BitVec 512) 0 [d.type, d.major, d.minor, d.nlink] j
      (by simpa using hj) (by simp)
    simpa using h
  have hsize : d.pack.extractLsb' 64 32 = d.size := by
    unfold pack
    rw [extractLsb'_putList_disjoint _ _ _ _ _ (by omega),
      extractLsb'_putSlice_same _ _ _ _ (by omega)]
  have haddrs : ∀ i : Fin (NDIRECT + 1), d.pack.extractLsb' (96 + 32 * i) 32 = d.addrs i := by
    intro i
    have hi := i.isLt
    unfold pack
    rw [extractLsb'_putList _ _ _ _ (by simp) (by simp), List.getElem_ofFn]
  obtain ⟨type, major, minor, nlink, size, addrs⟩ := d
  unfold unpack
  congr 1
  · exact hshort 0 (by omega)
  · exact hshort 1 (by omega)
  · exact hshort 2 (by omega)
  · exact hshort 3 (by omega)
  · funext i
    exact haddrs i

end Dinode

/-- The `k`-th `dinode` of an inode block. -/
def getDinode (b : Block) (k : Nat) : Dinode := Dinode.unpack (b.extractLsb' (512 * k) 512)

def putDinode (b : Block) (k : Nat) (d : Dinode) : Block := putSlice b (512 * k) 512 d.pack

@[simp] theorem getDinode_putDinode_same (b : Block) {k : Nat} (d : Dinode) (hk : k < IPB) :
    getDinode (putDinode b k d) k = d := by
  have hk' : k < 8 := hk
  unfold getDinode putDinode
  rw [extractLsb'_putSlice_same _ _ _ _ (by simp only [BSIZE]; omega), Dinode.unpack_pack]

theorem getDinode_putDinode_ne (b : Block) {j k : Nat} (d : Dinode) (hjk : j ≠ k) :
    getDinode (putDinode b k d) j = getDinode b j := by
  unfold getDinode putDinode
  rw [extractLsb'_putSlice_disjoint _ _ _ _ _ _ (by omega)]

/-- `bp->data[i]`. -/
def getByte (b : Block) (i : Nat) : Byte := b.extractLsb' (8 * i) 8

/-- `memmove(bp->data + off, src, n)`. -/
def putBytes (b : Block) (off : Nat) (src : List Byte) : Block := putList b (8 * off) src

/-- `memmove(dst, bp->data + off, n)`. -/
def getBytes (b : Block) (off n : Nat) : List Byte :=
  (List.range n).map fun i => getByte b (off + i)

theorem getByte_putBytes (b : Block) {off : Nat} {src : List Byte} (i : Nat)
    (hfit : off + src.length ≤ BSIZE) :
    getByte (putBytes b off src) i =
      if h : off ≤ i ∧ i - off < src.length then src.get ⟨i - off, h.2⟩ else getByte b i := by
  unfold getByte putBytes
  by_cases h : off ≤ i ∧ i - off < src.length
  · have hbit : 8 * i = 8 * off + 8 * (i - off) := by omega
    rw [dif_pos h, hbit, extractLsb'_putList _ _ _ _ h.2 (by omega)]
    rfl
  · rw [dif_neg h, extractLsb'_putList_disjoint _ _ _ _ _ (by omega)]

/-- A bit of a bit map block, `data[bi/8] & (1 << (bi % 8))`. -/
def getBit (b : Block) (bi : Nat) : Bool := b.getLsbD bi

def putBit (b : Block) (bi : Nat) (v : Bool) : Block := putSlice b bi 1 (BitVec.ofBool v)

theorem getBit_putBit (b : Block) {bi : Nat} (v : Bool) (j : Nat) (hbi : bi < BPB) :
    getBit (putBit b bi v) j = if j = bi then v else getBit b j := by
  unfold getBit putBit
  rw [getLsbD_putSlice]
  by_cases hj : j = bi
  · subst hj
    rw [if_pos ⟨Nat.le_refl j, Nat.lt_succ_self j, by simpa [BPB, Nat.mul_comm] using hbi⟩,
      if_pos rfl]
    simp
  · rw [if_neg (by omega), if_neg hj]

end Xv6.Fs
