import Xv6.Lib.Slice

/-!
# Constants and disk blocks

The constants of `param.h` and `fs.h` that several parts of the kernel share, and a
disk block as the machine sees it: `BSIZE` bytes, here one little-endian word of
`8 * BSIZE` bits.  The structures the kernel overlays on `buf->data` (arrays of
`uint`, `struct dinode`, the free bit map) are slices of that word.
-/

namespace Xv6

open Lib.Slice

abbrev NPROC : Nat := 64

abbrev NOFILE : Nat := 16

abbrev NFILE : Nat := 100

abbrev NINODE : Nat := 50

abbrev ROOTDEV : Nat := 1

abbrev FSSIZE : Nat := 1000

abbrev NINODES : Nat := 200

abbrev BSIZE : Nat := 512

abbrev MAXOPBLOCKS : Nat := 10

abbrev LOGSIZE : Nat := MAXOPBLOCKS * 3

abbrev NBUF : Nat := MAXOPBLOCKS * 3

abbrev Block : Type := BitVec (8 * BSIZE)

abbrev Disk : Type := Nat → Block

namespace Block

/-- The `i`-th 32-bit word, `((uint*)data)[i]`. -/
def word (b : Block) (i : Nat) : BitVec 32 := b.extractLsb' (32 * i) 32

def setWord (b : Block) (i : Nat) (v : BitVec 32) : Block := putSlice b (32 * i) 32 v

@[simp] theorem word_setWord_same (b : Block) {i : Nat} (v : BitVec 32) (hi : i < 128) :
    (b.setWord i v).word i = v :=
  extractLsb'_putSlice_same b (32 * i) 32 v (by simp only [BSIZE]; omega)

theorem word_setWord_ne (b : Block) {i j : Nat} (v : BitVec 32) (hij : i ≠ j) :
    (b.setWord i v).word j = b.word j :=
  extractLsb'_putSlice_disjoint b (32 * i) 32 (32 * j) 32 v (by omega)

end Block

end Xv6
