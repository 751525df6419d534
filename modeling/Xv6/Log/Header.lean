import Xv6.Block

/-!
# The on-disk log header

`struct logheader` is the block count `n` followed by the home block numbers.
`writeHead` overlays it on the header block word by word and `readHead` reads
it back; what lies after the first `n + 1` words is whatever the block held.
-/

namespace Xv6.Log

open List

/-- `hb->block[i] = log.lh.block[i]` for the blocks of `lh`, from index `i` on. -/
def putBlocks : Block → Nat → List (BitVec 32) → Block
  | hb, _, [] => hb
  | hb, i, b :: lh => putBlocks (hb.setWord (i + 1) b) (i + 1) lh

/-- The header block with `log.lh` copied over its front. -/
def putHeader (hb : Block) (lh : List (BitVec 32)) : Block :=
  putBlocks (hb.setWord 0 (BitVec.ofNat 32 lh.length)) 0 lh

def headerCount (hb : Block) : Int := (hb.word 0).toInt

/-- The block numbers `read_head` copies out of the header block; a negative
count gives none, like the loop it models. -/
def getHeader (hb : Block) : List (BitVec 32) :=
  (List.range (headerCount hb).toNat).map fun i => hb.word (i + 1)

section

variable (hb : Block) (lh : List (BitVec 32))

include hb lh

theorem putBlocks_word_le (i j : Nat) (hj : j ≤ i) : (putBlocks hb i lh).word j = hb.word j := by
  induction lh generalizing hb i with
  | nil => rfl
  | cons b lh ih =>
    rw [putBlocks, ih _ _ (by omega)]
    exact Block.word_setWord_ne hb b (by omega)

theorem putBlocks_word (i j : Nat) (hfit : i + lh.length < 128)
    (hj : j < lh.length) : (putBlocks hb i lh).word (i + j + 1) = lh[j] := by
  induction lh generalizing hb i j with
  | nil => simp at hj
  | cons b lh ih =>
    simp only [length_cons] at hfit hj
    cases j with
    | zero =>
      rw [putBlocks, putBlocks_word_le _ _ _ _ (by omega)]
      exact Block.word_setWord_same hb b (by omega)
    | succ j =>
      rw [putBlocks, show i + (j + 1) + 1 = i + 1 + j + 1 by omega,
        ih _ _ _ (by omega) (by omega)]
      rfl

theorem headerCount_putHeader
    (hlen : lh.length ≤ LOGSIZE) : headerCount (putHeader hb lh) = lh.length := by
  have hlt : lh.length ≤ 30 := hlen
  unfold headerCount putHeader
  rw [putBlocks_word_le _ _ _ _ (Nat.le_refl 0), Block.word_setWord_same _ _ (by omega),
    BitVec.toInt_eq_toNat_of_lt] <;>
  simp only [BitVec.toNat_ofNat, Nat.reducePow] <;> omega

@[simp] theorem getHeader_putHeader
    (hlen : lh.length ≤ LOGSIZE) : getHeader (putHeader hb lh) = lh := by
  have hlt : lh.length ≤ 30 := hlen
  unfold getHeader
  rw [headerCount_putHeader hb lh hlen, Int.toNat_natCast]
  apply ext_getElem
  · simp
  · intro i hi1 hi2
    rw [getElem_map, getElem_range]
    have h := putBlocks_word (hb.setWord 0 (BitVec.ofNat 32 lh.length)) lh 0 i
      (by omega) hi2
    rwa [Nat.zero_add] at h

end

theorem getHeader_eq_nil_of_count {hb : Block} (h : headerCount hb = 0) : getHeader hb = [] := by
  simp [getHeader, h]

end Xv6.Log
