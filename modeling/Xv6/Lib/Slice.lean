import Mathlib.Data.BitVec

/-!
# Fields of a fixed-width word

A record that lives in memory at a fixed offset is a run of bits of one wide
word.  Reading the field is `BitVec.extractLsb'`; this module adds the store,
`putSlice`, and the two facts every layout argument needs: a field reads back
what was last stored there, and a store leaves the fields it does not overlap
alone.
-/

namespace Xv6.Lib.Slice

variable {w : Nat}

/-- Replace the `len` bits of `x` that start at bit `off` by `v`. -/
def putSlice (x : BitVec w) (off len : Nat) (v : BitVec len) : BitVec w :=
  (x &&& ~~~((BitVec.allOnes len).setWidth w <<< off)) ||| (v.setWidth w <<< off)

theorem getLsbD_putSlice (x : BitVec w) (off len : Nat) (v : BitVec len) (i : Nat) :
    (putSlice x off len v).getLsbD i =
      if off ≤ i ∧ i < off + len ∧ i < w then v.getLsbD (i - off) else x.getLsbD i := by
  unfold putSlice
  simp only [BitVec.getLsbD_or, BitVec.getLsbD_and, BitVec.getLsbD_not,
    BitVec.getLsbD_shiftLeft, BitVec.getLsbD_setWidth, BitVec.getLsbD_allOnes]
  by_cases hw : i < w
  · by_cases hoff : off ≤ i
    · by_cases hlen : i < off + len
      · have hsub : i - off < len := by omega
        have hsubw : i - off < w := by omega
        have hnlt : ¬ i < off := by omega
        simp [hw, hoff, hlen, hsub, hsubw, hnlt]
      · have hsub : ¬ i - off < len := by omega
        have hv : v.getLsbD (i - off) = false := BitVec.getLsbD_of_ge v _ (by omega)
        simp [hw, hoff, hlen, hsub, hv]
    · have hlt : i < off := by omega
      simp [hw, hoff, hlt]
  · have hx : x.getLsbD i = false := BitVec.getLsbD_of_ge x i (by omega)
    simp [hw, hx]

theorem extractLsb'_putSlice_same (x : BitVec w) (off len : Nat) (v : BitVec len)
    (h : off + len ≤ w) : (putSlice x off len v).extractLsb' off len = v := by
  apply BitVec.eq_of_getLsbD_eq
  intro i hi
  rw [BitVec.getLsbD_extractLsb', getLsbD_putSlice, if_pos (by omega)]
  simp [hi]

theorem extractLsb'_putSlice_disjoint (x : BitVec w) (off len off' len' : Nat)
    (v : BitVec len) (h : off' + len' ≤ off ∨ off + len ≤ off') :
    (putSlice x off len v).extractLsb' off' len' = x.extractLsb' off' len' := by
  apply BitVec.eq_of_getLsbD_eq
  intro i hi
  rw [BitVec.getLsbD_extractLsb', BitVec.getLsbD_extractLsb', getLsbD_putSlice, if_neg (by omega)]

/-- Store the elements of `xs` one after the other, from bit `off` on. -/
def putList (x : BitVec w) (off : Nat) {len : Nat} : List (BitVec len) → BitVec w
  | [] => x
  | v :: xs => putList (putSlice x off len v) (off + len) xs

theorem extractLsb'_putList_disjoint {len : Nat} (x : BitVec w) (off : Nat) (xs : List (BitVec len))
    (off' len' : Nat) (h : off' + len' ≤ off ∨ off + len * xs.length ≤ off') :
    (putList x off xs).extractLsb' off' len' = x.extractLsb' off' len' := by
  induction xs generalizing x off with
  | nil => rfl
  | cons v xs ih =>
    rw [List.length_cons, Nat.mul_succ] at h
    rw [putList, ih _ _ (by omega), extractLsb'_putSlice_disjoint _ _ _ _ _ _ (by omega)]

theorem extractLsb'_putList {len : Nat} (x : BitVec w) (off : Nat) (xs : List (BitVec len))
    (j : Nat) (hj : j < xs.length) (hfit : off + len * xs.length ≤ w) :
    (putList x off xs).extractLsb' (off + len * j) len = xs[j] := by
  induction xs generalizing x off j with
  | nil => simp at hj
  | cons v xs ih =>
    rw [List.length_cons, Nat.mul_succ] at hfit
    rw [putList]
    cases j with
    | zero =>
      rw [Nat.mul_zero, Nat.add_zero, extractLsb'_putList_disjoint _ _ _ _ _ (by omega),
        extractLsb'_putSlice_same _ _ _ _ (by omega)]
      rfl
    | succ j =>
      have hoff : off + len * (j + 1) = off + len + len * j := by
        rw [Nat.mul_succ]
        omega
      rw [hoff, ih _ _ _ (by simpa using hj) (by omega)]
      rfl

end Xv6.Lib.Slice
