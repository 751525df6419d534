import Mathlib.Logic.Function.Basic
import Mathlib.Tactic.SplitIfs

/-!
# The two memmove functions

The kernel's `memmove` (string.c) chooses the direction of copying, the user library's
(ulib.c) always copies forwards.  What a forward copy leaves behind is given exactly: when the
source begins below the destination and reaches into it, the bytes before the destination
are repeated.
-/

namespace Xv6.Memmove

open Function

abbrev Memory := Nat → BitVec 8

/-- `while(n-- > 0) *d++ = *s++;` -/
def forward : Memory → Nat → Nat → Nat → Memory
  | mem, _, _, 0 => mem
  | mem, d, s, n + 1 => forward (update mem d (mem s)) (d + 1) (s + 1) n

/-- `while(n-- > 0) *--d = *--s;` -/
def backward : Memory → Nat → Nat → Nat → Memory
  | mem, _, _, 0 => mem
  | mem, d, s, n + 1 => backward (update mem (d - 1) (mem (s - 1))) (d - 1) (s - 1) n

/-- `memmove` of string.c; the pointer `s + n` is a 32-bit address. -/
def Kernel.memmove (mem : Memory) (dst src n : Nat) : Memory :=
  if src < dst ∧ (src + n) % 4294967296 > dst then backward mem (dst + n) (src + n) n
  else forward mem dst src n

/-- `memmove` of ulib.c, with an `int` for the length. -/
def User.memmove (mem : Memory) (dst src : Nat) (n : Int) : Memory :=
  forward mem dst src n.toNat

/-- The `n` bytes that were at `src` are at `dst`, and nothing else has changed. -/
def Copies (mem mem' : Memory) (dst src n : Nat) : Prop :=
  ∀ x, mem' x = if dst ≤ x ∧ x < dst + n then mem (src + (x - dst)) else mem x

/-- The bytes from `src` on repeat those between `src` and `dst`. -/
def Repeats (mem : Memory) (dst src n : Nat) : Prop :=
  ∀ i < n, mem (src + i) = mem (src + i % (dst - src))

theorem forward_succ (mem : Memory) (d s n : Nat) :
    forward mem d s (n + 1) = update (forward mem d s n) (d + n) (forward mem d s n (s + n)) := by
  induction n generalizing mem d s with
  | zero => rfl
  | succ n ih =>
    rw [forward, ih]
    simp only [forward, Nat.add_right_comm _ 1 n, Nat.add_assoc]

theorem forward_apply (mem : Memory) (d s n x : Nat) : forward mem d s n x =
      if d ≤ x ∧ x < d + n then mem (if s < d then s + (x - d) % (d - s) else s + (x - d))
      else mem x := by
  induction n generalizing x with
  | zero => rw [forward, if_neg (by omega)]
  | succ n ih =>
    rw [forward_succ, update_apply]
    by_cases hx : x = d + n
    · -- The byte copied last may itself be one the copy has written.
      subst hx
      rw [if_pos rfl, if_pos ⟨by omega, by omega⟩, ih, Nat.add_sub_cancel_left]
      by_cases hs : s < d
      · simp only [hs, if_true]
        by_cases hn : d - s ≤ n
        · rw [if_pos ⟨by omega, by omega⟩, Nat.mod_eq_sub_mod hn]
          congr 3
          omega
        · rw [if_neg (by omega), Nat.mod_eq_of_lt (by omega)]
      · rw [if_neg (by omega), if_neg hs]
    · rw [if_neg hx, ih]
      simp only [show x < d + (n + 1) ↔ x < d + n by omega]

theorem forward_copies_iff (mem : Memory) (d s n : Nat) :
    Copies mem (forward mem d s n) d s n ↔ (s < d ∧ d < s + n → Repeats mem d s n) := by
  constructor
  · rintro h ⟨hs, -⟩ i hi
    have hx := h (d + i)
    have hin : d ≤ d + i ∧ d + i < d + n := by omega
    rw [forward_apply, if_pos hin, if_pos hin, if_pos hs, Nat.add_sub_cancel_left] at hx
    exact hx.symm
  · intro h x
    rw [forward_apply]
    split_ifs with hx hs
    · by_cases ho : d < s + n
      · exact (h ⟨hs, ho⟩ (x - d) (by omega)).symm
      · rw [Nat.mod_eq_of_lt (by omega)]
    · rfl
    · rfl

theorem backward_copies (mem : Memory) {d s : Nat} (n : Nat) (hs : s < d) :
    Copies mem (backward mem (d + n) (s + n) n) d s n := by
  induction n generalizing mem with
  | zero =>
    intro x
    rw [backward, if_neg (by omega)]
  | succ n ih =>
    intro x
    have hx := ih (update mem (d + n) (mem (s + n))) x
    rw [backward, show d + (n + 1) - 1 = d + n by omega, show s + (n + 1) - 1 = s + n by omega,
      hx]
    -- What is still to be read lies below the byte just written.
    by_cases hn : x = d + n
    · subst hn
      simp
    · rw [update_of_ne hn]
      split_ifs with h1 h2
      · rw [update_of_ne (by omega)]
      · omega
      · omega
      · rfl

/-- For ranges inside the address space the kernel's `memmove` is always right.  The user
library's is right unless the source begins below the destination and reaches into it; then
only if the source repeats its first bytes anyway. -/
theorem memmove_copies_iff (mem : Memory) (dst src n : Nat) (hdst : dst + n ≤ 4294967296)
    (hsrc : src + n ≤ 4294967296) :
    Copies mem (Kernel.memmove mem dst src n) dst src n ∧
      (Copies mem (User.memmove mem dst src n) dst src n ↔
        (src < dst ∧ dst < src + n → Repeats mem dst src n)) := by
  constructor
  · rw [Kernel.memmove]
    split_ifs with h
    · exact backward_copies mem n h.1
    · rw [forward_copies_iff]
      rintro ⟨hs, ho⟩
      -- The end of the source is below that of the destination, so it does not wrap.
      exact absurd ⟨hs, by omega⟩ h
  · exact forward_copies_iff mem dst src n

/-- Overlapping moves, up by the kernel's function and down by the user's. -/
theorem memmove_copies_overlap :
    Copies (BitVec.ofNat 8) (Kernel.memmove (BitVec.ofNat 8) 1 0 4) 1 0 4 ∧
      Copies (BitVec.ofNat 8) (User.memmove (BitVec.ofNat 8) 0 1 4) 0 1 4 :=
  ⟨(memmove_copies_iff (BitVec.ofNat 8) 1 0 4 (by decide) (by decide)).1,
    (memmove_copies_iff (BitVec.ofNat 8) 0 1 4 (by decide) (by decide)).2.mpr (by omega)⟩

/-- Moving two bytes up by one: the second one is lost. -/
theorem memmove_loses_byte :
    ¬Copies (BitVec.ofNat 8) (User.memmove (BitVec.ofNat 8) 1 0 2) 1 0 2 := by
  intro h
  have hx := h 2
  revert hx
  decide

end Xv6.Memmove
