import Mathlib.Data.BitVec
import Mathlib.Tactic.Ring

/-!
# Circular buffers with free running counters

A buffer of `N` cells with a read and a write counter that are never reset: they
count modulo `2 ^ m`, a multiple of `N`, and cell `k % N` holds element `k`.
-/

namespace Xv6.Lib

open Function List

variable {β : Type} {m N : Nat} {data : Nat → β} {r w : BitVec m}

def ringContents (N : Nat) (data : Nat → β) (r w : BitVec m) : List β :=
  (List.range (w - r).toNat).map fun k => data ((r.toNat + k) % N)

theorem toNat_one (hm : 1 < 2 ^ m) : (1 : BitVec m).toNat = 1 := by
  change (BitVec.ofNat m 1).toNat = 1
  rw [BitVec.toNat_ofNat, Nat.mod_eq_of_lt hm]

theorem ringContents_length : (ringContents N data r w).length = (w - r).toNat := by
  simp [ringContents]

theorem ringContents_empty (h : r = w) : ringContents N data r w = [] := by
  subst h
  simp [ringContents]

theorem ring_write_index (hdvd : N ∣ 2 ^ m) : w.toNat % N = (r.toNat + (w - r).toNat) % N := by
  have hw : w = r + (w - r) := by ring
  calc w.toNat % N = (r + (w - r)).toNat % N := by rw [← hw]
    _ = (r.toNat + (w - r).toNat) % 2 ^ m % N := by rw [BitVec.toNat_add]
    _ = (r.toNat + (w - r).toNat) % N := Nat.mod_mod_of_dvd _ hdvd

theorem ring_succ_sub (h : (w - r).toNat + 1 < 2 ^ m) : (w + 1 - r).toNat = (w - r).toNat + 1 := by
  have hw : w + 1 - r = (w - r) + 1 := by ring
  have hm : 1 < 2 ^ m := by omega
  rw [hw, BitVec.toNat_add]
  rw [toNat_one hm, Nat.mod_eq_of_lt h]

theorem ring_sub_succ (hne : r ≠ w) : (w - (r + 1)).toNat + 1 = (w - r).toNat := by
  have hw : w - r = (w - (r + 1)) + 1 := by ring
  have hne' : (w - r).toNat ≠ 0 := by
    intro hzero
    have : w - r = 0 := BitVec.eq_of_toNat_eq (by simpa using hzero)
    exact hne (sub_eq_zero.mp this).symm
  have hlt := (w - r).isLt
  have hm : 1 < 2 ^ m := by omega
  have hsum : (w - r).toNat = ((w - (r + 1)).toNat + 1) % 2 ^ m := by
    conv_lhs => rw [hw, BitVec.toNat_add, toNat_one hm]
  have hlt' := (w - (r + 1)).isLt
  by_cases htop : (w - (r + 1)).toNat + 1 = 2 ^ m
  · rw [htop, Nat.mod_self] at hsum
    exact absurd hsum hne'
  · rw [Nat.mod_eq_of_lt (by omega)] at hsum
    exact hsum.symm

theorem ringContents_push (hdvd : N ∣ 2 ^ m) (hroom : (w - r).toNat < N)
    (hbig : (w - r).toNat + 1 < 2 ^ m) (x : β) :
    ringContents N (update data (w.toNat % N) x) r (w + 1) = ringContents N data r w ++ [x] := by
  have hindex := ring_write_index (r := r) (w := w) hdvd
  unfold ringContents
  rw [ring_succ_sub hbig, range_succ, map_append]
  congr 1
  · apply map_congr_left
    intro k hk
    rw [mem_range] at hk
    rw [update_of_ne]
    -- two cells less than `N` apart are different
    rw [hindex]
    intro heq
    have hmod : (r.toNat + k) ≡ (r.toNat + (w - r).toNat) [MOD N] := heq
    have hk' := Nat.ModEq.add_left_cancel' r.toNat hmod
    rw [Nat.ModEq, Nat.mod_eq_of_lt (by omega), Nat.mod_eq_of_lt hroom] at hk'
    omega
  · simp only [map_cons, map_nil]
    rw [← hindex, update_self]

theorem ringContents_pop (hdvd : N ∣ 2 ^ m) (hne : r ≠ w) :
    ringContents N data r w = data (r.toNat % N) :: ringContents N data (r + 1) w := by
  have hlen := ring_sub_succ hne
  have hlt := (w - r).isLt
  have hone : (r + 1).toNat % N = (r.toNat + 1) % N := by
    have hm : 1 < 2 ^ m := by omega
    rw [BitVec.toNat_add, toNat_one hm, Nat.mod_mod_of_dvd _ hdvd]
  unfold ringContents
  rw [← hlen, range_succ_eq_map, map_cons, map_map]
  congr 1
  apply map_congr_left
  intro k _
  change data ((r.toNat + (k + 1)) % N) = data (((r + 1).toNat + k) % N)
  rw [Nat.add_mod (r + 1).toNat k, hone, ← Nat.add_mod]
  congr 2
  omega

theorem ring_sub_add_sub {e : BitVec m} (h : (w - r).toNat ≤ (e - r).toNat) :
    (w - r).toNat + (e - w).toNat = (e - r).toNat := by
  have hsplit : e - r = (w - r) + (e - w) := by ring
  have hsum : (e - r).toNat = ((w - r).toNat + (e - w).toNat) % 2 ^ m := by
    conv_lhs => rw [hsplit, BitVec.toNat_add]
  have hw := (w - r).isLt
  have he := (e - w).isLt
  by_cases hlt : (w - r).toNat + (e - w).toNat < 2 ^ m
  · rw [Nat.mod_eq_of_lt hlt] at hsum
    exact hsum.symm
  · rw [Nat.mod_eq_sub_mod (by omega), Nat.mod_eq_of_lt (by omega)] at hsum
    omega

theorem ringContents_split {e : BitVec m} (hdvd : N ∣ 2 ^ m) (h : (w - r).toNat ≤ (e - r).toNat) :
    ringContents N data r e = ringContents N data r w ++ ringContents N data w e := by
  have hw := ring_write_index (r := r) (w := w) hdvd
  unfold ringContents
  rw [← ring_sub_add_sub h, range_add, map_append, map_map]
  congr 1
  apply map_congr_left
  intro k _
  change data ((r.toNat + ((w - r).toNat + k)) % N) = data ((w.toNat + k) % N)
  rw [Nat.add_mod w.toNat k, hw, ← Nat.add_mod, Nat.add_assoc]

theorem ring_pred_sub (hne : r ≠ w) : (w - 1 - r).toNat + 1 = (w - r).toNat := by
  have h := ring_sub_succ hne
  have hpred : w - 1 - r = w - (r + 1) := by ring
  rw [hpred]
  exact h

theorem ringContents_unpush (hdvd : N ∣ 2 ^ m) (hne : r ≠ w) :
    ringContents N data r w = ringContents N data r (w - 1) ++ [data ((w - 1).toNat % N)] := by
  have hindex := ring_write_index (r := r) (w := w - 1) hdvd
  unfold ringContents
  rw [← ring_pred_sub hne, range_succ, map_append, map_cons, map_nil, hindex]

end Xv6.Lib
