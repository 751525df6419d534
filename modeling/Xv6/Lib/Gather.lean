import Mathlib.Algebra.BigOperators.Group.Finset.Piecewise
import Mathlib.Algebra.Order.BigOperators.Group.Finset

/-!
# What the slots of a table hold

`gather n g` is the multiset of what the first `n` slots of `g` hold.
-/

namespace Xv6.Lib

open Finset Function

variable {F : Type} {n i : Nat} {g g' : Nat → Option F} {f : F}

-- never unfolded by unification: the tables are large
@[irreducible]
def gather (n : Nat) (g : Nat → Option F) : Multiset F :=
  ∑ i ∈ range n, (g i).elim 0 fun f => {f}

theorem gather_congr (h : ∀ i, i < n → g' i = g i) : gather n g' = gather n g := by
  unfold gather
  exact sum_congr rfl fun i hi => by rw [h i (mem_range.mp hi)]

theorem gather_none (h : ∀ i, i < n → g i = none) : gather n g = 0 := by
  unfold gather
  exact sum_eq_zero fun i hi => by rw [h i (mem_range.mp hi)]; rfl

theorem mem_gather : f ∈ gather n g ↔ ∃ i, i < n ∧ g i = some f := by
  unfold gather
  rw [Multiset.mem_sum]
  constructor
  · rintro ⟨i, hi, hf⟩
    refine ⟨i, mem_range.mp hi, ?_⟩
    cases hg : g i with
    | none => simp [hg] at hf
    | some f' =>
      rw [hg] at hf
      have heq : f = f' := by simpa using hf
      rw [heq]
  · rintro ⟨i, hi, hg⟩
    exact ⟨i, mem_range.mpr hi, by simp [hg]⟩

theorem gather_resize {k : Nat} (hsame : ∀ i, i < n → g' i = g i)
    (hbig : ∀ i, k ≤ i → i < n → g i = none) (hsmall : ∀ i, n ≤ i → g' i = none) :
    gather n g = gather k g' := by
  unfold gather
  rcases le_total n k with hle | hle
  · rw [← sum_subset (range_subset_range.mpr hle)]
    · exact sum_congr rfl fun i hi => by rw [hsame i (mem_range.mp hi)]
    · intro i _ hi
      rw [hsmall i (by simpa using hi)]
      rfl
  · rw [← sum_subset (range_subset_range.mpr hle)]
    · exact sum_congr rfl fun i hi => by
        rw [hsame i (lt_of_lt_of_le (mem_range.mp hi) hle)]
    · intro i hi hik
      rw [hbig i (by simpa using hik) (mem_range.mp hi)]
      rfl

theorem card_gather_full (h : ∀ i, i < n → g i ≠ none) : (gather n g).card = n := by
  unfold gather
  rw [Multiset.card_sum]
  have hone : ∀ i ∈ range n, ((g i).elim (0 : Multiset F) fun f => {f}).card = 1 := fun i hi => by
    obtain ⟨f, hf⟩ := Option.ne_none_iff_exists'.mp (h i (mem_range.mp hi))
    rw [hf]
    rfl
  rw [sum_congr rfl hone, ← card_eq_sum_ones, card_range]

theorem gather_split (hi : i < n) :
    gather n g = (g i).elim 0 (fun f => {f}) + ∑ j ∈ range n \ {i}, (g j).elim 0 fun f => {f} := by
  unfold gather
  rw [← sum_sdiff (singleton_subset_iff.mpr (mem_range.mpr hi)), sum_singleton, add_comm]

theorem gather_update (hi : i < n) {x : Option F} : gather n (update g i x) =
      x.elim 0 (fun f => {f}) + ∑ j ∈ range n \ {i}, (g j).elim 0 fun f => {f} := by
  rw [gather_split hi, update_self]
  congr 1
  apply sum_congr rfl
  intro j hj
  rw [update_of_ne]
  rintro rfl
  simp at hj

theorem gather_fill (hi : i < n) (hg : g i = none) :
    gather n (update g i (some f)) = f ::ₘ gather n g := by
  rw [gather_update hi, gather_split hi, hg]
  simp

theorem gather_take (hi : i < n) (hg : g i = some f) :
    gather n g = f ::ₘ gather n (update g i none) := by
  rw [gather_update hi, gather_split hi, hg]
  simp

theorem card_gather_le : (gather n g).card ≤ n := by
  unfold gather
  rw [Multiset.card_sum]
  calc ∑ i ∈ range n, ((g i).elim 0 fun f => ({f} : Multiset F)).card
      ≤ ∑ _i ∈ range n, 1 := by
        apply sum_le_sum
        intro i _
        cases g i <;> simp
    _ = n := by simp

theorem gather_eq_filterMap : gather n g = ((List.range n).filterMap g : List F) := by
  induction n with
  | zero =>
    unfold gather
    rfl
  | succ n ih =>
    have hsum : gather (n + 1) g = gather n g + (g n).elim 0 fun f => {f} := by
      unfold gather
      exact sum_range_succ _ _
    rw [hsum, ih, List.range_succ, List.filterMap_append, ← Multiset.coe_add]
    congr 1
    cases hg : g n <;> simp [hg]

end Xv6.Lib
