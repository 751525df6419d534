import Mathlib.Algebra.BigOperators.Fin

/-!
# Totals over tables

The total of a table is the share of one entry and the rest, and the rest stays the same when
that entry is replaced or removed.
-/

namespace Xv6.Lib

open Function List

variable {α M : Type} [AddCommMonoid M]

theorem sum_entry (g : α → M) {l : List α} {i : Nat} {a : α} (h : l[i]? = some a) :
    ∃ rest, (l.map g).sum = g a + rest ∧ (∀ b, ((l.set i b).map g).sum = g b + rest) ∧
      ((l.eraseIdx i).map g).sum = rest := by
  induction l generalizing i with
  | nil => simp at h
  | cons x l ih =>
    cases i with
    | zero =>
      have hx : x = a := by simpa using h
      subst hx
      exact ⟨(l.map g).sum, by simp, by simp, by simp⟩
    | succ i =>
      obtain ⟨rest, htotal, hset, herase⟩ := ih (by simpa using h)
      refine ⟨g x + rest, ?_, ?_, ?_⟩
      · rw [map_cons, sum_cons, htotal, add_left_comm]
      · intro b
        rw [set_cons_succ, map_cons, sum_cons, hset, add_left_comm]
      · rw [eraseIdx_cons_succ, map_cons, sum_cons, herase]

theorem sum_slot {n : Nat} (g : α → M) (f : Fin n → α) (i : Fin n) :
    ∃ rest, ∑ j, g (f j) = g (f i) + rest ∧ ∀ b, ∑ j, g (update f i b j) = g b + rest := by
  refine ⟨∑ j ∈ Finset.univ.erase i, g (f j), ?_, ?_⟩
  · exact (Finset.add_sum_erase Finset.univ (fun j => g (f j)) (Finset.mem_univ i)).symm
  · intro b
    rw [← Finset.add_sum_erase Finset.univ _ (Finset.mem_univ i), update_self]
    congr 1
    apply Finset.sum_congr rfl
    intro j hj
    rw [update_of_ne (Finset.ne_of_mem_erase hj)]

end Xv6.Lib
