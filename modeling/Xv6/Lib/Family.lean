import Mathlib.Algebra.BigOperators.Pi
import Mathlib.Algebra.Order.BigOperators.Group.Finset

/-!
# Sums over a family of parties

Counting what all parties together hold, when one of them changes its share.
-/

namespace Xv6.Lib

open Function Finset

variable {P V : Type} [DecidableEq P] [Fintype P]

theorem sum_update_add (share : V → Nat) (g : P → V) (p : P) (x : V) :
    (∑ q, share (update g p x q)) + share (g p) = (∑ q, share (g q)) + share x := by
  have hnew := add_sum_erase univ (fun q => share (update g p x q))
    (mem_univ p)
  have hold := add_sum_erase univ (fun q => share (g q)) (mem_univ p)
  have hrest : ∑ q ∈ univ.erase p, share (update g p x q) = ∑ q ∈ univ.erase p, share (g q) := by
    apply sum_congr rfl
    intro q hq
    rw [update_of_ne (ne_of_mem_erase hq)]
  simp only [update_self] at hnew
  omega

omit [DecidableEq P] in
theorem share_le_sum (share : V → Nat) (g : P → V) (p : P) : share (g p) ≤ ∑ q, share (g q) :=
  single_le_sum (f := fun q => share (g q)) (fun _ _ => Nat.zero_le _) (mem_univ p)

end Xv6.Lib
