import Xv6.Lib.Act
import Xv6.Lib.Protocol

/-!
# Running a program under a protocol

A handler follows a protocol when each of its operations, executed where the protocol allows
it, ends as the protocol says.  States and views are related by any relation; messages that the
protocol lets through are allowed by `E`.
-/

namespace Xv6.Lib

namespace Protocol

variable {S : Sig} {σ V α : Type}

def Follows (π : Protocol S V) (h : Handler S σ) (R : σ → V → Prop) (E : String → Prop) : Prop :=
  ∀ o s v, R s v → π.pre o v → Act.wp E (h o) (fun r s' => ∃ v', π.post o v r v' ∧ R s' v') s

variable {π : Protocol S V} {h : Handler S σ} {R : σ → V → Prop} {E : String → Prop}

theorem run_op (o : S.Op) (k : S.Ret o → Prog S α) :
    run h (.op o k) = (do let r ← (h o : Act σ (S.Ret o)); run h (k r) : Act σ α) := by
  funext s
  simp only [run, bind]
  cases h o s <;> rfl

theorem Follows.run (hfollows : π.Follows h R E) {p : Prog S α} {Q : α → V → Prop} {s : σ} {v : V}
    (hp : π.wp p Q v) (hv : R s v) : Act.wp E (run h p) (fun a s' => ∃ v', R s' v' ∧ Q a v') s := by
  induction p generalizing s v with
  | ret a => exact (Act.wp_pure a).mpr ⟨v, hv, hp⟩
  | op o k ih =>
    have hop := hfollows o s v hv hp.1
    rw [run_op]
    refine Act.wp_seq hop ?_
    intro r s' ⟨v', hpost, hv'⟩
    exact ih r (hp.2 r v' hpost) hv'

end Protocol

end Xv6.Lib
