import Xv6.Lib.Prog

/-!
# What a program returns

`Ensures h p Q s` is about the runs of `p` that return: a run that blocks or panics says
nothing.  A property that every operation of a program keeps is kept by the program.
-/

namespace Xv6.Lib

variable {S : Sig} {σ α β : Type}

/-- Where `p` returns from `s`, the result and the state satisfy `Q`. -/
def Ensures (h : Handler S σ) : Prog S α → (α → σ → Prop) → σ → Prop
  | .ret a, Q, s => Q a s
  | .op o k, Q, s => ∀ r t, h o s = .ok r t → Ensures h (k r) Q t

namespace Ensures

variable {h : Handler S σ} {p : Prog S α} {f : α → Prog S β} {Q R : α → σ → Prop} {s t : σ}

theorem pure {a : α} (hQ : Q a s) : Ensures h (Pure.pure a) Q s := hQ

theorem of_run {a : α} (hp : Ensures h p Q s) (hrun : run h p s = .ok a t) : Q a t := by
  induction p generalizing s with
  | ret b =>
    obtain ⟨rfl, rfl⟩ := Outcome.ok.inj hrun
    exact hp
  | op o k ih =>
    simp only [run] at hrun
    split at hrun
    · case _ r s' hop => exact ih r (hp r s' hop) hrun
    · cases hrun
    · cases hrun

theorem mono (hp : Ensures h p Q s) (hQ : ∀ a t, Q a t → R a t) : Ensures h p R s := by
  induction p generalizing s with
  | ret a => exact hQ a s hp
  | op o k ih => exact fun r t hop => ih r (hp r t hop)

end Ensures

/-- All operations that `p` may ask for satisfy `C`. -/
def Prog.Uses (C : S.Op → Prop) : Prog S α → Prop
  | .ret _ => True
  | .op o k => C o ∧ ∀ r, (k r).Uses C

namespace Prog.Uses

variable {C : S.Op → Prop} {p : Prog S α}

theorem bind {f : α → Prog S β} (hp : p.Uses C) (hf : ∀ a, (f a).Uses C) : (p >>= f).Uses C := by
  induction p with
  | ret a => exact hf a
  | op o k ih => exact ⟨hp.1, fun r => ih r (hp.2 r)⟩

end Prog.Uses

end Xv6.Lib
