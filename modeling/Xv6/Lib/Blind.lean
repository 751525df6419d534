import Xv6.Lib.Act

/-!
# Parts of the state an action does not look at

`Blind u f`: changing the state by `u` before `f` or after it is the same.  Where `u` sets a
part of the state, `f` neither uses that part nor changes it.
-/

namespace Xv6.Lib

variable {σ α β : Type} {u : σ → σ}

def Outcome.mapState (u : σ → σ) : Outcome σ α → Outcome σ α
  | .ok a s => .ok a (u s)
  | .blocked => .blocked
  | .panic msg => .panic msg

def Blind (u : σ → σ) (f : Act σ α) : Prop := ∀ s, f (u s) = (f s).mapState u

namespace Blind

theorem pure (a : α) : Blind u (Pure.pure a : Act σ α) := fun _ => rfl

theorem panic (msg : String) : Blind u (Act.panic msg : Act σ α) := fun _ => rfl

theorem modify {w : σ → σ} (h : ∀ s, w (u s) = u (w s)) : Blind u (Act.modify w) := by
  intro s
  change Outcome.ok () (w (u s)) = .ok () (u (w s))
  rw [h]

theorem bind {f : Act σ α} {g : α → Act σ β} (hf : Blind u f) (hg : ∀ a, Blind u (g a)) :
    Blind u (f >>= g) := by
  intro s
  change (match f (u s) with
    | .ok a s' => g a s'
    | .blocked => .blocked
    | .panic msg => .panic msg) = Outcome.mapState u (match f s with
    | .ok a s' => g a s'
    | .blocked => .blocked
    | .panic msg => .panic msg)
  rw [hf s]
  cases f s with
  | ok a s' => exact hg a s'
  | blocked => rfl
  | panic msg => rfl

theorem get {g : σ → Act σ β} (hsame : ∀ s, g (u s) = g s) (hg : ∀ s, Blind u (g s)) :
    Blind u (Act.get >>= g) := by
  intro s
  change g (u s) (u s) = Outcome.mapState u (g s s)
  rw [hsame, hg]

theorem ite {c : Prop} [Decidable c] {f g : Act σ α} (hf : Blind u f) (hg : Blind u g) :
    Blind u (if c then f else g) := by
  split
  · exact hf
  · exact hg

end Blind

end Xv6.Lib
