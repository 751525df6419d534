import Xv6.Lib.Prog

/-!
# Code that may panic

An action takes a state to a result and a new state, or stops with a message.  `wp E f Q s`
says that `f` does not get stuck in `s`: it returns with `Q`, or stops with a message that
`E` allows.  With nothing allowed that is total correctness, with everything allowed it is
a statement about the runs that return.
-/

namespace Xv6.Lib

def Act (σ α : Type) : Type := σ → Outcome σ α

namespace Act

variable {σ α β : Type} {E : String → Prop} {f : Act σ α} {g : α → Act σ β}
  {Q R : α → σ → Prop} {s : σ}

instance : Monad (Act σ) where
  pure a := fun s => .ok a s
  bind f g := fun s =>
    match f s with
    | .ok a s' => g a s'
    | .blocked => .blocked
    | .panic msg => .panic msg

def panic (msg : String) : Act σ α := fun _ => .panic msg

def get : Act σ σ := fun s => .ok s s

def modify (u : σ → σ) : Act σ Unit := fun s => .ok () (u s)

def zoom {τ : Type} (part : τ → σ) (put : τ → σ → τ) (f : Act σ α) : Act τ α := fun t =>
  match f (part t) with
  | .ok a s => .ok a (put t s)
  | .blocked => .blocked
  | .panic msg => .panic msg

def wp (E : String → Prop) (f : Act σ α) (Q : α → σ → Prop) (s : σ) : Prop :=
  match f s with
  | .ok a s' => Q a s'
  | .blocked => False
  | .panic msg => E msg

@[simp] theorem wp_pure (a : α) : wp E (pure a : Act σ α) Q s ↔ Q a s := Iff.rfl

@[simp] theorem wp_get {Q : σ → σ → Prop} : wp E get Q s ↔ Q s s := Iff.rfl

@[simp] theorem wp_modify {u : σ → σ} {Q : Unit → σ → Prop} :
    wp E (modify u) Q s ↔ Q () (u s) := Iff.rfl

@[simp] theorem wp_panic {msg : String} : wp E (panic msg : Act σ α) Q s ↔ E msg := Iff.rfl

theorem wp_bind {Q : β → σ → Prop} :
    wp E (f >>= g) Q s ↔ wp E f (fun a s' => wp E (g a) Q s') s := by
  change (match (match f s with
    | .ok a s' => g a s'
    | .blocked => .blocked
    | .panic msg => .panic msg) with
    | .ok b s' => Q b s'
    | .blocked => False
    | .panic msg => E msg) ↔ _
  unfold wp
  cases f s <;> rfl

theorem wp_mono (h : wp E f Q s) (hQ : ∀ a s', Q a s' → R a s') : wp E f R s := by
  unfold wp at h ⊢
  cases hf : f s with
  | ok a s' =>
    rw [hf] at h
    exact hQ a s' h
  | blocked | panic msg =>
    rw [hf] at h
    exact h

theorem wp_seq {Q : β → σ → Prop} (hf : wp E f R s)
    (hg : ∀ a s', R a s' → wp E (g a) Q s') : wp E (f >>= g) Q s :=
  wp_bind.mpr (wp_mono hf hg)

theorem wp_ok {a : α} {s' : σ} (h : wp E f Q s) (hf : f s = .ok a s') : Q a s' := by
  unfold wp at h
  rw [hf] at h
  exact h

theorem wp_of_ok {a : α} {s' : σ} (hf : f s = .ok a s') (hQ : Q a s') : wp E f Q s := by
  unfold wp
  rw [hf]
  exact hQ

theorem wp_cases (h : wp E f Q s) :
    (∃ a s', f s = .ok a s' ∧ Q a s') ∨ ∃ msg, f s = .panic msg ∧ E msg := by
  unfold wp at h
  cases hf : f s with
  | ok a s' =>
    rw [hf] at h
    exact .inl ⟨a, s', rfl, h⟩
  | blocked =>
    rw [hf] at h
    exact h.elim
  | panic msg =>
    rw [hf] at h
    exact .inr ⟨msg, rfl, h⟩

theorem wp_returns (h : wp (fun _ => False) f Q s) : ∃ a s', f s = .ok a s' ∧ Q a s' := by
  rcases wp_cases h with hok | ⟨_, _, hfalse⟩
  · exact hok
  · exact hfalse.elim

theorem wp_zoom {τ : Type} {part : τ → σ} {put : τ → σ → τ} {t : τ} {Q : α → τ → Prop} :
    wp E (zoom part put f) Q t ↔ wp E f (fun a s => Q a (put t s)) (part t) := by
  unfold wp zoom
  cases f (part t) <;> rfl

-- the rules above are the interface: a tactic never runs an action to look through `wp`
attribute [irreducible] wp

end Act

end Xv6.Lib
