import Mathlib.Algebra.GroupWithZero.Nat

/-!
# Programs over a signature of atomic operations

A program is a tree: it returns, or it asks for one atomic operation and
continues with the reply.  What an operation does is a *handler*, a partial
function on states; the same program text can be run under several handlers.
`Exec` is the small-step execution and records, for every operation, the state
it was executed in, so that a property of a run may mention each step and the
state before it.
-/

namespace Xv6.Lib

/-- The operations a program may ask for, with the type of each reply. -/
structure Sig where
  Op : Type
  Ret : Op → Type

/-- Programs over the signature `S` that return an `α`. -/
inductive Prog (S : Sig) (α : Type) where
  | ret (a : α)
  | op (o : S.Op) (k : S.Ret o → Prog S α)

namespace Prog

variable {S : Sig} {α β γ : Type}

def bind : Prog S α → (α → Prog S β) → Prog S β
  | ret a, f => f a
  | op o k, f => op o fun r => (k r).bind f

instance : Monad (Prog S) where
  pure := ret
  bind := bind

def ask (o : S.Op) : Prog S (S.Ret o) := op o ret

@[simp] theorem pure_eq (a : α) : (pure a : Prog S α) = ret a := rfl

@[simp] theorem ret_bind (a : α) (f : α → Prog S β) : (ret a >>= f) = f a := rfl

@[simp] theorem op_bind (o : S.Op) (k : S.Ret o → Prog S α) (f : α → Prog S β) :
    (op o k >>= f) = op o fun r => k r >>= f := rfl

@[simp] theorem ask_bind (o : S.Op) (f : S.Ret o → Prog S β) : (ask o >>= f) = op o f := rfl

theorem bind_assoc (p : Prog S α) (f : α → Prog S β) (g : β → Prog S γ) :
    p >>= f >>= g = p >>= fun a => f a >>= g := by
  induction p with
  | ret a => rfl
  | op o k ih => simp only [op_bind, ih]

end Prog

/-- What one operation can do: reply and move to a new state, have to wait, or
stop the whole system with a message. -/
inductive Outcome (σ ρ : Type) where
  | ok (r : ρ) (s : σ)
  | blocked
  | panic (msg : String)

def Outcome.panicsWith {σ ρ : Type} : Outcome σ ρ → String → Bool
  | .panic msg, m => msg == m
  | _, _ => false

theorem Outcome.eq_panic_of_panicsWith {σ ρ : Type} {o : Outcome σ ρ} {msg : String}
    (h : o.panicsWith msg = true) : o = .panic msg := by
  cases o with
  | panic m =>
    have hm : m = msg := by simpa [panicsWith] using h
    rw [hm]
  | ok r s => cases h
  | blocked => cases h

/-- The meaning of every operation of a signature, on states `σ`. -/
abbrev Handler (S : Sig) (σ : Type) := (o : S.Op) → σ → Outcome σ (S.Ret o)

variable {S : Sig} {σ α β : Type}

def run (h : Handler S σ) : Prog S α → σ → Outcome σ α
  | .ret a, s => .ok a s
  | .op o k, s =>
    match h o s with
    | .ok r s' => run h (k r) s'
    | .blocked => .blocked
    | .panic msg => .panic msg

/-- `Exec h p s tr q t`: from state `s` the program `p` can execute the
operations of `tr`, each listed with the state it was executed in, and is then
at `q` in state `t`. -/
inductive Exec (h : Handler S σ) : Prog S α → σ → List (S.Op × σ) → Prog S α → σ → Prop where
  | refl (p : Prog S α) (s : σ) : Exec h p s [] p s
  | step {o : S.Op} {k : S.Ret o → Prog S α} {s s' t : σ} {r : S.Ret o}
      {tr : List (S.Op × σ)} {q : Prog S α} (hop : h o s = .ok r s')
      (hrest : Exec h (k r) s' tr q t) : Exec h (.op o k) s ((o, s) :: tr) q t

def Runs (h : Handler S σ) (p : Prog S α) (s : σ) (tr : List (S.Op × σ)) (a : α) (t : σ) :
    Prop := Exec h p s tr (.ret a) t

namespace Exec

variable {h : Handler S σ}

theorem ret_inv {a : α} {s t : σ} {tr : List (S.Op × σ)} {q : Prog S α}
    (hexec : Exec h (.ret a) s tr q t) : tr = [] ∧ q = .ret a ∧ t = s := by
  cases hexec
  exact ⟨rfl, rfl, rfl⟩

theorem bind_inv {p : Prog S α} {f : α → Prog S β} {s t : σ} {tr : List (S.Op × σ)}
    {q : Prog S β} (hexec : Exec h (p >>= f) s tr q t) :
    (∃ p', Exec h p s tr p' t ∧ q = p' >>= f) ∨
      ∃ tr1 tr2 a s1, tr = tr1 ++ tr2 ∧ Runs h p s tr1 a s1 ∧ Exec h (f a) s1 tr2 q t := by
  induction p generalizing s tr with
  | ret a => exact Or.inr ⟨[], tr, a, s, rfl, .refl _ _, hexec⟩
  | op o k ih =>
    rw [Prog.op_bind] at hexec
    cases hexec with
    | refl => exact Or.inl ⟨.op o k, .refl _ _, rfl⟩
    | step hop hrest =>
      rcases ih _ hrest with ⟨p', hp', rfl⟩ | ⟨tr1, tr2, a, s1, rfl, hrun, hf⟩
      · exact Or.inl ⟨p', .step hop hp', rfl⟩
      · exact Or.inr ⟨_, tr2, a, s1, rfl, .step hop hrun, hf⟩

end Exec

end Xv6.Lib
