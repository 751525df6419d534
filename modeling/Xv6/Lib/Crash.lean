import Xv6.Lib.Prog

/-!
# Crash triples

A triple here has two postconditions: one for the end of the program and one
for every point at which it may be cut short.  Both may count the operations
executed so far that satisfy a test `mark`; the count is a ghost argument of
every assertion, so that an invariant can say which of several durable events
have already happened.
-/

namespace Xv6.Lib.Crash

open List

variable {S : Sig} {σ α β : Type}

/-- From `n` marked operations and a state satisfying `P`, every state reached
satisfies `C` and every final state satisfies `Q`, each at its own count. -/
def Triple (h : Handler S σ) (mark : S.Op → Bool) (P : Nat → σ → Prop) (p : Prog S α)
    (Q : Nat → α → σ → Prop) (C : Nat → σ → Prop) : Prop :=
  ∀ n s, P n s → ∀ tr q t, Exec h p s tr q t →
    C (n + tr.countP fun x => mark x.1) t ∧
      ∀ a, q = .ret a → Q (n + tr.countP fun x => mark x.1) a t

namespace Triple

variable {h : Handler S σ} {mark : S.Op → Bool} {P P' : Nat → σ → Prop}
  {Q Q' : Nat → α → σ → Prop} {C : Nat → σ → Prop} {p : Prog S α}

theorem ret {a : α} (hQ : ∀ n s, P n s → Q n a s) (hC : ∀ n s, P n s → C n s) :
    Triple h mark P (.ret a) Q C := by
  intro n s hP tr q t hexec
  obtain ⟨rfl, rfl, rfl⟩ := hexec.ret_inv
  refine ⟨hC n t hP, ?_⟩
  intro b hb
  cases hb
  exact hQ n t hP

theorem op {o : S.Op} {k : S.Ret o → Prog S α} (hC : ∀ n s, P n s → C n s)
    (hk : ∀ n s r s', P n s → h o s = .ok r s' →
      Triple h mark (fun m t => m = n + (if mark o then 1 else 0) ∧ t = s') (k r) Q C) :
    Triple h mark P (.op o k) Q C := by
  intro n s hP tr q t hexec
  cases hexec with
  | refl =>
    refine ⟨hC n s hP, ?_⟩
    intro a ha
    cases ha
  | @step _ _ _ _ _ _ rest _ hop hrest =>
    have hk' := hk n s _ _ hP hop _ _ ⟨rfl, rfl⟩ _ _ _ hrest
    have hcount : n + List.countP (fun x => mark x.1) ((o, s) :: rest) =
        n + (if mark o then 1 else 0) + rest.countP fun x => mark x.1 := by
      simp only [countP_cons]
      omega
    rw [hcount]
    exact hk'

theorem bind {f : α → Prog S β} {R : Nat → β → σ → Prop} (hp : Triple h mark P p Q C)
    (hf : ∀ a, Triple h mark (fun n s => Q n a s) (f a) R C) : Triple h mark P (p >>= f) R C := by
  intro n s hP tr q t hexec
  rcases hexec.bind_inv with ⟨p', hp', rfl⟩ | ⟨tr1, tr2, a, s1, rfl, hrun, hrest⟩
  · refine ⟨(hp n s hP tr p' t hp').1, ?_⟩
    intro b hb
    -- The cut is inside `p`, so `p'` can only be a returned value.
    cases p' with
    | op o k => cases hb
    | ret a =>
      have hQ := (hp n s hP tr (.ret a) t hp').2 a rfl
      have hend := hf a _ t hQ [] (f a) t (.refl _ _)
      rw [countP_nil, Nat.add_zero] at hend
      exact hend.2 b hb
  · have hQ := (hp n s hP tr1 (.ret a) s1 hrun).2 a rfl
    rw [countP_append, ← Nat.add_assoc]
    exact hf a _ s1 hQ tr2 q t hrest

theorem consequence (hp : Triple h mark P p Q C) (hpre : ∀ n s, P' n s → P n s)
    (hpost : ∀ n a s, Q n a s → Q' n a s) : Triple h mark P' p Q' C := by
  intro n s hP tr q t hexec
  obtain ⟨hC, hQ⟩ := hp n s (hpre n s hP) tr q t hexec
  exact ⟨hC, fun a ha => hpost _ a t (hQ a ha)⟩

theorem forM {γ : Type} (xs : List γ) (body : γ → Prog S Unit) (I : Nat → Nat → σ → Prop)
    (hbody : ∀ i x, xs[i]? = some x → Triple h mark (I i) (body x) (fun n _ s => I (i + 1) n s) C)
    (hend : ∀ n s, I xs.length n s → C n s) :
    Triple h mark (I 0) (xs.forM body) (fun n _ s => I xs.length n s) C := by
  induction xs generalizing I with
  | nil => exact Triple.ret (fun n s hI => hI) hend
  | cons x xs ih =>
    change Triple h mark (I 0) (body x >>= fun _ => xs.forM body) _ C
    apply Triple.bind (hbody 0 x rfl)
    intro _
    apply ih (fun i => I (i + 1))
    · intro i y hy
      exact hbody (i + 1) y (by simpa using hy)
    · exact hend

theorem forRange (count : Nat) (body : Nat → Prog S Unit) (I : Nat → Nat → σ → Prop)
    (hbody : ∀ i, i < count → Triple h mark (I i) (body i) (fun n _ s => I (i + 1) n s) C)
    (hend : ∀ n s, I count n s → C n s) :
    Triple h mark (I 0) ((List.range count).forM body) (fun n _ s => I count n s) C := by
  have hloop := @forM S σ h mark C Nat (List.range count) body I
  rw [length_range] at hloop
  apply hloop _ hend
  intro i x hx
  obtain ⟨hi, rfl⟩ : i < count ∧ i = x := by
    rw [List.getElem?_eq_some_iff] at hx
    simpa using hx
  exact hbody i hi

end Triple

end Xv6.Lib.Crash
