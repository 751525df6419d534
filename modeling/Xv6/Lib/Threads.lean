import Mathlib.Logic.Function.Basic
import Xv6.Lib.Protocol
import Xv6.Lib.Transition

/-!
# Threads that execute calls

A family of threads over one shared state.  A thread is idle or inside the program
of a call; a step starts a call, executes one operation, or returns.  `Threads.step`
interleaves the threads at operations.  The rule: an invariant that ties the state to the
views of all threads, and is kept by every operation executed within the protocol, holds in
every state reached, provided the program of every call meets the protocol.
-/

namespace Xv6.Lib

open Function List

variable {S : Sig} {σ V P C α : Type} [DecidableEq P] {threads : P → Option (Prog S α)}

structure Threads (S : Sig) (σ α P : Type) where
  state : σ
  threads : P → Option (Prog S α)

inductive Action (P C : Type) where
  | start (p : P) (c : C)
  | step (p : P)

namespace Threads

def step (h : P → Handler S σ) (body : C → Prog S α) (s : Threads S σ α P) :
    Action P C → Outcome (Threads S σ α P) Unit
  | .start p c =>
    match s.threads p with
    | none => .ok () { s with threads := update s.threads p (some (body c)) }
    | some _ => .blocked
  | .step p =>
    match s.threads p with
    | none => .blocked
    | some (.ret _) => .ok () { s with threads := update s.threads p none }
    | some (.op o k) =>
      match h p o s.state with
      | .ok r t => .ok () ⟨t, update s.threads p (some (k r))⟩
      | .blocked => .blocked
      | .panic msg => .panic msg

variable {h : P → Handler S σ} {body : C → Prog S α} {s t : Threads S σ α P}

theorem step_cases {a : Action P C} (hstep : s.step h body a = .ok () t) :
    (∃ p c, a = .start p c ∧ s.threads p = none ∧
      t = { s with threads := update s.threads p (some (body c)) }) ∨
    (∃ p x, a = .step p ∧ s.threads p = some (.ret x) ∧
      t = { s with threads := update s.threads p none }) ∨
    ∃ p o k r u, a = .step p ∧ s.threads p = some (.op o k) ∧ h p o s.state = .ok r u ∧
      t = ⟨u, update s.threads p (some (k r))⟩ := by
  cases a with
  | start p c =>
    left
    simp only [step] at hstep
    split at hstep
    · rename_i hidle
      cases hstep
      exact ⟨p, c, rfl, hidle, rfl⟩
    · cases hstep
  | step p =>
    right
    simp only [step] at hstep
    split at hstep
    · cases hstep
    · rename_i x hret
      cases hstep
      exact Or.inl ⟨p, x, rfl, hret, rfl⟩
    · rename_i o k hop
      split at hstep
      · rename_i r u hok
        cases hstep
        exact Or.inr ⟨p, o, k, r, u, rfl, hop, hok, rfl⟩
      · cases hstep
      · cases hstep

end Threads

/-- Operations executed within the protocol, in states that pass `ok`, keep `I`. -/
def Protocol.Keeps (π : Protocol S V) (h : P → Handler S σ) (ok : σ → S.Op → Prop)
    (I : σ → (P → V) → Prop) : Prop :=
  ∀ s views p o r t, I s views → π.pre o (views p) → ok s o → h p o s = .ok r t →
    ∃ v, π.post o (views p) r v ∧ I t (update views p v)

/-- Every thread is idle with view `idle`, or its program meets the protocol from its
view on and ends in `idle`. -/
def Protocol.Covers (π : Protocol S V) (idle : V) (views : P → V)
    (threads : P → Option (Prog S α)) : Prop :=
  ∀ p, match threads p with
    | none => views p = idle
    | some q => π.wp q (fun _ v => v = idle) (views p)

section Rules

variable {π : Protocol S V} {idle : V} {h : P → Handler S σ} {body : C → Prog S α}
  {ok : σ → S.Op → Prop} {I : σ → (P → V) → Prop} {views : P → V}

omit [DecidableEq P] in
theorem Protocol.Covers.view (hcov : π.Covers idle views threads) {p : P} {q : Prog S α}
    (hp : threads p = some q) : π.wp q (fun _ v => v = idle) (views p) := by
  have hview := hcov p
  rwa [hp] at hview

theorem Protocol.Covers.update (hcov : π.Covers idle views threads) {p : P} {v : V}
    {th : Option (Prog S α)}
    (hnew : match th with | none => v = idle | some q => π.wp q (fun _ v => v = idle) v) :
    π.Covers idle (update views p v) (update threads p th) := by
  intro q
  by_cases hq : q = p
  · subst hq
    simpa only [update_self] using hnew
  · simpa only [update_of_ne hq] using hcov q

theorem Threads.invariant_step {s t : Threads S σ α P} {a : Action P C}
    (hkeeps : π.Keeps h (fun _ _ => True) I)
    (hbody : ∀ p c, a = .start p c → π.wp (body c) (fun _ v => v = idle) idle)
    (hI : I s.state views) (hcov : π.Covers idle views s.threads)
    (hstep : s.step h body a = .ok () t) :
    ∃ views', I t.state views' ∧ π.Covers idle views' t.threads := by
  rcases Threads.step_cases hstep with ⟨p, c, ha, hidle, rfl⟩ | ⟨p, x, -, hret, rfl⟩ |
    ⟨p, o, k, r, u, -, hop, hok, rfl⟩
  · have hview : views p = idle := by
      have := hcov p
      rwa [hidle] at this
    refine ⟨views, hI, ?_⟩
    rw [← update_eq_self p views]
    apply hcov.update
    rw [hview]
    exact hbody p c ha
  · refine ⟨views, hI, ?_⟩
    rw [← update_eq_self p views]
    exact hcov.update (hcov.view hret)
  · obtain ⟨hpre, hpost⟩ := hcov.view hop
    obtain ⟨v, hv, hI'⟩ := hkeeps _ _ _ _ _ _ hI hpre trivial hok
    exact ⟨_, hI', hcov.update (hpost r v hv)⟩

end Rules

end Xv6.Lib
