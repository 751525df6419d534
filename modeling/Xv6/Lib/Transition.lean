import Xv6.Lib.Prog

/-!
# Runs of a transition system

A system is a step function from a state and the action some party takes.  A
`Trace` is a finite run that keeps its history, latest step first, each step
with the state it was taken in; invariants may then speak about the history as
well as about the state.
-/

namespace Xv6.Lib

open List

variable {σ A : Type} {step : σ → A → Outcome σ Unit} {s0 : σ} {tr : List (σ × A)}

inductive Trace (step : σ → A → Outcome σ Unit) (s0 : σ) : List (σ × A) → σ → Prop where
  | nil : Trace step s0 [] s0
  | cons {tr : List (σ × A)} {s s' : σ} {a : A} (htr : Trace step s0 tr s)
      (hstep : step s a = .ok () s') : Trace step s0 ((s, a) :: tr) s'

namespace Trace

theorem invariant {I : List (σ × A) → σ → Prop} (hinit : I [] s0)
    (hnext : ∀ tr s a s', Trace step s0 tr s → I tr s → step s a = .ok () s' → I ((s, a) :: tr) s')
    {s : σ} (htr : Trace step s0 tr s) : I tr s := by
  induction htr with
  | nil => exact hinit
  | cons htr hstep ih => exact hnext _ _ _ _ htr ih hstep

theorem cut {xs tr : List (σ × A)} {s t : σ} {a : A} (htr : Trace step s0 (xs ++ (s, a) :: tr) t) :
    Trace step s0 tr s ∧ ∃ s', step s a = .ok () s' := by
  induction xs generalizing t with
  | nil =>
    cases htr with
    | cons htr hstep => exact ⟨htr, _, hstep⟩
  | cons x xs ih =>
    cases htr with
    | cons htr _ => exact ih htr

/-- What holds after the first part of a run and is kept by the steps of the rest. -/
theorem since {I : σ → Prop} {xs tr : List (σ × A)} {s : σ} (htr : Trace step s0 (xs ++ tr) s)
    (hstart : ∀ t, Trace step s0 tr t → I t)
    (hnext : ∀ tr s a s', Trace step s0 tr s → I s → (s, a) ∈ xs → step s a = .ok () s' → I s') :
    I s := by
  induction xs generalizing s with
  | nil => exact hstart s htr
  | cons x xs ih =>
    cases htr with
    | cons htr hstep =>
      have hlast := ih htr fun tr s a s' htr hs hmem =>
        hnext tr s a s' htr hs (mem_cons_of_mem _ hmem)
      exact hnext _ _ _ _ htr hlast mem_cons_self hstep

end Trace

/-- Take the listed actions in order, if all of them are possible. -/
def record (step : σ → A → Outcome σ Unit) :
    List (σ × A) → σ → List A → Option (List (σ × A) × σ)
  | tr, s, [] => some (tr, s)
  | tr, s, a :: rest =>
    match step s a with
    | .ok _ s' => record step ((s, a) :: tr) s' rest
    | _ => none

theorem Trace.record {tr tr' : List (σ × A)} {s t : σ} {as : List A} (htr : Trace step s0 tr s)
    (h : Lib.record step tr s as = some (tr', t)) :
    Trace step s0 tr' t ∧ tr'.map Prod.snd = as.reverse ++ tr.map Prod.snd := by
  induction as generalizing tr s with
  | nil =>
    cases h
    exact ⟨htr, rfl⟩
  | cons a rest ih =>
    rw [Lib.record] at h
    split at h
    · rename_i s' hstep
      obtain ⟨htr', hacts⟩ := ih (.cons htr hstep) h
      refine ⟨htr', ?_⟩
      rw [hacts, reverse_cons, append_assoc]
      rfl
    · cases h

theorem Trace.of_record (step : σ → A → Outcome σ Unit) (s0 : σ) (as : List A)
    (good : List (σ × A) → σ → Bool)
    (h : (Lib.record step [] s0 as).map (fun x => good x.1 x.2) = some true) :
    ∃ tr s, Trace step s0 tr s ∧ tr.map Prod.snd = as.reverse ∧ good tr s = true := by
  rw [Option.map_eq_some_iff] at h
  obtain ⟨⟨tr, s⟩, hrecord, hgood⟩ := h
  obtain ⟨htr, hacts⟩ := Trace.record .nil hrecord
  exact ⟨tr, s, htr, by simpa using hacts, hgood⟩

theorem Trace.of_actions (step : σ → A → Outcome σ Unit) (s0 : σ) (as : List A) (good : σ → Bool)
    (h : (Lib.record step [] s0 as).map (fun x => good x.2) = some true) :
    ∃ tr s, Trace step s0 tr s ∧ tr.map Prod.snd = as.reverse ∧ good s = true :=
  Trace.of_record step s0 as (fun _ s => good s) h

/-- The actions pass the test `ok` in the states they are taken in. -/
theorem Trace.of_play (step : σ → A → Outcome σ Unit) (ok : σ → A → Bool) (s0 : σ) (as : List A)
    (good : σ → Bool) (h : (Lib.record step [] s0 as).map
      (fun x => x.1.all (fun y => ok y.1 y.2) && good x.2) = some true) :
    ∃ tr s, Trace step s0 tr s ∧ (∀ x ∈ tr, ok x.1 x.2 = true) ∧ good s = true := by
  obtain ⟨tr, s, htr, -, hgood⟩ := Trace.of_record step s0 as
    (fun tr s => tr.all (fun y => ok y.1 y.2) && good s) h
  rw [Bool.and_eq_true, all_eq_true] at hgood
  exact ⟨tr, s, htr, hgood.1, hgood.2⟩

end Xv6.Lib
