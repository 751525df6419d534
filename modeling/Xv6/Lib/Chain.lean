import Mathlib.Logic.Function.Basic

/-!
# Linked lists in a store

`Chain next head l`: following `next` from `head` visits the nodes of `l` in order and ends.
-/

namespace Xv6.Lib

open List

variable {F : Type} {next next' : F → Option F} {head : Option F} {l : List F} {f : F}

def Chain (next : F → Option F) : Option F → List F → Prop
  | none, [] => True
  | some f, g :: l => f = g ∧ Chain next (next f) l
  | _, _ => False

namespace Chain

theorem eq_nil (h : Chain next none l) : l = [] := by
  cases l with
  | nil => rfl
  | cons g l => exact h.elim

theorem pop (h : Chain next (some f) l) : ∃ l', l = f :: l' ∧ Chain next (next f) l' := by
  cases l with
  | nil => exact h.elim
  | cons g l =>
    obtain ⟨rfl, h⟩ := h
    exact ⟨l, rfl, h⟩

variable (h : Chain next head l)

include h

theorem next_mem {g : F} (hf : f ∈ l) (hg : next f = some g) : g ∈ l := by
  induction l generalizing head with
  | nil => cases hf
  | cons x l ih =>
    cases head with
    | none => exact h.elim
    | some y =>
      obtain ⟨rfl, h⟩ := h
      rcases mem_cons.mp hf with rfl | hf
      · rw [hg] at h
        obtain ⟨l', rfl, -⟩ := h.pop
        simp
      · exact mem_cons_of_mem _ (ih h hf)

theorem congr (hsame : ∀ g ∈ l, next' g = next g) : Chain next' head l := by
  induction l generalizing head with
  | nil =>
    cases head with
    | none => trivial
    | some f => exact h.elim
  | cons g l ih =>
    cases head with
    | none => exact h.elim
    | some f =>
      obtain ⟨rfl, h⟩ := h
      refine ⟨rfl, ?_⟩
      rw [hsame f mem_cons_self]
      exact ih h fun g hg => hsame g (mem_cons_of_mem f hg)

theorem push (hf : f ∉ l) (hlink : next' f = head)
    (hsame : ∀ g, g ≠ f → next' g = next g) : Chain next' (some f) (f :: l) := by
  refine ⟨rfl, ?_⟩
  rw [hlink]
  apply h.congr
  intro g hg
  apply hsame
  rintro rfl
  exact hf hg

theorem append {head' : Option F} (hnodup : l.Nodup) (hf : f ∉ l)
    (hend : next' f = none) (hlink : ∀ g, l.getLast? = some g → next' g = some f)
    (hsame : ∀ g, g ≠ f → l.getLast? ≠ some g → next' g = next g)
    (hhead : head' = if l = [] then some f else head) : Chain next' head' (l ++ [f]) := by
  subst hhead
  induction l generalizing head with
  | nil =>
    refine ⟨rfl, ?_⟩
    rw [hend]
    trivial
  | cons x l ih =>
    cases head with
    | none => exact h.elim
    | some y =>
      obtain ⟨rfl, h⟩ := h
      refine ⟨rfl, ?_⟩
      cases l with
      | nil =>
        rw [hlink y rfl]
        refine ⟨rfl, ?_⟩
        rw [hend]
        trivial
      | cons z l =>
        have hlast : (y :: z :: l).getLast? = (z :: l).getLast? := List.getLast?_cons_cons
        rw [nodup_cons] at hnodup
        have hyf : y ≠ f := fun heq => hf (heq ▸ mem_cons_self)
        have hy : (y :: z :: l).getLast? ≠ some y := by
          rw [hlast]
          exact fun hmem => hnodup.1 (mem_of_getLast? hmem)
        rw [hsame y hyf hy]
        rw [hlast] at hlink hsame
        exact ih h hnodup.2 (fun hmem => hf (mem_cons_of_mem y hmem)) hlink hsame

end Chain

end Xv6.Lib
