import Mathlib.Data.Finset.Basic

/-!
# Numbered units and their owners

A pool of units with a mark for each unit that is taken.  The units below `lo`
are reserved; every other unit is taken exactly if one of the slots `κ` holds it
or it is loose, that is, between two owners.  A slot that holds nothing holds 0.
-/

namespace Xv6.Lib

open Function Finset

variable {κ : Type} {lo hi : Nat} {taken : Nat → Bool} {own : κ → Nat} {loose : Finset Nat}
  {a : Nat}

structure Pool (lo hi : Nat) (taken : Nat → Bool) (own : κ → Nat) (loose : Finset Nat) :
    Prop where
  lo_pos : 0 < lo
  reserved : ∀ b, b < lo → taken b = true
  range : ∀ k, own k ≠ 0 → lo ≤ own k ∧ own k < hi
  inj : ∀ k l, own k ≠ 0 → own k = own l → k = l
  loose_range : ∀ b ∈ loose, lo ≤ b ∧ b < hi
  loose_free : ∀ b ∈ loose, ∀ k, own k ≠ b
  taken_iff : ∀ b, lo ≤ b → b < hi → (taken b = true ↔ (∃ k, own k = b) ∨ b ∈ loose)

namespace Pool

variable (h : Pool lo hi taken own loose)

include h

theorem taken_own {k : κ} (hk : own k ≠ 0) : taken (own k) = true :=
  (h.taken_iff _ (h.range k hk).1 (h.range k hk).2).mpr (Or.inl ⟨k, rfl⟩)

theorem own_ne (ha : taken a = false) (k : κ) (hk : own k ≠ 0) : own k ≠ a := by
  rintro rfl
  rw [h.taken_own hk] at ha
  cases ha

theorem lo_le (ha : taken a = false) : lo ≤ a := by
  by_contra hlt
  rw [h.reserved a (by omega)] at ha
  cases ha

theorem congr {taken' : Nat → Bool} (hle : lo ≤ hi)
    (hsame : ∀ b, b < hi → taken' b = taken b) : Pool lo hi taken' own loose where
  lo_pos := h.lo_pos
  reserved := fun b hb => by rw [hsame b (by omega), h.reserved b hb]
  range := h.range
  inj := h.inj
  loose_range := h.loose_range
  loose_free := h.loose_free
  taken_iff := fun b hlo hhi => by rw [hsame b hhi, h.taken_iff b hlo hhi]

theorem alloc (ha : taken a = false) (hhi : a < hi) :
    Pool lo hi (update taken a true) own (insert a loose) where
  lo_pos := h.lo_pos
  reserved := by
    intro b hb
    by_cases hba : b = a
    · simp [hba]
    · rw [update_of_ne hba, h.reserved b hb]
  range := h.range
  inj := h.inj
  loose_range := by
    intro b hb
    rcases mem_insert.mp hb with rfl | hb
    · exact ⟨h.lo_le ha, hhi⟩
    · exact h.loose_range b hb
  loose_free := by
    intro b hb k hk
    rcases mem_insert.mp hb with rfl | hb
    · exact h.own_ne ha k (by have := h.lo_le ha; have := h.lo_pos; omega) hk
    · exact h.loose_free b hb k hk
  taken_iff := by
    intro b hlo hhi'
    by_cases hba : b = a
    · subst hba
      simp
    · rw [update_of_ne hba, h.taken_iff b hlo hhi', mem_insert]
      simp [hba]

theorem attach [DecidableEq κ] (ha : a ∈ loose) {k : κ} (hk : own k = 0) :
    Pool lo hi taken (update own k a) (loose.erase a) where
  lo_pos := h.lo_pos
  reserved := h.reserved
  range := by
    intro l hl
    by_cases hlk : l = k
    · subst hlk
      rw [update_self]
      exact h.loose_range a ha
    · rw [update_of_ne hlk] at hl ⊢
      exact h.range l hl
  inj := by
    intro l m hl heq
    by_cases hlk : l = k
    · subst hlk
      by_cases hml : m = l
      · exact hml.symm
      · rw [update_self, update_of_ne hml] at heq
        exact absurd heq.symm (h.loose_free a ha m)
    · rw [update_of_ne hlk] at hl heq
      by_cases hmk : m = k
      · subst hmk
        rw [update_self] at heq
        exact absurd heq (h.loose_free a ha l)
      · rw [update_of_ne hmk] at heq
        exact h.inj l m hl heq
  loose_range := fun b hb => h.loose_range b (mem_of_mem_erase hb)
  loose_free := by
    intro b hb l
    by_cases hlk : l = k
    · subst hlk
      rw [update_self]
      exact (ne_of_mem_erase hb).symm
    · rw [update_of_ne hlk]
      exact h.loose_free b (mem_of_mem_erase hb) l
  taken_iff := by
    intro b hlo hhi
    rw [h.taken_iff b hlo hhi, mem_erase]
    have hpos := h.lo_pos
    constructor
    · rintro (⟨l, rfl⟩ | hb)
      · have hlk : l ≠ k := by
          rintro rfl
          omega
        exact Or.inl ⟨l, update_of_ne hlk _ _⟩
      · by_cases hba : b = a
        · exact Or.inl ⟨k, by rw [hba, update_self]⟩
        · exact Or.inr ⟨hba, hb⟩
    · rintro (⟨l, rfl⟩ | ⟨-, hb⟩)
      · by_cases hlk : l = k
        · subst hlk
          rw [update_self]
          exact Or.inr ha
        · rw [update_of_ne hlk]
          exact Or.inl ⟨l, rfl⟩
      · exact Or.inr hb

end Pool

end Xv6.Lib
