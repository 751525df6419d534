import Mathlib.Tactic.SplitIfs

/-!
# A finite map in a list of slots

Each slot is empty or holds a key and a value.  A new entry goes into the first empty slot or to
the end, and an entry is removed by emptying its slot.  As long as no key stands in two slots, the
list is a finite map and every change of one key leaves the others alone.
-/

namespace Xv6.Lib

variable {K V : Type} [DecidableEq K]

abbrev Slots (K V : Type) := List (Option (K × V))

namespace Slots

def find (k : K) : Slots K V → Option (Nat × V)
  | [] => none
  | none :: s => (find k s).map fun x => (x.1 + 1, x.2)
  | some (k', v) :: s => if k = k' then some (0, v) else (find k s).map fun x => (x.1 + 1, x.2)

def firstFree : Slots K V → Nat
  | [] => 0
  | none :: _ => 0
  | some _ :: s => firstFree s + 1

def put (s : Slots K V) (i : Nat) (x : Option (K × V)) : Slots K V :=
  if i < s.length then s.set i x else s ++ [x]

def Unique (s : Slots K V) : Prop :=
  ∀ (i j : Nat) (k : K) (v w : V), s[i]? = some (some (k, v)) → s[j]? = some (some (k, w)) → i = j

variable {s : Slots K V} {k k' : K} {v : V} {i j : Nat} {x : Option (K × V)}

theorem find_eq_some (h : find k s = some (i, v)) : s[i]? = some (some (k, v)) := by
  induction s generalizing i with
  | nil => cases h
  | cons e s ih =>
    cases e with
    | none =>
      obtain ⟨⟨j, w⟩, hj, heq⟩ := Option.map_eq_some_iff.mp h
      cases heq
      exact ih hj
    | some e =>
      obtain ⟨k', w⟩ := e
      rw [find] at h
      split at h
      · case _ hk =>
        cases h
        rw [hk]
        rfl
      · obtain ⟨⟨j, w⟩, hj, heq⟩ := Option.map_eq_some_iff.mp h
        cases heq
        exact ih hj

theorem find_eq_none (h : find k s = none) (i : Nat) (v : V) : s[i]? ≠ some (some (k, v)) := by
  induction s generalizing i with
  | nil => exact fun hi => by simp at hi
  | cons e s ih =>
    have hrest : find k s = none := by
      cases e with
      | none => simpa [find] using h
      | some e =>
        rw [find] at h
        split at h
        · cases h
        · simpa using h
    cases i with
    | zero =>
      intro hi
      cases hi
      simp [find] at h
    | succ i => exact ih hrest i

theorem Unique.find_iff (h : Unique s) : find k s = some (i, v) ↔ s[i]? = some (some (k, v)) := by
  refine ⟨find_eq_some, fun hi => ?_⟩
  cases hfind : find k s with
  | none => exact absurd hi (find_eq_none hfind i v)
  | some x =>
    obtain ⟨j, w⟩ := x
    have hj := find_eq_some hfind
    obtain rfl := h i j k v w hi hj
    rw [hi] at hj
    cases hj
    rfl

omit [DecidableEq K] in
theorem firstFree_le (s : Slots K V) : firstFree s ≤ s.length := by
  induction s with
  | nil => exact Nat.le_refl 0
  | cons e s ih =>
    cases e with
    | none => exact Nat.zero_le _
    | some e => exact Nat.succ_le_succ ih

omit [DecidableEq K] in
theorem get_firstFree (s : Slots K V) (e : K × V) : s[firstFree s]? ≠ some (some e) := by
  induction s with
  | nil => exact fun h => by simp at h
  | cons x s ih =>
    cases x with
    | none => exact fun h => by simp [firstFree] at h
    | some x => exact ih

omit [DecidableEq K] in
theorem get_put (s : Slots K V) (hi : i ≤ s.length) (x : Option (K × V)) (j : Nat) :
    (s.put i x)[j]? = if j = i then some x else s[j]? := by
  unfold put
  split_ifs with hlt hj hj
  · subst hj
    rw [List.getElem?_set_self hlt]
  · rw [List.getElem?_set_ne (Ne.symm hj)]
  · have heq : i = s.length := by omega
    rw [hj, heq, List.getElem?_concat_length]
  · by_cases hin : j < s.length
    · rw [List.getElem?_append_left hin]
    · rw [List.getElem?_eq_none (by simp; omega), List.getElem?_eq_none (by omega)]

section Add

variable (h : Unique s) (hnew : find k s = none) (hi : i ≤ s.length)
  (hfree : ∀ e, s[i]? ≠ some (some e))

include h hnew hi

theorem Unique.add : Unique (s.put i (some (k, v))) := by
  intro a b k' w w' ha hb
  rw [get_put s hi] at ha hb
  split_ifs at ha hb with hai hbi hbi
  · rw [hai, hbi]
  · cases ha
    exact absurd hb (find_eq_none hnew b w')
  · cases hb
    exact absurd ha (find_eq_none hnew a w)
  · exact h a b k' w w' ha hb

theorem find_add : find k (s.put i (some (k, v))) = some (i, v) := by
  rw [(h.add hnew hi).find_iff, get_put s hi, if_pos rfl]

include hfree

theorem find_add_ne (hk : k' ≠ k) : find k' (s.put i (some (k, v))) = find k' s := by
  apply Option.ext
  intro ⟨j, w⟩
  rw [(h.add hnew hi).find_iff, h.find_iff, get_put s hi]
  split_ifs with hj
  · subst hj
    refine iff_of_false (fun heq => ?_) (hfree _)
    cases heq
    exact hk rfl
  · exact Iff.rfl

end Add

section Remove

variable (h : Unique s) (hfound : find k s = some (i, v))

include hfound in
theorem find_lt : i < s.length := by
  obtain ⟨hi, -⟩ := List.getElem?_eq_some_iff.mp (find_eq_some hfound)
  exact hi

include h hfound

theorem Unique.remove : Unique (s.put i none) := by
  intro a b k' w w' ha hb
  rw [get_put s (Nat.le_of_lt (find_lt hfound))] at ha hb
  split_ifs at ha hb with hai hbi hbi
  · cases ha
  · cases ha
  · cases hb
  · exact h a b k' w w' ha hb

theorem find_remove : find k (s.put i none) = none := by
  cases hfind : find k (s.put i none) with
  | none => rfl
  | some x =>
    obtain ⟨j, w⟩ := x
    have hj := find_eq_some hfind
    rw [get_put s (Nat.le_of_lt (find_lt hfound))] at hj
    split_ifs at hj with hji
    · cases hj
    · exact absurd (h j i k w v hj (find_eq_some hfound)) hji

theorem find_remove_ne (hk : k' ≠ k) : find k' (s.put i none) = find k' s := by
  apply Option.ext
  intro ⟨j, w⟩
  rw [(h.remove hfound).find_iff, h.find_iff, get_put s (Nat.le_of_lt (find_lt hfound))]
  split_ifs with hj
  · subst hj
    refine iff_of_false nofun fun heq => ?_
    rw [find_eq_some hfound] at heq
    cases heq
    exact hk rfl
  · exact Iff.rfl

end Remove

end Slots

end Xv6.Lib
