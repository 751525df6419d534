import Mathlib.Data.List.Basic

/-!
# Text

Strings that end at a mark, and texts cut into pieces at a separator that is kept at the
head of the piece it opens.
-/

namespace Xv6.Lib

open List

variable {α : Type} [DecidableEq α] {z a : α} {l r u w : List α}

def before (z : α) (l : List α) : List α := l.takeWhile (· ≠ z)

@[simp] theorem before_nil : before z [] = [] := rfl

@[simp] theorem before_cons_self : before z (z :: r) = [] := by simp [before]

theorem before_cons_of_ne (h : a ≠ z) : before z (a :: r) = a :: before z r := by
  simp [before, h]

theorem before_append (h : z ∉ w) : before z (w ++ r) = w ++ before z r := by
  induction w with
  | nil => rfl
  | cons a w ih =>
    obtain ⟨ha, hw⟩ := not_or.mp (mt mem_cons.mpr h)
    rw [cons_append, before_cons_of_ne (Ne.symm ha), ih hw, cons_append]

theorem before_of_notMem (h : z ∉ w) : before z w = w := by
  simpa using before_append (r := []) h

theorem before_stop (h : z ∉ w) : before z (w ++ z :: r) = w := by
  rw [before_append h, before_cons_self, append_nil]

theorem before_eq_of_getD (hw : z ∉ w) (hl : ∀ i, i < w.length → l.getD i z = w.getD i z)
    (hstop : l.getD w.length z = z) : before z l = w := by
  induction w generalizing l with
  | nil =>
    cases l with
    | nil => rfl
    | cons b l =>
      have hb : b = z := hstop
      rw [hb, before_cons_self]
  | cons b w ih =>
    rw [mem_cons, not_or] at hw
    have hfirst := hl 0 (Nat.zero_lt_succ _)
    cases l with
    | nil => exact absurd hfirst hw.1
    | cons c l =>
      have hc : c = b := hfirst
      rw [hc, before_cons_of_ne (Ne.symm hw.1),
        ih hw.2 (fun i hi => hl (i + 1) (Nat.succ_lt_succ hi)) hstop]

theorem notMem_before : z ∉ before z l := by
  induction l with
  | nil => simp
  | cons a l ih =>
    by_cases ha : a = z
    · simp [ha]
    · rw [before_cons_of_ne ha]
      exact fun h => (mem_cons.mp h).elim (Ne.symm ha) ih

theorem before_append_of_mem (h : z ∈ l) : before z (l ++ r) = before z l := by
  induction l with
  | nil => simp at h
  | cons a l ih =>
    by_cases ha : a = z
    · subst ha
      simp
    · rw [cons_append, before_cons_of_ne ha, before_cons_of_ne ha,
        ih ((mem_cons.mp h).resolve_left (Ne.symm ha))]

theorem before_sublist : (before z l).Sublist l := takeWhile_sublist _

theorem length_before_le : (before z l).length ≤ l.length := before_sublist.length_le

theorem exists_eq_before (h : z ∈ l) : ∃ r, l = before z l ++ z :: r := by
  induction l with
  | nil => simp at h
  | cons a l ih =>
    by_cases ha : a = z
    · exact ⟨l, by simp [ha]⟩
    · obtain ⟨r, hr⟩ := ih ((mem_cons.mp h).resolve_left (Ne.symm ha))
      exact ⟨r, by rw [before_cons_of_ne ha, cons_append, ← hr]⟩

theorem length_before_lt_iff : (before z l).length < l.length ↔ z ∈ l := by
  constructor
  · intro h
    by_contra hz
    rw [before_of_notMem hz] at h
    exact absurd h (Nat.lt_irrefl _)
  · intro h
    obtain ⟨r, hr⟩ := exists_eq_before h
    have := congrArg List.length hr
    rw [length_append, length_cons] at this
    omega

theorem take_before (k : Nat) (hk : k ≤ (before z l).length) : l.take k = (before z l).take k := by
  by_cases hz : z ∈ l
  · obtain ⟨r, hr⟩ := exists_eq_before hz
    conv_lhs => rw [hr]
    exact take_append_of_le_length hk
  · rw [before_of_notMem hz]

theorem before_set (k : Nat) (hk : k ≤ (before z l).length) (hkl : k < l.length) (ha : a ≠ z) :
    before z (l.set k a) = (before z l).take k ++ a :: before z (l.drop (k + 1)) := by
  rw [set_eq_take_append_cons_drop, if_pos hkl, take_before k hk, before_append,
    before_cons_of_ne ha]
  exact fun h => notMem_before (mem_of_mem_take h)

theorem before_set_of_gt (k : Nat) (hk : (before z l).length < k) :
    before z (l.set k a) = before z l := by
  by_cases hz : z ∈ l
  · obtain ⟨r, hr⟩ := exists_eq_before hz
    conv_lhs => rw [hr]
    rw [set_append_right _ _ (by omega)]
    cases hn : k - (before z l).length with
    | zero => omega
    | succ n => rw [set_cons_succ, before_stop notMem_before]
  · have hlen : l.length ≤ k := by
      rw [before_of_notMem hz] at hk
      omega
    rw [set_eq_of_length_le hlen]

/-- The pieces of a text that another one follows, and the last piece; `acc` is what the
first piece already holds. -/
def cut (z : α) (acc : List α) : List α → List (List α) × List α
  | [] => ([], acc)
  | a :: l =>
    if a = z then (acc :: (cut z [z] l).1, (cut z [z] l).2) else cut z (acc ++ [a]) l

def pieces (z : α) (acc l : List α) : List (List α) := (cut z acc l).1 ++ [(cut z acc l).2]

@[simp] theorem pieces_nil (acc : List α) : pieces z acc [] = [acc] := rfl

@[simp] theorem pieces_cons_self (acc : List α) :
    pieces z acc (z :: l) = acc :: pieces z [z] l := by
  simp [pieces, cut]

theorem pieces_cons_of_ne (acc : List α) (h : a ≠ z) :
    pieces z acc (a :: l) = pieces z (acc ++ [a]) l := by
  simp [pieces, cut, h]

theorem pieces_flatten (acc l : List α) : (pieces z acc l).flatten = acc ++ l := by
  induction l generalizing acc with
  | nil => simp
  | cons a l ih =>
    by_cases ha : a = z
    · subst ha
      simp [ih]
    · simp [pieces_cons_of_ne acc ha, ih]

theorem pieces_append (acc : List α) (h : z ∉ u) :
    pieces z acc (u ++ r) = pieces z (acc ++ u) r := by
  induction u generalizing acc with
  | nil => simp
  | cons a u ih =>
    obtain ⟨ha, hu⟩ := not_or.mp (mt mem_cons.mpr h)
    rw [cons_append, pieces_cons_of_ne acc (Ne.symm ha), ih _ hu, append_assoc, singleton_append]

def Cuts (z : α) (L : List (List α)) : Prop :=
  ∃ (t : List α) (ts : List (List α)), z ∉ t ∧ (∀ s ∈ ts, z ∉ s) ∧ L = t :: ts.map (z :: ·)

theorem pieces_rows (acc t : List α) (ts : List (List α)) (ht : z ∉ t) (hts : ∀ s ∈ ts, z ∉ s) :
    pieces z acc (t ++ (ts.map (z :: ·)).flatten) = (acc ++ t) :: ts.map (z :: ·) := by
  induction ts generalizing acc t with
  | nil => exact pieces_append (r := []) acc ht
  | cons s ts ih =>
    have hs := ih [z] s (hts s (by simp)) fun s' hs' => hts s' (by simp [hs'])
    rw [pieces_append _ ht, map_cons, flatten_cons, cons_append, pieces_cons_self, hs]
    rfl

theorem Cuts.pieces_flatten {L : List (List α)} (h : Cuts z L) : pieces z [] L.flatten = L := by
  obtain ⟨t, ts, ht, hts, rfl⟩ := h
  exact pieces_rows [] t ts ht hts

theorem cuts_pieces (z : α) (l : List α) : Cuts z (pieces z [] l) := by
  suffices h : ∀ acc, z ∉ acc → Cuts z (pieces z acc l) from h [] (by simp)
  induction l with
  | nil => exact fun acc h => ⟨acc, [], h, by simp, rfl⟩
  | cons a l ih =>
    intro acc hacc
    by_cases ha : a = z
    · subst ha
      obtain ⟨t, ts, ht, hts, hp⟩ := ih [] (by simp)
      refine ⟨acc, t :: ts, hacc, by simpa using ⟨ht, hts⟩, ?_⟩
      have hl : l = t ++ (ts.map (a :: ·)).flatten := by
        simpa [hp] using (Lib.pieces_flatten (z := a) [] l).symm
      rw [pieces_cons_self, hl, pieces_rows [a] t ts ht hts]
      rfl
    · rw [pieces_cons_of_ne acc ha]
      exact ih _ (by simp [hacc, Ne.symm ha])

def Replaces (z : α) (p p' : List α) : Prop :=
  (z ∉ p → z ∉ p') ∧ ∀ s, z ∉ s → p = z :: s → ∃ s', z ∉ s' ∧ p' = z :: s'

omit [DecidableEq α] in
theorem exists_replaced {ts L' : List (List α)} (hts : ∀ s ∈ ts, z ∉ s)
    (h : List.Forall₂ (Replaces z) (ts.map (z :: ·)) L') :
    ∃ ts' : List (List α), (∀ s ∈ ts', z ∉ s) ∧ L' = ts'.map (z :: ·) := by
  induction ts generalizing L' with
  | nil =>
    cases h
    exact ⟨[], by simp, rfl⟩
  | cons s ts ih =>
    cases h with
    | cons h0 h =>
      obtain ⟨s', hs', rfl⟩ := h0.2 s (hts s (by simp)) rfl
      obtain ⟨ts', hts', rfl⟩ := ih (fun s hs => hts s (by simp [hs])) h
      exact ⟨s' :: ts', by simpa using ⟨hs', hts'⟩, rfl⟩

omit [DecidableEq α] in
theorem Cuts.replace {L L' : List (List α)} (h : Cuts z L)
    (hr : List.Forall₂ (Replaces z) L L') : Cuts z L' := by
  obtain ⟨t, ts, ht, hts, rfl⟩ := h
  cases hr with
  | cons h0 hr =>
    obtain ⟨ts', hts', rfl⟩ := exists_replaced hts hr
    exact ⟨_, ts', h0.1 ht, hts', rfl⟩

end Xv6.Lib
