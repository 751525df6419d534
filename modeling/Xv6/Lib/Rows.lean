import Xv6.Lib.Text

/-!
# Texts by rows

A text as its rows, and as the pieces that the separator opens.  What an edit of one row
does to the text, and when an edit of one piece does the same.
-/

namespace Xv6.Lib

open List

variable {α : Type} {z x : α} {rows rows' : List (List α)} {row u : List α} {r c : Nat}

def opened (z : α) : List (List α) → List (List α)
  | [] => []
  | t :: ts => t :: ts.map (z :: ·)

def joinRows (z : α) (rows : List (List α)) : List α := (opened z rows).flatten

theorem length_opened : (opened z rows).length = rows.length := by
  cases rows with
  | nil => rfl
  | cons t ts => rw [opened, length_cons, length_map, length_cons]

theorem getElem?_opened_zero : (opened z rows)[0]? = rows[0]? := by
  cases rows <;> rfl

theorem getElem?_opened (hr : r ≠ 0) : (opened z rows)[r]? = rows[r]?.map (z :: ·) := by
  obtain ⟨n, rfl⟩ := Nat.exists_eq_succ_of_ne_zero hr
  cases rows with
  | nil => rfl
  | cons t ts => rw [opened, getElem?_cons_succ, getElem?_cons_succ, getElem?_map]

theorem opened_set_zero (u : List α) : (opened z rows).set 0 u = opened z (rows.set 0 u) := by
  cases rows <;> rfl

theorem opened_set (hr : r ≠ 0) (u : List α) :
    (opened z rows).set r (z :: u) = opened z (rows.set r u) := by
  obtain ⟨n, rfl⟩ := Nat.exists_eq_succ_of_ne_zero hr
  cases rows with
  | nil => rfl
  | cons t ts => rw [opened, set_cons_succ, set_cons_succ, opened, map_set]

theorem joinRows_cons_cons (t t' : List α) (ts : List (List α)) :
    joinRows z (t :: t' :: ts) = t ++ z :: joinRows z (t' :: ts) := by
  simp [joinRows, opened]

theorem exists_joinRows_set (h : r < rows.length) : ∃ pre, ∀ u, joinRows z (rows.set r u) =
      pre ++ (u ++ ((rows.drop (r + 1)).map (z :: ·)).flatten) := by
  cases rows with
  | nil => simp at h
  | cons t ts =>
    cases r with
    | zero => exact ⟨[], fun u => by simp [joinRows, opened]⟩
    | succ r =>
      rw [length_cons] at h
      refine ⟨t ++ ((ts.take r).map (z :: ·)).flatten ++ [z], fun u => ?_⟩
      rw [set_cons_succ, set_eq_take_append_cons_drop, if_pos (by omega)]
      simp [joinRows, opened]

theorem joinRows_split (h : rows[r]? = some row) : ∃ pre, (∀ u, joinRows z (rows.set r u) =
        pre ++ (u ++ ((rows.drop (r + 1)).map (z :: ·)).flatten)) ∧
      joinRows z rows = pre ++ (row ++ ((rows.drop (r + 1)).map (z :: ·)).flatten) := by
  obtain ⟨hr, hget⟩ := List.getElem?_eq_some_iff.mp h
  obtain ⟨pre, hpre⟩ := exists_joinRows_set (z := z) hr
  refine ⟨pre, hpre, ?_⟩
  have hself : rows.set r row = rows := by
    rw [← hget]
    exact set_getElem_self hr
  rw [← hpre row, hself]

theorem forall_mem_set (hrows : ∀ s ∈ rows, z ∉ s) (hu : z ∉ u) : ∀ s ∈ rows.set r u, z ∉ s := by
  intro s hs
  rcases mem_or_eq_of_mem_set hs with hs | rfl
  · exact hrows s hs
  · exact hu

theorem joinRows_inj [DecidableEq α] (hne : rows ≠ []) (hne' : rows' ≠ [])
    (hrows : ∀ s ∈ rows, z ∉ s) (hrows' : ∀ s ∈ rows', z ∉ s)
    (h : joinRows z rows = joinRows z rows') : rows = rows' := by
  obtain ⟨t, ts, rfl⟩ := exists_cons_of_ne_nil hne
  obtain ⟨t', ts', rfl⟩ := exists_cons_of_ne_nil hne'
  obtain ⟨ht, hts⟩ := forall_mem_cons.mp hrows
  obtain ⟨ht', hts'⟩ := forall_mem_cons.mp hrows'
  have hcuts : Cuts z (opened z (t :: ts)) := ⟨t, ts, ht, hts, rfl⟩
  have hcuts' : Cuts z (opened z (t' :: ts')) := ⟨t', ts', ht', hts', rfl⟩
  have heq : opened z (t :: ts) = opened z (t' :: ts') := by
    rw [← hcuts.pieces_flatten, ← hcuts'.pieces_flatten]
    exact congrArg (pieces z []) h
  obtain ⟨h0, hmap⟩ := cons.inj heq
  rw [h0, map_injective_iff.mpr cons_injective hmap]

theorem joinRows_set_inj (h : rows[r]? = some row) {u v : List α} :
    joinRows z (rows.set r u) = joinRows z (rows.set r v) ↔ u = v := by
  obtain ⟨pre, hpre, -⟩ := joinRows_split (z := z) h
  rw [hpre, hpre, append_cancel_left_eq, append_cancel_right_eq]

theorem joinRows_set_self (h : rows[r]? = some row) {v : List α} :
    joinRows z rows = joinRows z (rows.set r v) ↔ row = v := by
  obtain ⟨pre, hpre, hself⟩ := joinRows_split (z := z) h
  rw [hpre, hself, append_cancel_left_eq, append_cancel_right_eq]

theorem forall_eq_of_rotate {l : List α} (h : l ++ [z] = z :: l) : ∀ a ∈ l, a = z := by
  induction l with
  | nil => simp
  | cons b l ih =>
    rw [cons_append, cons.injEq] at h
    obtain ⟨rfl, h⟩ := h
    exact forall_mem_cons.mpr ⟨rfl, ih h⟩

theorem rest_empty_of_end (hrows : ∀ s ∈ rows, z ∉ s) (h : rows[r]? = some row) (k : Nat)
    (heq : joinRows z rows ++ [z] = joinRows z (rows.set r (row.take k ++ z :: row.drop k))) :
    ∀ s ∈ rows.drop (r + 1), s = [] := by
  obtain ⟨pre, hpre, hself⟩ := joinRows_split (z := z) h
  have hrotate : row.drop k ++ ((rows.drop (r + 1)).map (z :: ·)).flatten ++ [z] =
      z :: (row.drop k ++ ((rows.drop (r + 1)).map (z :: ·)).flatten) := by
    rw [hpre, hself, append_assoc, append_cancel_left_eq] at heq
    refine append_cancel_left (?_ : row.take k ++ _ = row.take k ++ _)
    rw [append_assoc, ← append_assoc (row.take k), take_append_drop,
      ← append_assoc, heq, append_assoc, cons_append]
  intro s hs
  rw [eq_nil_iff_forall_not_mem]
  intro a ha
  have hz : a = z := by
    refine forall_eq_of_rotate hrotate a (mem_append_right _ ?_)
    rw [mem_flatten]
    exact ⟨z :: s, mem_map.mpr ⟨s, hs, rfl⟩, mem_cons_of_mem _ ha⟩
  exact hrows s (mem_of_mem_drop hs) (hz ▸ ha)

theorem end_of_rest_empty (h : rows[r]? = some row) (hrest : ∀ s ∈ rows.drop (r + 1), s = []) :
    joinRows z rows ++ [z] = joinRows z (rows.set r (row ++ [z])) := by
  obtain ⟨pre, hpre, hself⟩ := joinRows_split (z := z) h
  have hflat : ((rows.drop (r + 1)).map (z :: ·)).flatten =
      replicate (rows.drop (r + 1)).length z := by
    rw [eq_replicate_of_mem hrest, map_replicate, length_replicate, flatten_replicate_singleton]
  rw [hpre, hself, hflat, append_assoc, append_assoc, append_assoc,
    ← replicate_succ', singleton_append, replicate_succ]

theorem eraseIdx_pred_eq_iff (h0 : c ≠ 0) :
    u.eraseIdx (c - 1) = u.eraseIdx c ↔ u[c - 1]? = u[c]? := by
  constructor
  · intro h
    have hget := congrArg (·[c - 1]?) h
    simp only [getElem?_eraseIdx] at hget
    rw [if_neg (by omega), if_pos (by omega), show c - 1 + 1 = c by omega] at hget
    exact hget.symm
  · intro h
    apply ext_getElem?
    intro i
    rw [getElem?_eraseIdx, getElem?_eraseIdx]
    split_ifs with h1 h2 h2
    · rfl
    · omega
    · obtain rfl : i = c - 1 := by omega
      rw [h, show c - 1 + 1 = c by omega]
    · rfl

theorem set_pred_eq_iff (h0 : c ≠ 0) (hc : c < u.length) :
    u.set (c - 1) x = u.set c x ↔ u[c - 1]? = some x ∧ u[c]? = some x := by
  constructor
  · intro h
    have hpred : (u.set (c - 1) x)[c - 1]? = (u.set c x)[c - 1]? := by rw [h]
    have hself : (u.set (c - 1) x)[c]? = (u.set c x)[c]? := by rw [h]
    rw [getElem?_set_self (by omega), getElem?_set_ne (by omega)] at hpred
    rw [getElem?_set_self hc, getElem?_set_ne (by omega)] at hself
    exact ⟨hpred.symm, hself⟩
  · rintro ⟨hpred, hself⟩
    obtain ⟨h1, h1'⟩ := List.getElem?_eq_some_iff.mp hpred
    obtain ⟨h2, h2'⟩ := List.getElem?_eq_some_iff.mp hself
    have e1 : u.set (c - 1) x = u := by rw [← h1', set_getElem_self]
    have e2 : u.set c x = u := by rw [← h2', set_getElem_self]
    rw [e1, e2]

theorem eq_set_iff (hc : c < u.length) : u = u.set c x ↔ u[c]? = some x := by
  constructor
  · intro h
    rw [h, getElem?_set, if_pos rfl, if_pos hc]
  · intro h
    obtain ⟨h', hx⟩ := List.getElem?_eq_some_iff.mp h
    rw [← hx, set_getElem_self]

theorem flatten_set_ne [DecidableEq α] {s : Nat} {p : List α} (hrows : ∀ s ∈ rows, z ∉ s)
    (h : rows[r]? = some row) (hs : (opened z rows)[s]? = some (z :: p)) (hu : z ∉ u) :
    ((opened z rows).set s p).flatten ≠ joinRows z (rows.set r u) := by
  intro heq
  obtain ⟨pre, hpre, hself⟩ := joinRows_split (z := z) h
  obtain ⟨hlt, hget⟩ := List.getElem?_eq_some_iff.mp hs
  have hsplit : joinRows z rows = ((opened z rows).take s).flatten ++
      (z :: p ++ ((opened z rows).drop (s + 1)).flatten) := by
    rw [joinRows]
    nth_rewrite 1 [← take_append_drop s (opened z rows)]
    rw [drop_eq_getElem_cons hlt, hget, flatten_append, flatten_cons]
  have hcount := congrArg (count z) heq
  have hcount' := congrArg (count z) (hsplit.symm.trans hself)
  rw [set_eq_take_append_cons_drop, if_pos hlt, hpre] at hcount
  have hrow : z ∉ row := hrows row (mem_of_getElem? h)
  simp only [flatten_append, flatten_cons, count_append, cons_append,
    count_cons_self, count_eq_zero_of_not_mem hu, count_eq_zero_of_not_mem hrow]
    at hcount hcount'
  omega

/-- Removing the element `c` of a piece removes the element `c` of a later row only if the
piece is the one of that row and the element before is the same. -/
theorem erase_piece_iff [DecidableEq α] {s : Nat} {p : List α} (hrows : ∀ s ∈ rows, z ∉ s)
    (hr : r ≠ 0) (h : rows[r]? = some row) (hc : c < row.length)
    (hs : (opened z rows)[s]? = some p) :
    ((opened z rows).set s (p.eraseIdx c)).flatten = joinRows z (rows.set r (row.eraseIdx c)) ↔
      s = r ∧ c ≠ 0 ∧ row[c - 1]? = row[c]? := by
  have hrow : z ∉ row := hrows row (mem_of_getElem? h)
  have herase : ∀ {w : List α} (k : Nat), z ∉ w → z ∉ w.eraseIdx k :=
    fun k hw hm => hw (mem_of_mem_eraseIdx hm)
  have hne : rows ≠ [] := by
    rintro rfl
    simp at h
  have hlen := (List.getElem?_eq_some_iff.mp h).1
  -- an edit of another row is seen in row `r`
  have hother : ∀ {s : Nat} {w : List α}, s ≠ r → z ∉ w →
      joinRows z (rows.set s w) ≠ joinRows z (rows.set r (row.eraseIdx c)) := by
    intro s w hsr hw heq
    have hset := joinRows_inj (by simpa using hne) (by simpa using hne)
      (forall_mem_set hrows hw) (forall_mem_set hrows (herase c hrow)) heq
    have hget := congrArg (·[r]?) hset
    simp only [getElem?_set_ne hsr, getElem?_set_self hlen, h, Option.some.injEq] at hget
    have := congrArg length hget
    rw [length_eraseIdx_of_lt hc] at this
    omega
  by_cases hs0 : s = 0
  · subst hs0
    rw [opened_set_zero]
    rw [getElem?_opened_zero] at hs
    exact iff_of_false (hother (Ne.symm hr) (herase c (hrows p (mem_of_getElem? hs))))
      fun hcond => hr hcond.1.symm
  rw [getElem?_opened hs0] at hs
  obtain ⟨q, hq, rfl⟩ := Option.map_eq_some_iff.mp hs
  have hz : z ∉ q := hrows q (mem_of_getElem? hq)
  by_cases hc0 : c = 0
  · subst hc0
    rw [eraseIdx_zero, tail_cons]
    refine iff_of_false (flatten_set_ne hrows h ?_ (herase 0 hrow)) fun hcond => hcond.2.1 rfl
    rw [getElem?_opened hs0, hq, Option.map_some]
  obtain ⟨n, rfl⟩ := Nat.exists_eq_succ_of_ne_zero hc0
  rw [eraseIdx_cons_succ, opened_set hs0]
  by_cases hsr : s = r
  · subst hsr
    obtain rfl : q = row := Option.some.inj (hq.symm.trans h)
    have hpred := eraseIdx_pred_eq_iff (u := q) hc0
    rw [show n.succ - 1 = n by omega] at hpred ⊢
    change joinRows z _ = _ ↔ _
    rw [joinRows_set_inj h, hpred]
    exact ⟨fun hget => ⟨rfl, hc0, hget⟩, fun hcond => hcond.2.2⟩
  · exact iff_of_false (hother hsr (herase n hz)) fun hcond => hsr hcond.1

end Xv6.Lib
