import Xv6.Grep.Match
import Xv6.Memmove

/-!
# grep over a stream

The loop of `grep` (grep.c): read behind what is kept from before, write the lines that match,
keep what follows the last newline.  A buffer without any newline is not kept but dropped, so
the lines that grep sees depend on how the input arrives.
-/

namespace Xv6.Grep

open Memmove Function List

abbrev NL : Byte := 10

/-- `sizeof(buf)`. -/
abbrev BUF : Nat := 1024

/-- `strchr(buf + p, c)`; no string in the buffer is longer than `fuel`. -/
def strchr (buf : Memory) (c : Byte) : Nat → Nat → Option Nat
  | 0, _ => none
  | fuel + 1, p =>
    if buf p = 0 then none else if buf p = c then some p else strchr buf c fuel (p + 1)

def cstr (buf : Memory) : Nat → Nat → List Byte
  | 0, _ => []
  | fuel + 1, p => if buf p = 0 then [] else buf p :: cstr buf fuel (p + 1)

/-- The `n` bytes at `p`, as `write` takes them. -/
def bytes (buf : Memory) : Nat → Nat → List Byte
  | _, 0 => []
  | p, n + 1 => buf p :: bytes buf (p + 1) n

/-- `read` stores the bytes `c` at `p`. -/
def store : Memory → Nat → List Byte → Memory
  | buf, _, [] => buf
  | buf, p, b :: c => store (update buf p b) (p + 1) c

/-- The inner loop, from `p`: the buffer, `p` and what has been written at its end. -/
def scan (pattern : List Byte) :
    Nat → Memory → Nat → List (List Byte) → Memory × Nat × List (List Byte)
  | 0, buf, p, out => (buf, p, out)
  | fuel + 1, buf, p, out =>
    match strchr buf NL BUF p with
    | none => (buf, p, out)
    | some q =>
      let cut := update buf q 0
      if matchtext pattern (cstr cut BUF p) then
        let line := update cut q NL
        scan pattern fuel line (q + 1) (out ++ [bytes line p (q + 1 - p)])
      else scan pattern fuel cut (q + 1) out

/-- The outer loop.  The list gives what successive calls of `read` return before the end of
the input; no call returns nothing, or more than `sizeof(buf)-m-1` bytes. -/
def grepLoop (pattern : List Byte) :
    List (List Byte) → Memory → Nat → List (List Byte) → Option (List (List Byte))
  | [], _, _, out => some out
  | c :: reads, buf, m, out =>
    if c = [] ∨ BUF - m - 1 < c.length then none
    else
      let (buf, p, out) :=
        scan pattern BUF (update (store buf m c) (m + c.length) 0) 0 out
      let m := if p = 0 then 0 else m + c.length
      if m > 0 then grepLoop pattern reads (User.memmove buf 0 p ↑(m - p)) (m - p) out
      else grepLoop pattern reads buf m out

/-- `grep`: the lines written, with whatever is in the buffer at the start. -/
def grep (pattern : List Byte) (buf : Memory) (reads : List (List Byte)) :
    Option (List (List Byte)) :=
  grepLoop pattern reads buf 0 []

def lines : List Byte → List (List Byte)
  | [] => []
  | b :: t =>
    if b = NL then [] :: lines t
    else match lines t with
      | [] => []
      | l :: ls => (b :: l) :: ls

def unfinished : List Byte → List Byte
  | [] => []
  | b :: t => if NL ∈ t then unfinished t else if b = NL then t else b :: t

/-- The lines among `ls` that match, as they are written. -/
def matching (pattern : List Byte) (ls : List (List Byte)) : List (List Byte) :=
  (ls.filter (matchtext pattern)).map (· ++ [NL])

variable {t u c l : List Byte} {buf : Memory} {p fuel : Nat}

theorem lines_of_notMem (h : NL ∉ t) : lines t = [] := by
  induction t with
  | nil => rfl
  | cons b t ih =>
    rw [mem_cons, not_or] at h
    rw [lines, if_neg (Ne.symm h.1), ih h.2]

theorem lines_append (h : NL ∉ u) (t : List Byte) : lines (u ++ NL :: t) = u :: lines t := by
  induction u with
  | nil => rfl
  | cons b u ih =>
    rw [mem_cons, not_or] at h
    rw [cons_append, lines, if_neg (Ne.symm h.1), ih h.2]

theorem unfinished_of_notMem (h : NL ∉ t) : unfinished t = t := by
  cases t with
  | nil => rfl
  | cons b t =>
    rw [mem_cons, not_or] at h
    rw [unfinished, if_neg h.2, if_neg (Ne.symm h.1)]

theorem unfinished_append (u t : List Byte) : unfinished (u ++ NL :: t) = unfinished (NL :: t) := by
  induction u with
  | nil => rfl
  | cons b u ih => rw [cons_append, unfinished, if_pos (by simp), ih]

theorem unfinished_newline (t : List Byte) : unfinished (NL :: t) = unfinished t := by
  rw [unfinished, if_pos rfl]
  split_ifs with h
  · rfl
  · exact (unfinished_of_notMem h).symm

theorem length_unfinished_le (t : List Byte) : (unfinished t).length ≤ t.length := by
  induction t with
  | nil => exact Nat.le_refl _
  | cons b t ih =>
    rw [unfinished]
    split_ifs <;> simp only [length_cons] <;> omega

theorem notMem_unfinished (t : List Byte) : NL ∉ unfinished t := by
  induction t with
  | nil => simp [unfinished]
  | cons b t ih =>
    rw [unfinished]
    split_ifs with h hb
    · exact ih
    · exact h
    · rw [mem_cons, not_or]
      exact ⟨Ne.symm hb, h⟩

/-- The text `t` is stored at `p`. -/
def At (buf : Memory) : Nat → List Byte → Prop
  | _, [] => True
  | p, b :: t => buf p = b ∧ At buf (p + 1) t

theorem At.congr {buf' : Memory} {q : Nat} (h : At buf p t)
    (heq : ∀ i < t.length, buf' (q + i) = buf (p + i)) : At buf' q t := by
  induction t generalizing p q with
  | nil => trivial
  | cons b t ih =>
    refine ⟨(heq 0 (Nat.succ_pos _)).trans h.1, ih h.2 fun i hi => ?_⟩
    have hnext := heq (i + 1) (Nat.succ_lt_succ hi)
    simpa only [Nat.add_assoc, Nat.add_comm 1] using hnext

theorem at_append {r : List Byte} : At buf p (t ++ r) ↔ At buf p t ∧ At buf (p + t.length) r := by
  induction t generalizing p with
  | nil => simp [At]
  | cons b t ih =>
    simp only [cons_append, At, ih, length_cons, and_assoc, Nat.add_assoc, Nat.add_comm 1]

theorem At.set {q : Nat} (h : At buf p t) (b : Byte)
    (hq : q < p ∨ p + t.length ≤ q) : At (update buf q b) p t :=
  h.congr fun i hi => by rw [update_of_ne (by omega)]

theorem store_below {x : Nat} (h : x < p) : store buf p c x = buf x := by
  induction c generalizing buf p with
  | nil => rfl
  | cons b c ih => rw [store, ih (by omega), update_of_ne (by omega)]

theorem at_store (buf : Memory) (p : Nat) (c : List Byte) : At (store buf p c) p c := by
  induction c generalizing buf p with
  | nil => trivial
  | cons b c ih =>
    refine ⟨?_, ih _ _⟩
    rw [store, store_below (Nat.lt_succ_self p), update_self]

theorem at_read (h : At buf 0 l) (c : List Byte) :
    At (update (store buf l.length c) (l.length + c.length) 0) 0 (l ++ c ++ [0]) := by
  have hl : At (store buf l.length c) 0 l := h.congr fun i hi => store_below (by omega)
  have hlc : At (store buf l.length c) 0 (l ++ c) :=
    at_append.mpr ⟨hl, by simpa using at_store buf l.length c⟩
  refine at_append.mpr ⟨hlc.set 0 (Or.inr (by simp)), ?_, trivial⟩
  rw [length_append, Nat.zero_add, update_self]

theorem strchr_none (h : At buf p (t ++ [0]))
    (hnl : NL ∉ t) (hfuel : t.length < fuel) : strchr buf NL fuel p = none := by
  induction t generalizing p fuel with
  | nil =>
    cases fuel with
    | zero => rfl
    | succ fuel => rw [strchr, if_pos h.1]
  | cons b t ih =>
    obtain ⟨fuel, rfl⟩ := Nat.exists_eq_add_of_lt hfuel
    rw [mem_cons, not_or] at hnl
    rw [strchr, h.1]
    split_ifs with h0 h1
    · rfl
    · exact absurd h1.symm hnl.1
    · exact ih h.2 hnl.2 (by rw [length_cons]; omega)

theorem strchr_some {r : List Byte}
    (h : At buf p (u ++ NL :: r)) (hnl : NL ∉ u) (hnul : 0 ∉ u) (hfuel : u.length < fuel) :
    strchr buf NL fuel p = some (p + u.length) := by
  induction u generalizing p fuel with
  | nil =>
    obtain ⟨fuel, rfl⟩ := Nat.exists_eq_add_of_lt hfuel
    rw [strchr, h.1, if_neg (by decide), if_pos rfl]
    rfl
  | cons b u ih =>
    obtain ⟨fuel, rfl⟩ := Nat.exists_eq_add_of_lt hfuel
    rw [mem_cons, not_or] at hnl hnul
    rw [strchr, h.1, if_neg (Ne.symm hnul.1), if_neg (Ne.symm hnl.1),
      ih h.2 hnl.2 hnul.2 (by rw [length_cons]; omega), length_cons]
    congr 1
    omega

theorem cstr_eq (h : At buf p (u ++ [0]))
    (hnul : 0 ∉ u) (hfuel : u.length < fuel) : cstr buf fuel p = u := by
  induction u generalizing p fuel with
  | nil =>
    cases fuel with
    | zero => rfl
    | succ fuel => rw [cstr, if_pos h.1]
  | cons b u ih =>
    obtain ⟨fuel, rfl⟩ := Nat.exists_eq_add_of_lt hfuel
    rw [mem_cons, not_or] at hnul
    rw [cstr, h.1, if_neg (Ne.symm hnul.1), ih h.2 hnul.2 (by rw [length_cons]; omega)]

theorem bytes_eq (h : At buf p t) : bytes buf p t.length = t := by
  induction t generalizing p with
  | nil => rfl
  | cons b t ih => rw [length_cons, bytes, h.1, ih h.2]

theorem matching_cons (pattern u : List Byte) (ls : List (List Byte)) : matching pattern (u :: ls) =
      (if matchtext pattern u then [u ++ [NL]] else []) ++ matching pattern ls := by
  rw [matching, filter_cons]
  split_ifs <;> rfl

theorem scan_spec (pattern : List Byte) (fuel : Nat)
    (out : List (List Byte)) (h : At buf p (t ++ [0])) (hnul : 0 ∉ t) (hbuf : t.length < BUF)
    (hfuel : t.length < fuel) :
    ∃ buf', scan pattern fuel buf p out =
        (buf', p + (t.length - (unfinished t).length), out ++ matching pattern (lines t)) ∧
      At buf' (p + (t.length - (unfinished t).length)) (unfinished t) := by
  induction fuel generalizing buf p t out with
  | zero => omega
  | succ fuel ih =>
    by_cases hnl : NL ∈ t
    · obtain ⟨u, r, rfl, hu⟩ := eq_append_cons_of_mem hnl
      rw [append_assoc, cons_append] at h
      have hle := length_unfinished_le r
      simp only [length_append, length_cons] at hbuf hfuel ⊢
      simp only [mem_append, mem_cons, not_or] at hnul
      obtain ⟨hhead, -, hrest⟩ := at_append.mp h
      have hcut : At (update buf (p + u.length) 0) p (u ++ [0]) :=
        at_append.mpr ⟨hhead.set 0 (Or.inr (Nat.le_refl _)), update_self .., trivial⟩
      have hmark : p + u.length + 1 + (r.length - (unfinished r).length) =
          p + (u.length + (r.length + 1) - (unfinished r).length) := by omega
      rw [scan, strchr_some h hu hnul.1 (by omega), unfinished_append, unfinished_newline,
        lines_append hu, matching_cons, ← hmark]
      simp only [cstr_eq hcut hnul.1 (show u.length < BUF by omega)]
      split_ifs
      · -- The newline is put back before the line is written.
        have hline : At (update (update buf (p + u.length) 0) (p + u.length) NL) p (u ++ [NL]) :=
          at_append.mpr ⟨(hhead.set 0 (Or.inr (Nat.le_refl _))).set NL (Or.inr (Nat.le_refl _)),
            update_self .., trivial⟩
        have hbytes := bytes_eq hline
        rw [length_append, length_singleton] at hbytes
        rw [show p + u.length + 1 - p = u.length + 1 by omega, hbytes, ← append_assoc]
        exact ih _ ((hrest.set 0 (by omega)).set NL (by omega)) hnul.2.2 (by omega) (by omega)
      · exact ih _ (hrest.set 0 (by omega)) hnul.2.2 (by omega) (by omega)
    · rw [scan, strchr_none h hnl hbuf, unfinished_of_notMem hnl, lines_of_notMem hnl, Nat.sub_self]
      exact ⟨buf, by simp [matching], (at_append.mp h).1⟩

/-- The lines grep sees when it has kept `l`. -/
def seen : List Byte → List (List Byte) → List (List Byte)
  | _, [] => []
  | l, c :: reads => lines (l ++ c) ++ seen (if NL ∈ c then unfinished c else []) reads

/-- What `read` may return one after the other when `m` bytes have been kept. -/
def Answers : Nat → List (List Byte) → Prop
  | _, [] => True
  | m, c :: reads => c ≠ [] ∧ c.length ≤ BUF - m - 1 ∧
      Answers (if NL ∈ c then (unfinished c).length else 0) reads

theorem unfinished_append_of_mem (l : List Byte) (h : NL ∈ c) :
    unfinished (l ++ c) = unfinished c := by
  obtain ⟨u, r, rfl, -⟩ := eq_append_cons_of_mem h
  rw [← append_assoc, unfinished_append, unfinished_append]

theorem length_unfinished_lt (h : NL ∈ c) : (unfinished c).length < c.length := by
  obtain ⟨u, r, rfl, -⟩ := eq_append_cons_of_mem h
  have hle := length_unfinished_le r
  rw [unfinished_append, unfinished_newline, length_append, length_cons]
  omega

theorem mem_of_mem_unfinished {b : Byte} (h : b ∈ unfinished c) : b ∈ c := by
  induction c with
  | nil => exact h
  | cons a c ih =>
    rw [unfinished] at h
    split_ifs at h
    · exact mem_cons_of_mem _ (ih h)
    · exact mem_cons_of_mem _ h
    · exact h

theorem matching_append (pattern : List Byte) (ls ls' : List (List Byte)) :
    matching pattern (ls ++ ls') = matching pattern ls ++ matching pattern ls' := by
  rw [matching, filter_append, map_append]
  rfl

theorem grepLoop_spec (pattern : List Byte) (reads : List (List Byte))
    (out : List (List Byte)) (h : At buf 0 l) (hl : NL ∉ l) (hnul : 0 ∉ l)
    (hreads : Answers l.length reads) (hnuls : ∀ c ∈ reads, 0 ∉ c) :
    grepLoop pattern reads buf l.length out = some (out ++ matching pattern (seen l reads)) := by
  induction reads generalizing buf l out with
  | nil => simp [grepLoop, seen, matching]
  | cons c reads ih =>
    obtain ⟨hne, hlen, hrest⟩ := hreads
    have hpos := length_pos_iff.mpr hne
    have hc := hnuls c (by simp)
    obtain ⟨buf', hscan, hat⟩ := scan_spec pattern BUF out (at_read h c)
      (fun h => (mem_append.mp h).elim hnul hc) (by rw [length_append]; omega)
      (by rw [length_append]; omega)
    rw [grepLoop, if_neg (by simp only [hne, false_or]; omega), hscan, seen, matching_append,
      ← append_assoc]
    by_cases hnl : NL ∈ c
    · rw [unfinished_append_of_mem l hnl] at hat ⊢
      have hlt := length_unfinished_lt hnl
      rw [if_pos hnl] at hrest ⊢
      simp only [length_append, Nat.zero_add] at hat ⊢
      have hp : l.length + c.length - (unfinished c).length ≠ 0 := by omega
      have hkept : l.length + c.length - (l.length + c.length - (unfinished c).length) =
          (unfinished c).length := by omega
      rw [if_neg hp, if_pos (by omega), hkept]
      apply ih
      · -- Moving down never overwrites what is still to be moved.
        have hmove := (forward_copies_iff buf' 0
          (l.length + c.length - (unfinished c).length) (unfinished c).length).mpr (by omega)
        refine hat.congr fun i hi => (hmove (0 + i)).trans ?_
        rw [if_pos ⟨Nat.zero_le _, by omega⟩, Nat.zero_add, Nat.sub_zero]
      · exact notMem_unfinished c
      · exact fun h => hc (mem_of_mem_unfinished h)
      · exact hrest
      · exact fun d hd => hnuls d (mem_cons_of_mem _ hd)
    · have hlc : NL ∉ l ++ c := fun h => (mem_append.mp h).elim hl hnl
      rw [if_neg hnl] at hrest ⊢
      simp only [unfinished_of_notMem hlc, Nat.sub_self, Nat.add_zero, if_true, gt_iff_lt,
        Nat.lt_irrefl, if_false]
      exact ih (l := []) _ trivial (by simp) (by simp) hrest
        fun d hd => hnuls d (mem_cons_of_mem _ hd)

def weight (ls : List (List Byte)) : Nat := ls.flatten.length + ls.length

theorem lines_append_unfinished (c t : List Byte) :
    lines (c ++ t) = lines c ++ lines (unfinished c ++ t) := by
  induction hn : c.length using Nat.strongRecOn generalizing c with
  | ind n ih =>
    subst hn
    by_cases hnl : NL ∈ c
    · obtain ⟨u, r, rfl, hu⟩ := eq_append_cons_of_mem hnl
      have hlt : r.length < (u ++ NL :: r).length := by
        rw [length_append, length_cons]
        omega
      rw [append_assoc, cons_append, lines_append hu, lines_append hu,
        unfinished_append, unfinished_newline, ih _ hlt r rfl, cons_append]
    · rw [lines_of_notMem hnl, unfinished_of_notMem hnl, nil_append]

theorem weight_lines_append (hu : NL ∉ u) (ht : NL ∈ t) :
    weight (lines (u ++ t)) = u.length + weight (lines t) := by
  obtain ⟨v, r, rfl, hv⟩ := eq_append_cons_of_mem ht
  have huv : NL ∉ u ++ v := fun h => (mem_append.mp h).elim hu hv
  rw [← append_assoc, lines_append huv, lines_append hv]
  simp only [weight, flatten_cons, length_cons, length_append]
  omega

theorem weight_lines_le (hu : NL ∉ u) (t : List Byte) :
    weight (lines t) ≤ weight (lines (u ++ t)) := by
  by_cases ht : NL ∈ t
  · rw [weight_lines_append hu ht]
    omega
  · rw [lines_of_notMem ht]
    exact Nat.zero_le _

theorem lines_read (hc : NL ∈ c) (t : List Byte) :
    lines (l ++ (c ++ t)) = lines (l ++ c) ++ lines (unfinished c ++ t) := by
  rw [← append_assoc, lines_append_unfinished, unfinished_append_of_mem l hc]

theorem weight_seen_le (reads : List (List Byte)) (hl : NL ∉ l) :
    weight (seen l reads) ≤ weight (lines (l ++ reads.flatten)) := by
  induction reads generalizing l with
  | nil => exact Nat.zero_le _
  | cons c reads ih =>
    rw [seen, flatten_cons]
    split_ifs with hc
    · have hrest := ih (notMem_unfinished c)
      rw [lines_read hc]
      simp only [weight, flatten_append, length_append] at hrest ⊢
      omega
    · have hlc : NL ∉ l ++ c := fun h => (mem_append.mp h).elim hl hc
      have hrest := ih (l := []) (by simp)
      rw [lines_of_notMem hlc, ← append_assoc]
      exact Nat.le_trans hrest (weight_lines_le hlc _)

/-- Every read before the last newline of the input brings a newline. -/
def NewlineEach (reads : List (List Byte)) : Prop := reads.Pairwise fun c d => NL ∈ d → NL ∈ c

theorem seen_eq_lines_iff (reads : List (List Byte)) (hl : NL ∉ l) (hne : ∀ c ∈ reads, c ≠ []) :
    seen l reads = lines (l ++ reads.flatten) ↔ NewlineEach reads := by
  induction reads generalizing l with
  | nil => simp [seen, lines_of_notMem hl, NewlineEach]
  | cons c reads ih =>
    have hrest : ∀ d ∈ reads, d ≠ [] := fun d hd => hne d (mem_cons_of_mem _ hd)
    rw [seen, flatten_cons, NewlineEach, pairwise_cons]
    split_ifs with hc
    · rw [lines_read hc, append_right_inj, ih (notMem_unfinished c) hrest]
      exact ⟨fun h => ⟨fun _ _ _ => hc, h⟩, fun h => h.2⟩
    · have hlc : NL ∉ l ++ c := fun h => (mem_append.mp h).elim hl hc
      rw [lines_of_notMem hlc, nil_append, ← append_assoc]
      by_cases hlater : NL ∈ reads.flatten
      · -- The bytes of `c` belong to a line, and grep does not see them.
        have hpos := length_pos_iff.mpr (hne c (by simp))
        have hless := weight_seen_le reads (l := []) (by simp)
        have hmore := weight_lines_append hlc hlater
        rw [length_append] at hmore
        constructor
        · intro h
          rw [h, nil_append] at hless
          omega
        · obtain ⟨d, hd, hnl⟩ := mem_flatten.mp hlater
          exact fun h => absurd (h.1 d hd hnl) hc
      · have hall : ∀ d ∈ reads, NL ∉ d := fun d hd h => hlater (mem_flatten.mpr ⟨d, hd, h⟩)
        have hpair : NewlineEach reads :=
          pairwise_of_forall_mem_list fun _ _ d hd h => absurd h (hall d hd)
        have hseen := (ih (l := []) (by simp) hrest).mpr hpair
        rw [hseen, nil_append, lines_of_notMem hlater,
          lines_of_notMem fun h => (mem_append.mp h).elim hlc hlater]
        exact ⟨fun _ => ⟨fun d hd h => absurd h (hall d hd), hpair⟩, fun _ => rfl⟩

theorem matching_nil (ls : List (List Byte)) : matching [] ls = ls.map (· ++ [NL]) := by
  have hall : ∀ t, matchtext [] t = true := by
    intro t
    cases t <;> rfl
  rw [matching, filter_eq_self.mpr fun t _ => hall t]

theorem Answers.ne_nil {m : Nat} {reads : List (List Byte)} (h : Answers m reads) :
    ∀ c ∈ reads, c ≠ [] := by
  induction reads generalizing m with
  | nil => simp
  | cons c reads ih =>
    intro d hd
    rcases mem_cons.mp hd with rfl | hd
    · exact h.1
    · exact ih h.2.2 d hd

/-- For an input without 0 bytes that arrives as `reads`, grep writes the matching lines for
every pattern exactly if each read before the last newline brings a newline. -/
theorem grep_writes_iff (buf : Memory) (reads : List (List Byte)) (hreads : Answers 0 reads)
    (hnul : ∀ c ∈ reads, 0 ∉ c) :
    (∀ pattern, grep pattern buf reads = some (matching pattern (lines reads.flatten))) ↔
      NewlineEach reads := by
  have hgrep : ∀ pattern, grep pattern buf reads = some (matching pattern (seen [] reads)) :=
    fun pattern => grepLoop_spec pattern reads [] (l := []) trivial (by simp) (by simp) hreads hnul
  have hseen := seen_eq_lines_iff reads (l := []) (by simp) hreads.ne_nil
  rw [List.nil_append] at hseen
  rw [← hseen]
  constructor
  · intro h
    -- The empty pattern writes every line it sees.
    have heq := Option.some.inj ((hgrep []).symm.trans (h []))
    rw [matching_nil, matching_nil] at heq
    exact (List.map_inj_right fun _ _ h => List.append_cancel_right h).mp heq
  · intro h pattern
    rw [hgrep, h]

/-- The second line arrives in two parts, the first of them behind the first line. -/
theorem grep_writes_carried_line :
    grep [97] (fun _ => 0) [[97, NL, 98], [97, NL]] = some [[97, NL], [98, 97, NL]] := by
  have h := (grep_writes_iff (fun _ => 0) [[97, NL, 98], [97, NL]] ⟨by decide, by decide, by decide,
    by decide, trivial⟩ (by decide)).mpr (by simp [NewlineEach])
  rw [h]
  decide +kernel

/-- The line `ab` that arrives as `a` and then the rest. -/
theorem grep_loses_line : grep [97, 98] (fun _ => 0) [[97], [98, NL]] = some [] ∧
      matching [97, 98] (lines [97, 98, NL]) = [[97, 98, NL]] := by
  decide +kernel

end Xv6.Grep
