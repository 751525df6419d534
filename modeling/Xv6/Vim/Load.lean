import Mathlib.Data.List.Forall2
import Xv6.Vim.Line

/-!
# Loading and saving

What `readfile` stores of a file, and when saving gives the file back.

`readfile` cuts the file at its newlines; a newline opens the line it begins.  A piece of
80 characters or more does not fit: its line keeps the first 80, and the string that
`writefile` saves goes on into the low byte of `len`.
-/

namespace Xv6.Vim

open Lib List

variable {l : Line} {t : List Byte} {ch : Byte}

namespace Line

/-- The cells hold the first 80 characters of `t`, and nothing after it. -/
def Stores (l : Line) (t : List Byte) : Prop :=
  EMPTY_CHAR ∉ t ∧ l.c = t.take 80 ++ List.replicate (80 - t.length) EMPTY_CHAR

theorem Stores.text_eq (h : l.Stores t) : l.text = t.take 80 := by
  have h0 : EMPTY_CHAR ∉ t.take 80 := fun hm => h.1 (mem_of_mem_take hm)
  rw [text, h.2]
  cases hn : 80 - t.length with
  | zero => rw [replicate_zero, append_nil, before_of_notMem h0]
  | succ n => rw [replicate_succ, before_stop h0]

theorem string_eq_text (h : EMPTY_CHAR ∈ l.c) : l.string = l.text := before_append_of_mem h

theorem string_of_full (h : EMPTY_CHAR ∉ l.c) : l.string = l.c ++ before EMPTY_CHAR l.behind :=
  before_append h

theorem strlen_lt_iff : l.strlen < 80 ↔ EMPTY_CHAR ∈ l.c := by
  constructor
  · intro h
    by_contra hc
    rw [strlen, string_of_full hc, length_append, l.size] at h
    omega
  · intro h
    have hlt := length_before_lt_iff.mpr h
    rw [l.size] at hlt
    rwa [strlen, string_eq_text h, text]

theorem Stores.mem (h : l.Stores t) (ht : t.length < 80) : EMPTY_CHAR ∈ l.c := by
  rw [h.2, mem_append, mem_replicate]
  exact .inr ⟨by omega, rfl⟩

theorem Stores.string_eq (h : l.Stores t) (ht : t.length < 80) : l.string = t := by
  rw [string_eq_text (h.mem ht), h.text_eq, take_of_length_le (by omega)]

theorem Stores.full (h : l.Stores t) (ht : 80 ≤ t.length) : l.c = t.take 80 ∧ EMPTY_CHAR ∉ l.c := by
  have hc : l.c = t.take 80 := by
    rw [h.2, show 80 - t.length = 0 by omega, replicate_zero, append_nil]
  exact ⟨hc, by rw [hc]; exact fun hm => h.1 (mem_of_mem_take hm)⟩

theorem Stores.string_of_len (h : l.Stores t) (ht : 80 ≤ t.length) (h0 : 0 < l.len)
    (hl : l.len < 256) : l.string = t.take 80 ++ [BitVec.ofNat 8 l.len] := by
  obtain ⟨hc, hfull⟩ := h.full ht
  have hb : BitVec.ofNat 8 l.len ≠ EMPTY_CHAR := by
    intro hz
    have := congrArg BitVec.toNat hz
    rw [BitVec.toNat_ofNat, Nat.mod_eq_of_lt (by omega)] at this
    exact absurd this (by simp; omega)
  have h1 : l.len / 256 = 0 := Nat.div_eq_of_lt hl
  rw [string_of_full hfull, hc, behind, intBytes, cons_append, cons_append,
    before_cons_of_ne hb, h1, cons_append, cons_append]
  rw [show (BitVec.ofNat 8 0 : Byte) = EMPTY_CHAR from rfl, before_cons_self]

theorem stores_empty (lineno para : Nat) : (empty lineno para).Stores [] :=
  ⟨by simp, rfl⟩

theorem Stores.poke_end (h : l.Stores t) (ht : t.length < 80) (hch : ch ≠ EMPTY_CHAR) :
    (l.poke t.length ch).Stores (t ++ [ch]) := by
  refine ⟨by simpa using ⟨h.1, Ne.symm hch⟩, ?_⟩
  rw [poke, if_pos ht]
  change l.c.set t.length ch = _
  rw [h.2, take_of_length_le (by omega), take_of_length_le (by simp; omega),
    set_append_right _ _ (Nat.le_refl _), Nat.sub_self, length_append, length_singleton,
    show 80 - t.length = 80 - (t.length + 1) + 1 by omega, replicate_succ, set_cons_zero,
    append_assoc, singleton_append]

/-- `len` after `k` characters have been read into a line. -/
def lenAfter (k : Nat) : Nat := if k < 80 then k else if k % 2 = 0 then 81 else 82

/-- The line into which the characters `t` have been read. -/
structure Reads (l : Line) (t : List Byte) : Prop where
  stores : l.Stores t
  len : l.len = lenAfter t.length

theorem reads_empty (lineno para : Nat) : (empty lineno para).Reads [] :=
  ⟨stores_empty lineno para, rfl⟩

theorem setByte_lt (x k : Nat) (v : Byte) (hx : x < 256 ^ k) :
    setByte x k v = x + v.toNat * 256 ^ k := by
  have hpow : 256 ^ k ≤ 256 ^ (k + 1) := Nat.pow_le_pow_right (by omega) (by omega)
  rw [setByte, Nat.mod_eq_of_lt hx, Nat.div_eq_of_lt (by omega), Nat.zero_mul, Nat.add_zero]

theorem Reads.push_short (h : l.Reads t) (ht : t.length < 80) (hch : ch ≠ EMPTY_CHAR) :
    (l.push ch).Stores (t ++ [ch]) ∧ (l.push ch).len = t.length + 1 := by
  have hlen : l.len = t.length := by rw [h.len, lenAfter, if_pos ht]
  have hstores : ({ l with len := l.len + 1 } : Line).Stores t := h.stores
  rw [push, hlen]
  rw [hlen] at hstores
  refine ⟨hstores.poke_end ht hch, ?_⟩
  rw [poke, if_pos ht]

theorem Reads.push_full (h : l.Reads t) (ht : 80 ≤ t.length) (hch : ch ≠ EMPTY_CHAR) :
    (l.push ch).Stores (t ++ [ch]) ∧
      (l.push ch).len = if t.length % 2 = 0 then 82 + ch.toNat * 256
      else 83 + ch.toNat * 256 ^ 2 := by
  have hstores : ∀ n, ({ l with len := n } : Line).Stores (t ++ [ch]) := by
    intro n
    refine ⟨by simpa using ⟨h.stores.1, Ne.symm hch⟩, ?_⟩
    change l.c = _
    rw [h.stores.2, take_append_of_le_length ht, length_append,
      show 80 - t.length = 0 by omega, show 80 - (t.length + [ch].length) = 0 by omega]
  have hlen : l.len = if t.length % 2 = 0 then 81 else 82 := by
    rw [h.len, lenAfter, if_neg (by omega)]
  rw [push, hlen]
  split
  · rw [poke, if_neg (by omega), if_pos (by omega)]
    exact ⟨hstores _, setByte_lt (81 + 1) (81 - 80) ch (by decide)⟩
  · rw [poke, if_neg (by omega), if_pos (by omega)]
    exact ⟨hstores _, setByte_lt (82 + 1) (82 - 80) ch (by decide)⟩

theorem intBytes_second (a : Nat) (ha : a < 256) (v : Byte) :
    intBytes (a + v.toNat * 256) = [BitVec.ofNat 8 a, v, 0, 0] := by
  have hv := v.isLt
  simp only [intBytes, List.cons.injEq, and_true]
  refine ⟨?_, ?_, ?_, ?_⟩ <;> apply BitVec.eq_of_toNat_eq <;> simp <;> omega

theorem intBytes_third (a : Nat) (ha : a < 256) (v : Byte) :
    intBytes (a + v.toNat * 256 ^ 2) = [BitVec.ofNat 8 a, 0, v, 0] := by
  have hv := v.isLt
  simp only [intBytes, List.cons.injEq, and_true]
  refine ⟨?_, ?_, ?_, ?_⟩ <;> apply BitVec.eq_of_toNat_eq <;> simp <;> omega

theorem Stores.strlen_of_full (h : l.Stores t) (ht : 80 ≤ t.length) {bs : List Byte}
    (hb : intBytes l.len = bs) :
    l.strlen = 80 + (before EMPTY_CHAR (bs ++ intBytes l.lineno ++ intBytes l.para)).length := by
  rw [strlen, string_of_full (h.full ht).2, length_append, l.size, behind, hb]

theorem Reads.push (h : l.Reads t) (hch : ch ≠ EMPTY_CHAR) :
    (l.push ch).measure.Reads (t ++ [ch]) := by
  suffices hs : (l.push ch).Stores (t ++ [ch]) ∧ (l.push ch).strlen = lenAfter (t.length + 1) by
    exact ⟨hs.1, by rw [length_append, length_singleton]; exact hs.2⟩
  have hlen : (t ++ [ch]).length = t.length + 1 := by simp
  by_cases ht : t.length < 80
  · obtain ⟨hstores, hl⟩ := h.push_short ht hch
    refine ⟨hstores, ?_⟩
    by_cases h79 : t.length = 79
    · rw [strlen, hstores.string_of_len (by omega) (by omega) (by omega), lenAfter, h79]
      simp [h79]
    · rw [strlen, hstores.string_eq (by omega), hlen, lenAfter, if_pos (by omega)]
  · obtain ⟨hstores, hl⟩ := h.push_full (by omega) hch
    refine ⟨hstores, ?_⟩
    split at hl
    · rw [hstores.strlen_of_full (by omega) ((congrArg intBytes hl).trans
        (intBytes_second 82 (by omega) ch)), lenAfter, if_neg (by omega), if_neg (by omega)]
      have hne : ¬ch = 0#8 := hch
      simp [before, hne]
    · rw [hstores.strlen_of_full (by omega) ((congrArg intBytes hl).trans
        (intBytes_third 83 (by omega) ch)), lenAfter, if_neg (by omega), if_pos (by omega)]
      simp [before]

structure Closed (l : Line) (t : List Byte) : Prop where
  stores : l.Stores t
  len : l.len = if t.length < 80 then t.length else 81

theorem lenAfter_full {k : Nat} (hk : 80 ≤ k) : lenAfter k = 81 ∨ lenAfter k = 82 := by
  rw [lenAfter, if_neg (by omega)]
  split
  · exact .inl rfl
  · exact .inr rfl

theorem Reads.close (h : l.Reads t) (n : Nat) :
    ({ l.measure with lineno := n } : Line).Closed t := by
  refine ⟨h.stores, ?_⟩
  change l.string.length = _
  split
  · rw [h.stores.string_eq ‹_›]
  · have hl := h.len
    have := lenAfter_full (show 80 ≤ t.length by omega)
    rw [h.stores.string_of_len (by omega) (by omega) (by omega), length_append,
      length_take, length_singleton]
    omega

/-- What is saved of a piece; `n` is the `len` of its line, which follows if it is too long. -/
def saved (n : Nat) (p : List Byte) : List Byte :=
  if p.length < 80 then p else p.take 80 ++ [BitVec.ofNat 8 n]

theorem Closed.string_eq (h : l.Closed t) : l.string = saved 81 t := by
  rw [saved]
  split
  · exact h.stores.string_eq ‹_›
  · have hl : l.len = 81 := by rw [h.len, if_neg ‹_›]
    rw [h.stores.string_of_len (by omega) (by omega) (by omega), hl]

theorem Reads.string_eq (h : l.Reads t) : l.string = saved (lenAfter t.length) t := by
  rw [saved]
  split
  · exact h.stores.string_eq ‹_›
  · have hl := h.len
    have := lenAfter_full (show 80 ≤ t.length by omega)
    rw [h.stores.string_of_len (by omega) (by omega) (by omega), hl]

end Line

open Line in
theorem reads_newline (lineno para : Nat) : ((empty lineno para).push NL).Reads [NL] := by
  have h : ((empty lineno para).push NL).Stores ([] ++ [NL]) ∧
      ((empty lineno para).push NL).len = 0 + 1 :=
    (reads_empty lineno para).push_short (by simp) (by decide)
  exact ⟨h.1, h.2⟩

theorem Ctext.readByte_newline (t : Ctext) (i : Nat) :
    t.readByte i NL =
      { init := t.init ++ [{ t.last.measure with lineno := i / 80 + 1 }]
        last := (Line.empty (i / 80 + 1 + 1) (t.last.para + 1)).push NL
        lines := t.lines + 1 } := rfl

theorem Ctext.readByte_char (t : Ctext) (i : Nat) (h : ch ≠ NL) :
    t.readByte i ch = { t with last := (t.last.push ch).measure } := if_neg h

theorem Ctext.readLoop_lines (t : Ctext) (i : Nat) (acc buf : List Byte)
    (hacc : t.last.Reads acc) (hbuf : EMPTY_CHAR ∉ buf) :
    ∃ closed, (t.readLoop i buf).init = t.init ++ closed ∧
      List.Forall₂ Line.Closed closed (cut NL acc buf).1 ∧
      (t.readLoop i buf).last.Reads (cut NL acc buf).2 ∧
      (t.readLoop i buf).lines = t.lines + closed.length := by
  induction buf generalizing t i acc with
  | nil => exact ⟨[], by simp [readLoop], .nil, hacc, rfl⟩
  | cons ch buf ih =>
    obtain ⟨h0, hrest⟩ := not_or.mp (mt mem_cons.mpr hbuf)
    by_cases hch : ch = NL
    · subst hch
      obtain ⟨closed, hinit, hclosed, hlast, hlines⟩ :=
        ih (t.readByte i NL) (i + 1) [NL] (reads_newline _ _) hrest
      refine ⟨{ t.last.measure with lineno := i / 80 + 1 } :: closed, ?_, ?_, ?_, ?_⟩
      · rw [readLoop, hinit, readByte_newline, append_assoc, singleton_append]
      · rw [cut, if_pos rfl]
        exact .cons (hacc.close _) hclosed
      · rw [cut, if_pos rfl]
        exact hlast
      · rw [readLoop, hlines, readByte_newline, length_cons]
        simp only
        omega
    · have hpush := hacc.push (Ne.symm h0)
      obtain ⟨closed, hinit, hclosed, hlast, hlines⟩ :=
        ih (t.readByte i ch) (i + 1) (acc ++ [ch]) (by rwa [readByte_char t i hch]) hrest
      rw [cut, if_neg hch]
      refine ⟨closed, ?_, hclosed, hlast, ?_⟩
      · rw [readLoop, hinit, readByte_char t i hch]
      · rw [readLoop, hlines, readByte_char t i hch]

def Kept (n : Nat) (p : List Byte) : Prop :=
  p.length < 80 ∨ (p.length = 81 ∧ p.getLast? = some (BitVec.ofNat 8 n))

instance (n : Nat) (p : List Byte) : Decidable (Kept n p) :=
  inferInstanceAs (Decidable (_ ∨ _))

theorem saved_eq_iff (n : Nat) (p : List Byte) : Line.saved n p = p ↔ Kept n p := by
  by_cases hp : p.length < 80
  · simp [Line.saved, Kept, hp]
  · rw [Line.saved, if_neg hp, Kept]
    constructor
    · intro h
      have hlen := congrArg List.length h
      simp only [length_append, length_take, length_singleton] at hlen
      refine .inr ⟨by omega, ?_⟩
      rw [← h, List.getLast?_append]
      rfl
    · rintro (h | ⟨hlen, hlast⟩)
      · exact absurd h hp
      · have hne : p ≠ [] := by
          intro h0
          simp [h0] at hp
        have h80 : p.take 80 = p.dropLast := by rw [dropLast_eq_take, hlen]
        rw [List.getLast?_eq_some_getLast hne, Option.some.injEq] at hlast
        rw [h80, ← hlast, dropLast_append_getLast hne]

theorem replaces_saved (n : Nat) (p : List Byte) (hn : 80 ≤ p.length → BitVec.ofNat 8 n ≠ NL) :
    Replaces NL p (Line.saved n p) := by
  rw [Line.saved]
  split
  · exact ⟨id, fun s hs hp => ⟨s, hs, hp⟩⟩
  · have hmark := hn (by omega)
    constructor
    · intro hp hm
      rcases mem_append.mp hm with hm | hm
      · exact hp (mem_of_mem_take hm)
      · exact hmark (mem_singleton.mp hm).symm
    · rintro s hs rfl
      refine ⟨s.take 79 ++ [BitVec.ofNat 8 n], ?_, by simp⟩
      intro hm
      rcases mem_append.mp hm with hm | hm
      · exact hs (mem_of_mem_take hm)
      · exact hmark (mem_singleton.mp hm).symm

/-- The list of lines that `readfile` makes of a file. -/
def loaded (buf : List Byte) : Ctext :=
  Ctext.readLoop { init := [], last := Line.empty 1 1, lines := 1 } 0 buf

theorem loaded_lines (buf : List Byte) (h0 : EMPTY_CHAR ∉ buf) :
    List.Forall₂ Line.Closed (loaded buf).init (cut NL [] buf).1 ∧
      (loaded buf).last.Reads (cut NL [] buf).2 ∧
      (loaded buf).lines = (loaded buf).nodes.length := by
  obtain ⟨closed, hinit, hclosed, hlast, hlines⟩ :=
    Ctext.readLoop_lines { init := [], last := Line.empty 1 1, lines := 1 } 0 [] buf
      (Line.reads_empty 1 1) h0
  have hinit' : (loaded buf).init = closed := hinit
  refine ⟨by rwa [hinit'], hlast, ?_⟩
  rw [Ctext.nodes, length_append, hinit']
  exact hlines.trans (Nat.add_comm _ _)

theorem closed_strings {ls : List Line} {ps : List (List Byte)}
    (h : List.Forall₂ Line.Closed ls ps) : ls.map Line.string = ps.map (Line.saved 81) := by
  induction h with
  | nil => rfl
  | cons h _ ih => rw [map_cons, map_cons, h.string_eq, ih]

theorem exists_closed {ls : List Line} {ps : List (List Byte)}
    (h : List.Forall₂ Line.Closed ls ps) (hl : l ∈ ls) : ∃ p ∈ ps, l.Closed p := by
  induction h with
  | nil => simp at hl
  | cons h _ ih =>
    rcases mem_cons.mp hl with rfl | hl
    · exact ⟨_, mem_cons_self, h⟩
    · obtain ⟨p, hp, hclosed⟩ := ih hl
      exact ⟨p, mem_cons_of_mem _ hp, hclosed⟩

theorem loaded_strings (buf : List Byte) (h0 : EMPTY_CHAR ∉ buf) :
    (loaded buf).nodes.map Line.string = (cut NL [] buf).1.map (Line.saved 81) ++
        [Line.saved (Line.lenAfter (cut NL [] buf).2.length) (cut NL [] buf).2] := by
  obtain ⟨hclosed, hlast, -⟩ := loaded_lines buf h0
  rw [Ctext.nodes, map_append, closed_strings hclosed, map_singleton, hlast.string_eq]

/-- No piece of the file has 80 characters or more, or it has 81 of which the last happens
to be the byte that `len` then holds. -/
def Keepable (buf : List Byte) : Prop :=
  (∀ p ∈ (cut NL [] buf).1, Kept 81 p) ∧ Kept 82 (cut NL [] buf).2

instance (buf : List Byte) : Decidable (Keepable buf) :=
  inferInstanceAs (Decidable (_ ∧ _))

theorem kept_lenAfter (p : List Byte) : Kept (Line.lenAfter p.length) p ↔ Kept 82 p := by
  refine or_congr_right (and_congr_right fun h => ?_)
  rw [h]
  rfl

theorem saved_pieces_iff (buf : List Byte) : (cut NL [] buf).1.map (Line.saved 81) ++
        [Line.saved (Line.lenAfter (cut NL [] buf).2.length) (cut NL [] buf).2] =
      pieces NL [] buf ↔ Keepable buf := by
  have hall : (cut NL [] buf).1.map (Line.saved 81) = (cut NL [] buf).1 ↔
      ∀ p ∈ (cut NL [] buf).1, Kept 81 p := by
    conv_lhs => rhs; rw [← map_id (cut NL [] buf).1]
    rw [map_inj_left]
    exact forall₂_congr fun p _ => saved_eq_iff 81 p
  rw [Keepable, ← hall, ← kept_lenAfter, ← saved_eq_iff, pieces]
  constructor
  · intro h
    obtain ⟨hinit, hlast⟩ := append_inj h (length_map _)
    exact ⟨hinit, singleton_inj.mp hlast⟩
  · rintro ⟨hinit, hlast⟩
    rw [hinit, hlast]

theorem loaded_written_iff (buf : List Byte) (h0 : EMPTY_CHAR ∉ buf) :
    (loaded buf).written = buf ↔ Keepable buf := by
  rw [Ctext.written, loaded_strings buf h0, ← saved_pieces_iff]
  constructor
  · intro h
    have hcuts : Cuts NL ((cut NL [] buf).1.map (Line.saved 81) ++
        [Line.saved (Line.lenAfter (cut NL [] buf).2.length) (cut NL [] buf).2]) := by
      refine (cuts_pieces NL buf).replace (rel_append ?_ (.cons ?_ .nil))
      · exact forall₂_map_right_iff.mpr
          (forall₂_same.mpr fun p _ => replaces_saved 81 p fun _ => by decide)
      · refine replaces_saved _ _ fun h80 => ?_
        rcases Line.lenAfter_full h80 with h | h <;> rw [h] <;> decide
    rw [← hcuts.pieces_flatten, h]
  · intro h
    rw [h, pieces_flatten, nil_append]

theorem load_save_iff (buf : List Byte) (h0 : EMPTY_CHAR ∉ buf)
    (hmax : buf.length ≤ MAX_FILE_SIZE) :
    ∃ t, readfile buf = some t ∧ (t.written = buf ↔ Keepable buf) :=
  ⟨loaded buf, if_neg (by omega), loaded_written_iff buf h0⟩

theorem load_save_iff_ab :
    ∃ t, readfile [97, 10, 98] = some t ∧ (t.written = [97, 10, 98] ↔ Keepable [97, 10, 98]) :=
  load_save_iff [97, 10, 98] (by decide) (by decide)

/-- A file of 80 letters `a` is saved with a letter `Q` behind it. -/
theorem eighty_not_kept :
    ∃ buf : List Byte, EMPTY_CHAR ∉ buf ∧ buf.length ≤ MAX_FILE_SIZE ∧
      ∃ t, readfile buf = some t ∧ t.written ≠ buf := by
  refine ⟨List.replicate 80 97, by decide, by decide, loaded (List.replicate 80 97), rfl, ?_⟩
  rw [Ne, loaded_written_iff _ (by decide)]
  decide

end Xv6.Vim
