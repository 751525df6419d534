import Xv6.Vim.Paint

/-!
# Edits at the cursor

What a key at a cell of the text changes, for the cells that the arrow keys reach.

The newline of a line stands in its node, in front of the characters, and is shown at the
end of the row above.  So in every row but the first the character shown in a column is the
next one of its node, and the edits, which take the column for the index, miss it by one.
-/

namespace Xv6.Vim

open Lib Console List

variable {rows : List (List Byte)} {p : List Byte} {l : Line} {t : Ctext}

/-- The rows of a text: at most `MAX_ROW`, each shorter than 79. -/
structure TextRows (rows : List (List Byte)) : Prop extends Editor.FitRows rows where
  le : rows.length ≤ 24
  nul : ∀ row ∈ rows, EMPTY_CHAR ∉ row

structure Line.Holds (l : Line) (p : List Byte) : Prop where
  stores : l.Stores p
  len : l.len = p.length
  short : p.length < 80

theorem Line.Holds.string_eq (h : l.Holds p) : l.string = p := h.stores.string_eq h.short

namespace TextRows

variable (h : TextRows rows)

include h

theorem short_opened (hp : p ∈ opened NL rows) : p.length < 80 := by
  obtain ⟨t, ts, rfl⟩ := exists_cons_of_ne_nil h.ne
  obtain ⟨ht, hts⟩ := forall_mem_cons.mp h.short
  rcases mem_cons.mp hp with rfl | hp
  · omega
  · obtain ⟨s, hs, rfl⟩ := mem_map.mp hp
    have := hts s hs
    rw [length_cons]
    omega

theorem nul_opened (hp : p ∈ opened NL rows) : EMPTY_CHAR ∉ p := by
  obtain ⟨t, ts, rfl⟩ := exists_cons_of_ne_nil h.ne
  obtain ⟨ht, hts⟩ := forall_mem_cons.mp h.nul
  rcases mem_cons.mp hp with rfl | hp
  · exact ht
  · obtain ⟨s, hs, rfl⟩ := mem_map.mp hp
    exact fun hm => (mem_cons.mp hm).elim (by decide) (hts s hs)

theorem nul_joinRows : EMPTY_CHAR ∉ joinRows NL rows := by
  intro hm
  obtain ⟨p, hp, hm⟩ := mem_flatten.mp hm
  exact h.nul_opened hp hm

theorem pieces_eq : pieces NL [] (joinRows NL rows) = opened NL rows := by
  have hnl := h.newline
  obtain ⟨t, ts, rfl⟩ := exists_cons_of_ne_nil h.ne
  obtain ⟨ht, hts⟩ := forall_mem_cons.mp hnl
  exact Cuts.pieces_flatten ⟨t, ts, ht, hts, rfl⟩

theorem holds_loaded :
    List.Forall₂ Line.Holds (loaded (joinRows NL rows)).nodes (opened NL rows) := by
  obtain ⟨hclosed, hlast, -⟩ := loaded_lines (joinRows NL rows) h.nul_joinRows
  have hshort : ∀ p ∈ pieces NL [] (joinRows NL rows), p.length < 80 := by
    rw [h.pieces_eq]
    exact fun p hp => h.short_opened hp
  rw [← h.pieces_eq, Ctext.nodes, pieces]
  rw [pieces] at hshort
  refine rel_append ?_ (.cons ?_ .nil)
  · refine forall₂_iff_get.mpr ⟨hclosed.length_eq, fun i hi hi' => ?_⟩
    have hline := (forall₂_iff_get.mp hclosed).2 i hi hi'
    have hlt := hshort _ (mem_append_left _ (get_mem _ ⟨i, hi'⟩))
    exact ⟨hline.stores, by rw [hline.len, if_pos hlt], hlt⟩
  · have hlt := hshort _ (mem_append_right _ (mem_singleton.mpr rfl))
    exact ⟨hlast.stores, by rw [hlast.len, Line.lenAfter, if_pos hlt], hlt⟩

theorem lines_loaded : (loaded (joinRows NL rows)).lines = rows.length := by
  rw [(loaded_lines _ h.nul_joinRows).2.2, h.holds_loaded.length_eq, length_opened]

end TextRows

theorem strings_of_holds {ls : List Line} {ps : List (List Byte)}
    (h : List.Forall₂ Line.Holds ls ps) : ls.map Line.string = ps := by
  induction h with
  | nil => rfl
  | cons h _ ih => rw [map_cons, h.string_eq, ih]

theorem exists_holds {ls : List Line} {ps : List (List Byte)} (h : List.Forall₂ Line.Holds ls ps)
    {i : Nat} (hl : ls[i]? = some l) : ∃ p, ps[i]? = some p ∧ l.Holds p := by
  obtain ⟨hi, rfl⟩ := List.getElem?_eq_some_iff.mp hl
  have hi' : i < ps.length := h.length_eq ▸ hi
  exact ⟨ps[i], getElem?_eq_getElem hi', (forall₂_iff_get.mp h).2 i hi hi'⟩

theorem Ctext.written_modify {i : Nat} {f : Line → Line} (hi : i ≤ t.init.length) :
    (t.modify i f).written = ((t.nodes.map Line.string).set i (f (t.get i)).string).flatten := by
  rw [written, nodes_modify hi]
  congr 1
  have hget := getElem?_nodes hi
  apply ext_getElem?
  intro j
  rw [getElem?_map, getElem?_modify, getElem?_set, getElem?_map]
  split_ifs with hij hlt
  · subst hij
    rw [hget]
    rfl
  · subst hij
    rw [length_map] at hlt
    exact absurd (List.getElem?_eq_some_iff.mp hget).1 hlt
  · simp

theorem Ctext.index_modify {i : Nat} {f : Line → Line} (hf : ∀ l, (f l).lineno = l.lineno)
    (line : Int) : (t.modify i f).index line = t.index line := by
  have hwalk : ∀ (ls : List Line) (i : Nat), walk line (ls.modify i f) = walk line ls := by
    intro ls
    induction ls with
    | nil => simp
    | cons p rest ih =>
      intro i
      cases i with
      | zero => rw [modify_zero_cons, walk, walk, hf]
      | succ i => rw [modify_succ_cons, walk, walk, ih]
  rw [modify]
  split
  · exact hwalk t.init i
  · rfl

namespace Line

theorem Holds.type (h : l.Holds p) {k : Nat} (hk : k < p.length) {x : Byte} (hx : x ≠ EMPTY_CHAR) :
    (l.poke k x).measure.string = p.set k x := by
  have hstores : (l.poke k x).measure.Stores (p.set k x) := h.stores.poke_mid h.short hk hx
  exact hstores.string_eq (by rw [length_set]; exact h.short)

theorem string_of_cells (rest : List Byte) (hp : EMPTY_CHAR ∉ p)
    (hc : l.c = p ++ EMPTY_CHAR :: rest) : l.string = p := by
  rw [string, hc, append_assoc, cons_append, before_stop hp]

theorem Holds.remove (h : l.Holds p) {k : Nat} (hk : k < 79) :
    (l.remove k (by omega)).string = if k < p.length then p.eraseIdx k else p := by
  have hshort := h.short
  have hcells : l.c = p ++ replicate (80 - p.length) EMPTY_CHAR := by
    rw [h.stores.2, take_of_length_le (by omega)]
  split
  case isTrue hlt =>
    refine string_of_cells (replicate (79 - p.length) EMPTY_CHAR ++ [BitVec.ofNat 8 l.len])
      (fun hm => h.stores.1 (mem_of_mem_eraseIdx hm)) ?_
    change l.c.take k ++ (l.c ++ [BitVec.ofNat 8 l.len]).drop (k + 1) = _
    rw [hcells, take_append_of_le_length (by omega), append_assoc,
      drop_append_of_le_length (by omega), eraseIdx_eq_take_drop_succ, append_assoc,
      show 80 - p.length = 79 - p.length + 1 by omega, replicate_succ, cons_append]
  case isFalse hge =>
    refine string_of_cells (replicate (78 - p.length) EMPTY_CHAR ++ [BitVec.ofNat 8 l.len])
      h.stores.1 ?_
    have htake : l.c.take k = p ++ replicate (k - p.length) EMPTY_CHAR := by
      rw [hcells, take_append, take_of_length_le (by omega), take_replicate,
        Nat.min_eq_left (by omega)]
    have hdrop : (l.c ++ [BitVec.ofNat 8 l.len]).drop (k + 1) =
        replicate (79 - k) EMPTY_CHAR ++ [BitVec.ofNat 8 l.len] := by
      rw [drop_append_of_le_length (by rw [l.size]; omega), hcells, drop_append,
        drop_of_length_le (by omega), nil_append, drop_replicate]
      congr 2
      omega
    change l.c.take k ++ (l.c ++ [BitVec.ofNat 8 l.len]).drop (k + 1) = _
    rw [htake, hdrop, append_assoc, ← append_assoc (replicate _ _),
      replicate_append_replicate, ← cons_append, ← replicate_succ]
    congr 3
    omega

theorem Holds.enter (h : l.Holds p) : (l.poke l.strlen NL).string =
      if p.length < 79 then p ++ [NL] else p ++ [NL, BitVec.ofNat 8 79] := by
  have hshort := h.short
  have hlen : l.strlen = p.length := by rw [strlen, h.string_eq]
  rw [hlen]
  have hstores : (l.poke p.length NL).Stores (p ++ [NL]) := h.stores.poke_end hshort (by decide)
  split
  · exact hstores.string_eq (by rw [length_append, length_singleton]; omega)
  case isFalse hfull =>
    have hlen' : (l.poke p.length NL).len = 79 := by
      rw [poke, if_pos hshort]
      change l.len = 79
      have := h.len
      omega
    rw [hstores.string_of_len (by rw [length_append, length_singleton]; omega)
      (by omega) (by omega), hlen',
      take_of_length_le (by rw [length_append, length_singleton]; omega),
      append_assoc]
    rfl

end Line

namespace Editor

variable {e e' : Editor} {x : Byte}

def row (e : Editor) : Nat := (e.getcursor / 80).toNat

theorem cursor_eq (e : Editor) : e.getcursor = 80 * e.row + e.col := by
  have h0 := e.getcursor_nonneg
  rw [row, col]
  omega

theorem row_congr (hc : e'.getcursor = e.getcursor) : e'.row = e.row := by
  rw [row, row, hc]

def Arrow : Event → Prop
  | .key c _ => c = 0xE2 ∨ c = 0xE3 ∨ c = 0xE4 ∨ c = 0xE5
  | _ => False

structure Walks (rows : List (List Byte)) (e : Editor) : Prop where
  text : e.text = loaded (joinRows NL rows)
  mode : e.mode = .readonly
  running : e.status = .running
  col : e.col ≤ 78
  vimline : e.vimline ≤ e.row + 1
  lit : e.Lit
  shows : Shows 0 rows e.screen.crt

theorem Shows.congr (hrows : TextRows rows) (h : Shows 0 rows e.screen.crt)
    (hsame : SameArea e e') : Shows 0 rows e'.screen.crt := by
  have hle := hrows.le
  have harea : ∀ (j k : Nat) (row : List Byte), rows[j]? = some row → k ≤ row.length →
      InArea (80 * (((0 : Nat) : Int) + j) + k) := by
    intro j k row hrow hk
    have hj : j < rows.length := (List.getElem?_eq_some_iff.mp hrow).1
    have hshort := hrows.short row (mem_of_getElem? hrow)
    exact ⟨by omega, by simp only [MAX_CHAR, MAX_ROW, MAX_COL]; omega⟩
  refine ⟨?_, ?_⟩
  · intro j row k b hrow hb
    have hk : k < row.length := (List.getElem?_eq_some_iff.mp hb).1
    rw [hsame _ (harea j k row hrow (by omega))]
    exact h.chars j row k b hrow hb
  · intro j row hrow hne
    rw [hsame _ (harea j row.length row hrow (Nat.le_refl _))]
    exact h.next j row hrow hne

namespace Walks

variable (hrows : TextRows rows) (h : Walks rows e)

include hrows h

theorem line_holds : ∃ p, (opened NL rows)[e.text.index e.vimline]? = some p ∧ e.line.Holds p := by
  have hnode : e.text.nodes[e.text.index e.vimline]? = some e.line :=
    Ctext.getElem?_nodes (e.text.index_le _)
  rw [h.text] at hnode ⊢
  exact exists_holds hrows.holds_loaded hnode

theorem getchar_last {pos : Int} (h0 : 0 ≤ pos)
    (hpos : pos % 80 = 79) (junk : Int) : e.getchar pos junk = EMPTY_CHAR := by
  obtain ⟨p, -, hp⟩ := h.line_holds hrows
  have hshort := hp.short
  have hcell : e.line.c[79]? = some EMPTY_CHAR := by
    rw [hp.stores.2, getElem?_append_right (by rw [length_take]; omega),
      getElem?_replicate, if_pos (by rw [length_take]; omega)]
  rw [getchar, Int.tmod_eq_emod_of_nonneg h0, hpos, if_neg (by decide)]
  change (e.line.c[79]?).getD 0 = EMPTY_CHAR
  rw [hcell]
  rfl

theorem move {pos v : Int} (h0 : 0 ≤ pos)
    (hlt : pos < 65536) (hcol : pos % 80 ≤ 78) (hv : v ≤ pos / 80 + 1) :
    Walks rows { e.setcursor pos with vimline := v } := by
  have hcursor : ({ e.setcursor pos with vimline := v } : Editor).getcursor = pos :=
    getcursor_setcursor e h0 hlt
  have hsame := SameArea.setcursor h.lit pos
  refine ⟨h.text, h.mode, h.running, ?_, ?_, hsame.lit h.lit, h.shows.congr hrows hsame⟩
  · rw [Editor.col, hcursor]
    omega
  · rw [Editor.row, hcursor]
    change v ≤ _
    omega

theorem cursormove (m : Move) (junk : Int) : Walks rows (e.cursormove m junk) := by
  have h0 := e.getcursor_nonneg
  have h1 := e.getcursor_lt
  have hcmd : ¬e.mode.isCmd := by simp [h.mode, Mode.isCmd]
  have hcol := h.col
  have hvim := h.vimline
  have hcolumn : (e.col : Int) = e.getcursor % 80 := col_eq e
  have hrow : (e.row : Int) = e.getcursor / 80 := by
    rw [Editor.row]
    omega
  rw [hrow] at hvim
  have hlines : e.text.lines ≤ 24 := by
    rw [h.text, hrows.lines_loaded]
    exact hrows.le
  cases m with
  | left =>
    simp only [Editor.cursormove, if_neg hcmd]
    split_ifs with hpos
    · have hne : (e.getcursor - 1) % 80 ≠ 79 :=
        fun hlast => hpos.2 (h.getchar_last hrows (by omega) hlast junk)
      exact h.move hrows (by omega) (by omega) (by omega) (by omega)
    · exact h
  | right =>
    simp only [Editor.cursormove, if_neg hcmd]
    split_ifs with hpos
    · have hlt : e.getcursor < 1920 := hpos.1
      have hne : (e.getcursor + 1) % 80 ≠ 79 :=
        fun hlast => hpos.2 (h.getchar_last hrows (by omega) hlast junk)
      exact h.move hrows (by omega) (by omega) (by omega) (by omega)
    · exact h
  | down =>
    simp only [Editor.cursormove, MAX_CHAR, MAX_ROW, MAX_COL]
    split_ifs with hok hclamp
    · have := hok.2.2.1
      omega
    · have := hok.2.2.1
      exact h.move hrows (by omega) (by omega) (by omega) (by omega)
    · exact h
  | up =>
    simp only [Editor.cursormove, MAX_COL]
    split_ifs with hok hclamp
    · exact h.move hrows (by omega) (by omega) (by omega) (by omega)
    · exact h.move hrows (by omega) (by omega) (by omega) (by omega)
    · exact h

theorem showline : Walks rows e.showline := by
  have hdraw := Draws.showline e
  have hcursor := getcursor_showline e
  have hsame := SameArea.showline h.lit
  refine ⟨hdraw.text.trans h.text, hdraw.mode.trans h.mode, hdraw.status.trans h.running, ?_, ?_,
    hsame.lit h.lit, h.shows.congr hrows hsame⟩
  · rw [col_congr hcursor]
    exact h.col
  · rw [row_congr hcursor, hdraw.vimline]
    exact h.vimline

theorem step {ev : Event} (hev : Arrow ev) : Walks rows (e.step ev) := by
  cases ev with
  | key c junk =>
    have hmotion : ∃ m, motion .readonly c = some m := by
      rcases hev with rfl | rfl | rfl | rfl <;> exact ⟨_, rfl⟩
    obtain ⟨m, hm⟩ := hmotion
    rw [step_key ⟨h.running, by simp [h.mode]⟩, mainKey]
    simp only [(Draws.showline e).mode, h.mode, hm]
    exact (h.showline hrows).cursormove hrows m junk
  | backspace | eof junk => exact hev.elim

end Walks

theorem written_loaded (hrows : TextRows rows) :
    (loaded (joinRows NL rows)).written = joinRows NL rows := by
  rw [Ctext.written, strings_of_holds hrows.holds_loaded, joinRows]

theorem shown_eq_written (h : t.index 1 = 0) : t.shown = t.written := by
  rw [Ctext.shown, h, drop_zero, Ctext.written]

theorem crt_clrscr_ne (s : Screen) {i : Int} (hi : InArea i) :
    (clrscr s).crt i ≠ Console.EMPTY_CHAR := by
  have h0 : (0 : Int) ≤ 0 ∧ (0 : Int) < MAX_CHAR := by decide
  have hi' : 0 ≤ i ∧ i < MAX_CHAR := hi
  simp only [clrscr, Function.update_apply, if_pos h0, if_pos hi']
  split_ifs <;> decide

theorem paints_printtext (hrows : FitRows rows) (hle : rows.length ≤ 24)
    (hshown : e.text.shown = joinRows NL rows) (hlit : e.Lit) :
    ∃ e1 : Editor, Paints 0 rows e.screen.crt e1.screen.crt ∧ e1.Lit ∧
      SameArea e1 (e.printtext 1) := by
  have hpaint := paints (e := e) (r := 0) hrows (by omega) hlit
  refine ⟨_, hpaint.1, hpaint.2, ?_⟩
  have hprint : e.printtext 1 = (e.printChars 0 e.text.shown).setcursor 0 := rfl
  rw [hprint, hshown]
  exact SameArea.setcursor hpaint.2 0

theorem walks_start (hrows : TextRows rows) (screen : Screen) (cmd : Nat → Byte) :
    Walks rows (start (loaded (joinRows NL rows)) screen cmd) := by
  have hdraw := draws_start (loaded (joinRows NL rows)) screen cmd
  have hcursor : (start (loaded (joinRows NL rows)) screen cmd).getcursor = 0 :=
    getcursor_setcursor _ (by decide) (by decide)
  have hshown : (loaded (joinRows NL rows)).shown = joinRows NL rows :=
    (shown_eq_written (index_loaded _)).trans (written_loaded hrows)
  obtain ⟨e0, he0⟩ : ∃ e0 : Editor, e0 =
      { text := loaded (joinRows NL rows), vimline := 1, mode := .readonly, screen := clrscr screen
        precrt := screen.crt, precursor := screen.getcursor, cmd, status := .running, passed := []
        drawn := [] } := ⟨_, rfl⟩
  have hlit0 : e0.Lit := by
    rw [he0]
    exact fun i hi => crt_clrscr_ne screen hi
  have hshown0 : (e0.setcursor 0).text.shown = joinRows NL rows := by
    rw [he0]
    exact hshown
  have hstart : start (loaded (joinRows NL rows)) screen cmd = (e0.setcursor 0).printtext 1 := by
    rw [he0]
    rfl
  obtain ⟨e1, hpaint, hlit, hsame⟩ := paints_printtext hrows.toFitRows hrows.le hshown0
    ((SameArea.setcursor hlit0 0).lit hlit0)
  rw [← hstart] at hsame
  refine ⟨hdraw.text, hdraw.mode, hdraw.status, ?_, ?_, hsame.lit hlit,
    hpaint.shows.congr hrows hsame⟩
  · rw [Editor.col, hcursor]
    decide
  · rw [hdraw.vimline]
    change (1 : Int) ≤ _
    omega

def Swallowed (x : Byte) : Prop := x = ascii 'k' ∨ x = ascii 'g' ∨ x = ascii 'G'

instance (x : Byte) : Decidable (Swallowed x) := inferInstanceAs (Decidable (_ ∨ _))

namespace Walks

theorem typing (h : Walks rows e) (hx : inputfilter x) (hnl : x ≠ NL)
    (hcursor : e.getcursor + 1 < MAX_CHAR) (junk junk' : Int) :
    ((e.step (.key (ascii 'i') junk)).step (.key x junk')).text =
        (if Swallowed x then e.text else e.typed x) ∧
      ((e.step (.key (ascii 'i') junk)).step (.key x junk')).Lit ∧
      ∀ i, InArea i → i ≠ e.getcursor → i ≠ e.getcursor + 1 →
        ((e.step (.key (ascii 'i') junk)).step (.key x junk')).screen.crt i = e.screen.crt i := by
  have hstep := step_i h.mode h.running junk
  obtain ⟨ei, hei⟩ : ∃ ei : Editor, ei = { e.showline with mode := .insert } := ⟨_, rfl⟩
  have hmode : ei.mode = .insert := by rw [hei]
  have hrun : ei.status = .running := by
    rw [hei]
    exact (Draws.showline e).status.trans h.running
  rw [hstep, ← hei, step_key ⟨hrun, by simp [hmode]⟩]
  -- the line number is shown twice, once for each key
  have hsamei : SameArea e ei := by
    rw [hei]
    exact SameArea.showline h.lit
  have hsame : SameArea e ei.showline := hsamei.trans (SameArea.showline (hsamei.lit h.lit))
  have hlit := hsame.lit h.lit
  have hdraw := Draws.showline ei
  have hpos : ei.showline.getcursor = e.getcursor := by
    rw [getcursor_showline, hei]
    exact getcursor_showline e
  have htext : ei.showline.text = e.text := by
    rw [hdraw.text, hei]
    exact (Draws.showline e).text
  have htyped : ei.showline.typed x = e.typed x := by
    rw [hdraw.typed (getcursor_showline ei), hei]
    exact (Draws.showline e).typed (getcursor_showline e) x
  have hm : ei.showline.mode = .insert := hdraw.mode.trans hmode
  have hacts := mainKey_acts ei x junk'
  generalize ei.mainKey x junk' = e' at hacts ⊢
  cases hacts with
  | move m hmotion =>
    rw [hmode] at hmotion
    obtain ⟨hk, -⟩ := motion_insert hx hmotion
    have hmove : SameArea ei.showline (ei.showline.cursormove m junk') :=
      SameArea.cursormove hlit (by rw [hm]; decide) m junk'
    refine ⟨?_, hmove.lit hlit, fun i hi _ _ => (hsame.trans hmove) i hi⟩
    rw [if_pos (.inl hk), (Moves.cursormove _ _ _).text, htext]
  | type _ _ _ hk hg hG =>
    have hcell : ∀ i, (ei.showline.default x).screen.crt i =
        if i = e.getcursor + 1 then BLANK else if i = e.getcursor then glyph x
        else (ei.showline.setcursor e.getcursor).screen.crt i := by
      intro i
      rw [default, if_pos ⟨hm, hx⟩, hpos, ← glyph_toNat]
      exact crt_scrputc (toNat_ne_newline hnl) (toNat_ne_backspace x) e.getcursor_nonneg hcursor i
    have hset : SameArea e (ei.showline.setcursor e.getcursor) :=
      hsame.trans (SameArea.setcursor hlit _)
    refine ⟨?_, ?_, ?_⟩
    · rw [if_neg (by simp [Swallowed, hk, hg, hG]), text_default hm hx, htyped]
    · intro i hi
      rw [hcell]
      split_ifs
      · decide
      · exact glyph_ne x
      · exact hset.lit h.lit i hi
    · intro i hi hne hne'
      rw [hcell, if_neg hne', if_neg hne]
      exact hset i hi
  | bottom hr | top hr => rw [hmode] at hr; cases hr
  | stop _ hesc =>
    rw [hesc] at hx
    exact absurd hx (by decide)
  | release p hr | colon hr | insert hr | remove hr => rw [hmode] at hr; cases hr
  | enter hc => exact absurd hc hnl
  | ignored hi =>
    refine ⟨?_, hlit, fun i hi _ _ => hsame i hi⟩
    rw [if_pos (.inr (hi hmode hx)), htext]

theorem removing (h : Walks rows e) (junk : Int) :
    (e.step (.key (ascii 'x') junk)).text = e.removed := by
  have hshow := Draws.showline e
  have hstep : e.step (.key (ascii 'x') junk) = e.showline.rmch := by
    rw [step_key ⟨h.running, by simp [h.mode]⟩, mainKey, hshow.mode, h.mode]
    change e.showline.otherKey (ascii 'x') junk = _
    rw [otherKey, hshow.mode, h.mode]
    rfl
  rw [hstep, (Draws.rmch e.showline).text]
  exact hshow.removed (getcursor_showline e)

theorem entering (h : Walks rows e) (junk junk' : Int) :
    ((e.step (.key (ascii 'i') junk)).step (.key NL junk')).text.nodes =
      e.text.init ++ [if e.text.last.len < 80 then e.text.last.poke e.text.last.strlen NL
        else e.text.last] ++ [Line.empty (e.text.last.lineno + 1) (e.text.last.para + 1)] := by
  obtain ⟨ei, hei⟩ : ∃ ei : Editor, ei = { e.showline with mode := .insert } := ⟨_, rfl⟩
  have hmode : ei.mode = .insert := by rw [hei]
  have hrun : ei.status = .running := by
    rw [hei]
    exact (Draws.showline e).status.trans h.running
  have htext : ei.showline.text = e.text := by
    rw [(Draws.showline ei).text, hei]
    exact (Draws.showline e).text
  have hstep : ei.step (.key NL junk') = ei.showline.enter := by
    rw [step_key ⟨hrun, by simp [hmode]⟩, mainKey, (Draws.showline ei).mode, hmode]
    rfl
  rw [step_i h.mode h.running junk, ← hei, hstep, nodes_enter, htext]

variable (hrows : TextRows rows) (h : Walks rows e)

include hrows h

theorem strings : e.text.nodes.map Line.string = opened NL rows := by
  rw [h.text]
  exact strings_of_holds hrows.holds_loaded

theorem typed_eq (x : Byte) :
    e.typed x = e.text.modify (e.text.index e.vimline) fun p => (p.poke e.col x).measure := by
  obtain ⟨p, -, hline⟩ := h.line_holds hrows
  refine if_neg fun hopen => ?_
  have hfull := hopen.2.2
  have hlen := hline.len
  have hshort := hline.short
  omega

theorem written_typed
    (hp : (opened NL rows)[e.text.index e.vimline]? = some p) (hcol : e.col < p.length)
    (hx : x ≠ EMPTY_CHAR) :
    (e.typed x).written =
      ((opened NL rows).set (e.text.index e.vimline) (p.set e.col x)).flatten := by
  obtain ⟨p', hp', hline⟩ := h.line_holds hrows
  obtain rfl := Option.some.inj (hp'.symm.trans hp)
  rw [h.typed_eq hrows, Ctext.written_modify (e.text.index_le _), h.strings hrows]
  congr 2
  exact hline.type hcol hx

theorem index_typed (x : Byte) : (e.typed x).index 1 = 0 := by
  have hlineno : ∀ l : Line, (l.poke e.col x).measure.lineno = l.lineno :=
    fun l => (Line.lineno_poke (by have := e.col_lt; omega) x).1
  rw [h.typed_eq hrows, Ctext.index_modify hlineno, h.text]
  exact index_loaded _

/-- What is written after the character at the column has been removed from the selected
node. -/
theorem written_removed (hp : (opened NL rows)[e.text.index e.vimline]? = some p) :
    e.removed.written = ((opened NL rows).set (e.text.index e.vimline)
      (if e.col < p.length then p.eraseIdx e.col else p)).flatten := by
  obtain ⟨p', hp', hline⟩ := h.line_holds hrows
  obtain rfl := Option.some.inj (hp'.symm.trans hp)
  have hcol := h.col
  have hstrlen : e.line.strlen < 80 := by
    rw [Line.strlen, hline.string_eq]
    exact hline.short
  have hstrings := h.strings hrows
  rw [removed, if_pos hstrlen, Ctext.written_modify (e.text.index_le _), hstrings]
  congr 2
  exact hline.remove (by omega)

/-- What is written after Enter: a newline at the end of the last node, with the byte of
`len` behind it if the node is then full. -/
theorem written_entered (junk junk' : Int) : ∃ q, (opened NL rows)[rows.length - 1]? = some q ∧
      ((e.step (.key (ascii 'i') junk)).step (.key NL junk')).text.written =
        joinRows NL rows ++ if q.length < 79 then [NL] else [NL, BitVec.ofNat 8 79] := by
  have hstrings := h.strings hrows
  have hlen : e.text.init.length + 1 = rows.length := by
    have := congrArg length hstrings
    rwa [length_map, length_opened, Ctext.nodes, length_append, length_singleton] at this
  have hlast : e.text.nodes[e.text.init.length]? = some e.text.last := by
    rw [Ctext.nodes, getElem?_append_right (Nat.le_refl _), Nat.sub_self]
    rfl
  obtain ⟨q, hq, hholds⟩ : ∃ q, (opened NL rows)[e.text.init.length]? = some q ∧
      e.text.last.Holds q := by
    rw [h.text] at hlast ⊢
    exact exists_holds hrows.holds_loaded hlast
  have hshort : e.text.last.len < 80 := by
    rw [hholds.len]
    exact hholds.short
  refine ⟨q, by rwa [show rows.length - 1 = e.text.init.length by omega], ?_⟩
  have hempty : (Line.empty (e.text.last.lineno + 1) (e.text.last.para + 1)).string = [] :=
    (Line.stores_empty _ _).string_eq (by decide)
  rw [Ctext.written, h.entering, if_pos hshort, map_append, map_append, map_singleton,
    map_singleton, hempty, hholds.enter, joinRows, ← hstrings, Ctext.nodes, map_append,
    map_singleton, hholds.string_eq]
  simp only [flatten_append, flatten_singleton, append_nil, append_assoc]
  split_ifs <;> rfl

end Walks

/-- The three edits at the cell of the cursor, which holds a character of `row`. -/
structure EditsAt (rows : List (List Byte)) (row : List Byte) (e : Editor) (x : Byte) : Prop where
  /-- typing `x` in insert mode puts it into the place of the character shown there -/
  typed : ∀ junk junk' e', e' = (e.step (.key (ascii 'i') junk)).step (.key x junk') →
    e'.text.written = joinRows NL (rows.set e.row (row.set e.col x)) ∧
    (e'.printtext 1).screen.crt (80 * e.row + e.col) = glyph x ∧
    ∀ i, InArea i → i ≠ 80 * e.row + e.col → (e'.printtext 1).screen.crt i = e.screen.crt i
  removed : ∀ junk, (e.step (.key (ascii 'x') junk)).text.written =
    joinRows NL (rows.set e.row (row.eraseIdx e.col))
  /-- Enter in insert mode adds one newline to its row, there or further on -/
  entered : ∀ junk junk', ∃ k, e.col ≤ k ∧ k ≤ row.length ∧
    ((e.step (.key (ascii 'i') junk)).step (.key NL junk')).text.written =
      joinRows NL (rows.set e.row (row.take k ++ NL :: row.drop k))

/-- Where the edits are right: on the first row, if no other row has characters and the
character is one that insert mode enters, or already stands there.  On a later row the edit
of the character before it must come to the same. -/
def EditsFit (rows : List (List Byte)) (row : List Byte) (e : Editor) (x : Byte) : Prop :=
  (∀ s ∈ rows.drop (e.row + 1), s = []) ∧
    ((e.row = 0 ∧ (Swallowed x → row[e.col]? = some x)) ∨
      (e.row ≠ 0 ∧ e.text.index e.vimline = e.row ∧ e.col ≠ 0 ∧ row[e.col - 1]? = some x ∧
        row[e.col]? = some x ∧ (rows.length = e.row + 1 → row.length < 78)))

theorem index_first (h : Walks rows e) (hr : e.row = 0) : e.text.index e.vimline = 0 := by
  have hvim := h.vimline
  have hone := index_loaded (joinRows NL rows)
  rw [h.text]
  rw [Ctext.index] at hone ⊢
  cases hinit : (loaded (joinRows NL rows)).init with
  | nil => rfl
  | cons l rest =>
    rw [hinit, Ctext.walk] at hone
    have hle : ¬(l.lineno : Int) < 1 := by
      intro hlt
      rw [if_pos hlt] at hone
      omega
    rw [Ctext.walk, if_neg (by omega)]

section Cell

variable {row : List Byte} (hrows : TextRows rows) (h : Walks rows e)
  (hrow : rows[e.row]? = some row) (hcol : e.col < row.length)

include hrows h hrow hcol

/-- The removal is right on the first row; on a later one the selected node must be the one
of the row, and the character before the same. -/
theorem removed_iff (junk : Int) : (e.step (.key (ascii 'x') junk)).text.written =
        joinRows NL (rows.set e.row (row.eraseIdx e.col)) ↔
      e.row = 0 ∨ (e.text.index e.vimline = e.row ∧ e.col ≠ 0 ∧ row[e.col - 1]? = row[e.col]?) := by
  obtain ⟨p, hp, -⟩ := h.line_holds hrows
  rw [h.removing, h.written_removed hrows hp]
  by_cases hr : e.row = 0
  · refine iff_of_true ?_ (.inl hr)
    rw [index_first h hr, getElem?_opened_zero, ← hr, hrow, Option.some.injEq] at hp
    rw [index_first h hr, ← hp, if_pos hcol, opened_set_zero, hr, joinRows]
  · rw [or_iff_right hr]
    split
    case isTrue hlt => exact erase_piece_iff hrows.newline hr hrow hcol hp
    case isFalse hge =>
      refine iff_of_false ?_ ?_
      · -- nothing is removed, so the lengths differ
        intro heq
        have hself : (opened NL rows).set (e.text.index e.vimline) p = opened NL rows := by
          obtain ⟨hlt, hget⟩ := List.getElem?_eq_some_iff.mp hp
          rw [← hget, set_getElem_self]
        rw [hself] at heq
        have hrow' := (joinRows_set_self hrow).mp heq
        have := congrArg length hrow'
        rw [length_eraseIdx_of_lt hcol] at this
        omega
      · rintro ⟨hs, -, -⟩
        rw [hs, getElem?_opened hr, hrow, Option.map_some, Option.some.injEq] at hp
        rw [← hp, length_cons] at hge
        omega

theorem typed_text_iff (hx : inputfilter x) (hnl : x ≠ NL) (hcursor : e.getcursor + 1 < MAX_CHAR)
    (hremoved : e.row = 0 ∨
      (e.text.index e.vimline = e.row ∧ e.col ≠ 0 ∧ row[e.col - 1]? = row[e.col]?))
    (junk junk' : Int) :
    ((e.step (.key (ascii 'i') junk)).step (.key x junk')).text.written =
        joinRows NL (rows.set e.row (row.set e.col x)) ↔
      (e.row = 0 ∧ (Swallowed x → row[e.col]? = some x)) ∨ (e.row ≠ 0 ∧ row[e.col]? = some x) := by
  rw [(h.typing hx hnl hcursor junk junk').1]
  by_cases hsw : Swallowed x
  · rw [if_pos hsw, h.text, written_loaded hrows, joinRows_set_self hrow, eq_set_iff hcol]
    by_cases hr : e.row = 0
    · simp [hr, hsw]
    · simp [hr]
  · rw [if_neg hsw]
    obtain ⟨p, hp, -⟩ := h.line_holds hrows
    by_cases hr : e.row = 0
    · refine iff_of_true ?_ (.inl ⟨hr, fun hs => absurd hs hsw⟩)
      rw [index_first h hr, getElem?_opened_zero, ← hr, hrow, Option.some.injEq] at hp
      subst hp
      rw [(h.written_typed hrows (by rw [index_first h hr, getElem?_opened_zero, ← hr, hrow])
        hcol (inputfilter_ne_empty hx)), index_first h hr, opened_set_zero, hr, joinRows]
    · obtain ⟨hs, hc0, hsame⟩ := hremoved.resolve_left hr
      have hnode : (opened NL rows)[e.text.index e.vimline]? = some (NL :: row) := by
        rw [hs, getElem?_opened hr, hrow, Option.map_some]
      obtain ⟨n, hn⟩ := Nat.exists_eq_succ_of_ne_zero hc0
      have hset : (NL :: row).set e.col x = NL :: row.set (e.col - 1) x := by
        rw [hn, set_cons_succ, Nat.succ_sub_one]
      rw [(h.written_typed hrows hnode (by rw [length_cons]; omega)
        (inputfilter_ne_empty hx)), hset, hs, opened_set hr]
      change joinRows NL _ = _ ↔ _
      rw [joinRows_set_inj hrow, set_pred_eq_iff hc0 hcol, hsame]
      simp [hr]

theorem typed_screen (hx : inputfilter x) (hnl : x ≠ NL) (hcursor : e.getcursor + 1 < MAX_CHAR)
    {junk junk' : Int}
    (hwritten : ((e.step (.key (ascii 'i') junk)).step (.key x junk')).text.written =
      joinRows NL (rows.set e.row (row.set e.col x))) {e' : Editor}
    (he' : e' = (e.step (.key (ascii 'i') junk)).step (.key x junk')) :
    (e'.printtext 1).screen.crt (80 * e.row + e.col) = glyph x ∧
      ∀ i, InArea i → i ≠ 80 * e.row + e.col → (e'.printtext 1).screen.crt i = e.screen.crt i := by
  obtain ⟨htext, hlit, hcells⟩ := h.typing hx hnl hcursor junk junk'
  rw [← he'] at htext hlit hcells hwritten
  have hshown : e'.text.shown = joinRows NL (rows.set e.row (row.set e.col x)) := by
    rw [← hwritten]
    refine shown_eq_written ?_
    rw [htext]
    split
    · rw [h.text]
      exact index_loaded _
    · exact h.index_typed hrows x
  have hfit : FitRows (rows.set e.row (row.set e.col x)) := by
    have hmem := mem_of_getElem? hrow
    refine ⟨by simpa using hrows.ne, ?_, ?_⟩
    · intro u hu
      rcases mem_or_eq_of_mem_set hu with hu | rfl
      · exact hrows.short u hu
      · rw [length_set]
        exact hrows.short row hmem
    · refine forall_mem_set hrows.newline fun hm => ?_
      rcases mem_or_eq_of_mem_set hm with hm | hm
      · exact hrows.newline row hmem hm
      · exact hnl hm.symm
  obtain ⟨e1, hpaint, hlit1, hsame⟩ := paints_printtext hfit
    (by rw [length_set]; exact hrows.le) hshown hlit
  have hpos := e.cursor_eq
  obtain ⟨hcell, hother⟩ := hpaint.redraw h.shows hrow hcol fun i hi hne hne' =>
    hcells i hi (by omega) (by omega)
  have harea : InArea (80 * e.row + e.col) := by
    have h0 := e.getcursor_nonneg
    exact ⟨by omega, by omega⟩
  refine ⟨?_, fun i hi hne => ?_⟩
  · rw [hsame _ harea, hcell]
  · rw [hsame i hi, hother i hi hne]

theorem entered_iff_rest (junk junk' : Int) : (∃ k, e.col ≤ k ∧ k ≤ row.length ∧
      ((e.step (.key (ascii 'i') junk)).step (.key NL junk')).text.written =
        joinRows NL (rows.set e.row (row.take k ++ NL :: row.drop k))) ↔
      (∀ s ∈ rows.drop (e.row + 1), s = []) ∧
        (e.row ≠ 0 → rows.length = e.row + 1 → row.length < 78) := by
  obtain ⟨q, hq, hwritten⟩ := h.written_entered hrows junk junk'
  have hlen : e.row < rows.length := (List.getElem?_eq_some_iff.mp hrow).1
  have hshort := hrows.short row (mem_of_getElem? hrow)
  -- the last node, if no characters follow
  have hlast : (∀ s ∈ rows.drop (e.row + 1), s = []) →
      (q.length < 79 ↔ (e.row ≠ 0 → rows.length = e.row + 1 → row.length < 78)) := by
    intro hrest
    by_cases hend : rows.length = e.row + 1
    · rw [hend, Nat.add_sub_cancel] at hq
      by_cases hr : e.row = 0
      · rw [hr, getElem?_opened_zero, ← hr, hrow, Option.some.injEq] at hq
        exact iff_of_true (by rw [← hq]; exact hshort) fun hne => absurd hr hne
      · rw [getElem?_opened hr, hrow, Option.map_some, Option.some.injEq] at hq
        rw [← hq, length_cons]
        exact ⟨fun hlt _ _ => by omega, fun hcond => by have := hcond hr hend; omega⟩
    · refine iff_of_true ?_ fun _ hend' => absurd hend' hend
      rw [getElem?_opened (by omega)] at hq
      obtain ⟨s, hs, rfl⟩ := Option.map_eq_some_iff.mp hq
      have hmem : s ∈ rows.drop (e.row + 1) := by
        refine mem_of_getElem? (i := rows.length - 1 - (e.row + 1)) ?_
        rw [getElem?_drop, show e.row + 1 + (rows.length - 1 - (e.row + 1)) = rows.length - 1 by
          omega]
        exact hs
      rw [hrest s hmem]
      decide
  constructor
  · rintro ⟨k, -, hk, heq⟩
    rw [hwritten] at heq
    have hq79 : q.length < 79 := by
      by_contra hfull
      rw [if_neg hfull] at heq
      obtain ⟨pre, hpre, hself⟩ := joinRows_split (z := NL) hrow
      have hlength := congrArg length heq
      rw [hpre, hself] at hlength
      simp only [length_append, length_cons, length_take, length_drop, length_nil] at hlength
      omega
    rw [if_pos hq79] at heq
    have hrest := rest_empty_of_end hrows.newline hrow k heq
    exact ⟨hrest, (hlast hrest).mp hq79⟩
  · rintro ⟨hrest, hfull⟩
    refine ⟨row.length, by omega, Nat.le_refl _, ?_⟩
    rw [hwritten, if_pos ((hlast hrest).mpr hfull), end_of_rest_empty hrow hrest, take_length,
      drop_length]

end Cell

theorem walks_of_arrows (hrows : TextRows rows) (hread : readfile (joinRows NL rows) = some t)
    {screen : Screen} {cmd : Nat → Byte} {tr : List (Editor × Event)}
    (htr : Trace stepEditor (start t screen cmd) tr e) (harrows : ∀ y ∈ tr, Arrow y.2) :
    Walks rows e := by
  refine run_invariant (P := fun _ ev => Arrow ev) ?_ (fun e ev h hev => h.step hrows hev) htr
    harrows
  rw [← eq_loaded hread]
  exact walks_start hrows screen cmd

/-- At every cell with a character that the arrow keys reach, the three edits act at that
character exactly if the cell is one where they fit. -/
theorem edits_at_cursor_iff (hrows : TextRows rows) (hread : readfile (joinRows NL rows) = some t)
    {screen : Screen} {cmd : Nat → Byte} {tr : List (Editor × Event)}
    (htr : Trace stepEditor (start t screen cmd) tr e) (harrows : ∀ y ∈ tr, Arrow y.2)
    {row : List Byte} (hrow : rows[e.row]? = some row) (hcol : e.col < row.length)
    (hx : inputfilter x) (hnl : x ≠ NL) : EditsAt rows row e x ↔ EditsFit rows row e x := by
  have h := walks_of_arrows hrows hread htr harrows
  have hcursor : e.getcursor + 1 < MAX_CHAR := by
    have hpos := e.cursor_eq
    have hlen : e.row < rows.length := (List.getElem?_eq_some_iff.mp hrow).1
    have hshort := hrows.short row (mem_of_getElem? hrow)
    have hle := hrows.le
    simp only [MAX_CHAR, MAX_ROW, MAX_COL]
    omega
  have hremoved := removed_iff hrows h hrow hcol
  have hentered := entered_iff_rest hrows h hrow hcol
  have htyped := typed_text_iff hrows h hrow hcol hx hnl hcursor
  constructor
  · intro hedits
    obtain ⟨hrest, hfull⟩ := (hentered 0 0).mp (hedits.entered 0 0)
    have hremove := (hremoved 0).mp (hedits.removed 0)
    have htype := (htyped hremove 0 0).mp (hedits.typed 0 0 _ rfl).1
    refine ⟨hrest, htype.imp_right ?_⟩
    rintro ⟨hr, hchar⟩
    obtain ⟨hs, hc0, hsame⟩ := hremove.resolve_left hr
    exact ⟨hr, hs, hc0, hsame.trans hchar, hchar, hfull hr⟩
  · rintro ⟨hrest, hfit⟩
    have hremove : e.row = 0 ∨
        (e.text.index e.vimline = e.row ∧ e.col ≠ 0 ∧ row[e.col - 1]? = row[e.col]?) :=
      hfit.imp And.left fun ⟨_, hs, hc0, hpred, hchar, _⟩ => ⟨hs, hc0, hpred.trans hchar.symm⟩
    have hfull : e.row ≠ 0 → rows.length = e.row + 1 → row.length < 78 := by
      intro hr
      rcases hfit with hfirst | hlater
      · exact absurd hfirst.1 hr
      · exact hlater.2.2.2.2.2
    have hchar : (e.row = 0 ∧ (Swallowed x → row[e.col]? = some x)) ∨
        (e.row ≠ 0 ∧ row[e.col]? = some x) :=
      hfit.imp_right fun hlater => ⟨hlater.1, hlater.2.2.2.2.1⟩
    refine ⟨?_, fun junk => (hremoved junk).mpr hremove,
      fun junk junk' => (hentered junk junk').mpr ⟨hrest, hfull⟩⟩
    intro junk junk' e' he'
    have hwritten := (htyped hremove junk junk').mpr hchar
    exact ⟨by rw [he']; exact hwritten, typed_screen hrows h hrow hcol hx hnl hcursor hwritten he'⟩

def twoLetters : Editor :=
  start (loaded (joinRows NL [[97, 98], []])) (boot (fun _ => 0) 0) fun _ => 0

/-- On the second character of the first row, after a step to the right. -/
theorem edits_at_cursor_iff_right : ∃ e, e = twoLetters.step (.key 0xE5 0) ∧
    Trace stepEditor twoLetters [(twoLetters, .key 0xE5 0)] e ∧ e.col = 1 ∧
    EditsAt [[97, 98], []] [97, 98] e (ascii 'd') := by
  have hrows : TextRows [[97, 98], []] := ⟨⟨by decide, by decide, by decide⟩, by decide, by decide⟩
  have htr : Trace stepEditor twoLetters [(twoLetters, .key 0xE5 0)]
      (twoLetters.step (.key 0xE5 0)) := .cons .nil rfl
  have hiff : EditsAt [[97, 98], []] [97, 98] (twoLetters.step (.key 0xE5 0)) (ascii 'd') ↔
      EditsFit [[97, 98], []] [97, 98] (twoLetters.step (.key 0xE5 0)) (ascii 'd') := by
    refine edits_at_cursor_iff hrows rfl htr ?_ (by decide +kernel) (by decide +kernel) (by decide)
      (by decide)
    intro y hy
    rw [mem_singleton.mp hy]
    exact .inr (.inr (.inr rfl))
  exact ⟨_, rfl, htr, by decide +kernel, hiff.mpr
    ⟨by decide +kernel, .inl ⟨by decide +kernel, fun h => absurd h (by decide)⟩⟩⟩

/-- On the second row of a text the key `x` joins the rows instead of removing the character
that is shown at the cursor. -/
theorem second_row_not_edited :
    ∃ (rows : List (List Byte)) (row : List Byte) (t : Ctext) (tr : List (Editor × Event))
      (e : Editor), TextRows rows ∧ readfile (joinRows NL rows) = some t ∧
      Trace stepEditor (start t (boot (fun _ => 0) 0) fun _ => 0) tr e ∧ (∀ y ∈ tr, Arrow y.2) ∧
      rows[e.row]? = some row ∧ e.col < row.length ∧ ¬EditsAt rows row e (ascii 'd') := by
  refine ⟨[[97], [98, 99]], [98, 99], loaded (joinRows NL [[97], [98, 99]]), _, _,
    ⟨⟨by decide, by decide, by decide⟩, by decide, by decide⟩, rfl,
    .cons (a := .key 0xE3 0) .nil rfl, ?_, by decide +kernel, by decide +kernel, ?_⟩
  · intro y hy
    rw [mem_singleton.mp hy]
    exact .inr (.inl rfl)
  · intro hedits
    exact absurd (hedits.removed 0) (by decide +kernel)

end Editor

end Xv6.Vim
