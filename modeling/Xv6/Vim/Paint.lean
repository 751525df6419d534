import Xv6.Lib.Rows
import Xv6.Vim.Area

/-!
# What the text area shows

The cells that `printtext` draws for a text given by its rows.  The row that is not the
first one has its newline in front, which is drawn at the end of the row before and leaves a
blank at the first cell of its own.
-/

namespace Xv6.Vim.Editor

open Lib Console Function List Int

variable {e e' e'' : Editor} {pos : Int} {rows : List (List Byte)} {r : Nat} {row : List Byte}

/-- What `scrputc` leaves at the cell of the new cursor. -/
abbrev BLANK : BitVec 16 := SPACE ||| L_GREY

def glyph (b : Byte) : BitVec 16 := Screen.char b.toInt ||| WHITE

theorem glyph_ne (b : Byte) : glyph b ≠ Console.EMPTY_CHAR := by
  revert b
  decide +kernel

theorem glyph_toNat (b : Byte) : Screen.char b.toNat ||| WHITE = glyph b := by
  revert b
  decide +kernel

theorem crt_setcursor (h : e.screen.crt pos ≠ Console.EMPTY_CHAR) :
    (e.setcursor pos).screen.crt = e.screen.crt := by
  rw [setcursor, Screen.setcursor_snd]
  simp only [if_neg h, update_eq_self]

theorem crt_scrputc {c : Int} (hnl : c ≠ NEWLINE) (hbs : c ≠ BACKSPACE) (h0 : 0 ≤ pos)
    (h : pos + 1 < MAX_CHAR) (i : Int) :
    (e.scrputc pos c).screen.crt i =
      if i = pos + 1 then BLANK else if i = pos then Screen.char c ||| WHITE
      else e.screen.crt i := by
  simp only [MAX_CHAR, MAX_ROW, MAX_COL] at h
  have hwrap : wrap (pos + 1) = pos + 1 := wrap_of_small (by omega) (by omega)
  have harea : ¬pos ≥ 24 * 80 := by omega
  have hnext : ¬pos + 1 ≥ 24 * 80 := by omega
  simp only [scrputc, Screen.scrputc, if_neg hnl, if_neg hbs, hwrap, Screen.scrAdvance,
    Screen.place,
    Screen.write, Screen.setcursor_snd, CMD_LINE, MAX_ROW, MAX_COL, if_neg harea, if_neg hnext,
    update_apply]
  split_ifs <;> rfl

theorem crt_scrputc_newline (hlit : e.screen.crt pos ≠ Console.EMPTY_CHAR)
    (hpos : pos = 80 * r + 79) (hr : r < 23) (i : Int) :
    (e.scrputc pos NEWLINE).screen.crt i = if i = pos + 1 then BLANK else e.screen.crt i := by
  have hmod : pos.tmod 80 = 79 := by
    rw [tmod_eq_emod_of_nonneg (by omega)]
    omega
  have hwrap : wrap (pos + (80 - pos.tmod 80)) = pos + 1 := by
    rw [hmod, wrap_of_small (by omega) (by omega)]
    omega
  simp only [scrputc, Screen.scrputc, if_true, hwrap, Screen.scrAdvance, Screen.place,
    Screen.write, Screen.setcursor_snd, if_neg hlit, update_eq_self, CMD_LINE, MAX_ROW,
    MAX_COL]
  rw [if_neg (by omega), update_apply]

def Lit (e : Editor) : Prop := ∀ i, InArea i → e.screen.crt i ≠ Console.EMPTY_CHAR

def SameArea (e e' : Editor) : Prop := ∀ i, InArea i → e'.screen.crt i = e.screen.crt i

namespace SameArea

theorem trans (h : SameArea e e') (h' : SameArea e' e'') : SameArea e e'' :=
  fun i hi => (h' i hi).trans (h i hi)

theorem lit (h : SameArea e e') (hlit : e.Lit) : e'.Lit := by
  intro i hi
  rw [h i hi]
  exact hlit i hi

theorem setcursor (hlit : e.Lit) (pos : Int) : SameArea e (e.setcursor pos) := by
  intro i hi
  by_cases hpos : InArea pos
  · rw [crt_setcursor (hlit pos hpos)]
  · have hne : i ≠ pos := by
      rintro rfl
      exact hpos hi
    rw [Editor.setcursor, Screen.setcursor_snd]
    exact update_of_ne hne _ _

theorem scrputc (hpos : MAX_CHAR ≤ pos) (hlt : pos < 3000) {c : Int} (hbs : c ≠ BACKSPACE) :
    SameArea e (e.scrputc pos c) := by
  intro i hi
  have hi' := hi.2
  simp only [MAX_CHAR, MAX_ROW, MAX_COL] at hpos hi'
  have hmod := tmod_lt_of_pos pos (show (0 : Int) < 80 by omega)
  have hmod' := tmod_nonneg 80 (show 0 ≤ pos by omega)
  have hnext : wrap (pos + 1) = pos + 1 := wrap_of_small (by omega) (by omega)
  have hrow : wrap (pos + (80 - pos.tmod 80)) = pos + (80 - pos.tmod 80) :=
    wrap_of_small (by omega) (by omega)
  simp only [Editor.scrputc, Screen.scrputc, if_neg hbs, hnext, hrow, Screen.scrAdvance,
    Screen.place, Screen.write, Screen.setcursor_snd]
  split
  · change update (update _ _ _) _ _ i = _
    rw [update_of_ne (by omega), update_of_ne (by omega)]
  · change update (update (update _ _ _) _ _) _ _ i = _
    rw [update_of_ne (by omega), update_of_ne (by omega), update_of_ne (by omega)]

theorem puts (cs : List Int) (hcs : ∀ c ∈ cs, c ≠ BACKSPACE) (hpos : MAX_CHAR ≤ pos)
    (hlast : pos + cs.length < 3000) : SameArea e (e.puts pos cs) := by
  induction cs generalizing e pos with
  | nil =>
    rw [Editor.puts]
    exact fun i _ => rfl
  | cons c cs ih =>
    obtain ⟨hc, hcs⟩ := forall_mem_cons.mp hcs
    rw [length_cons] at hlast
    rw [Editor.puts]
    exact (scrputc hpos (by omega) hc).trans (ih hcs (by omega) (by omega))

theorem showline (hlit : e.Lit) : SameArea e e.showline := by
  have hlabel : ∀ c ∈ replicate 60 0 ++ label e.vimline ++ replicate 13 0,
      c ≠ BACKSPACE := by
    intro c hc
    rcases mem_append.mp hc with hc | hc
    · rcases mem_append.mp hc with hc | hc
      · rw [eq_of_mem_replicate hc]
        decide
      · obtain ⟨d, -, rfl⟩ := mem_map.mp hc
        simp only [white, BACKSPACE]
        omega
    · rw [eq_of_mem_replicate hc]
      decide
  have hputs : SameArea e (e.puts MAX_CHAR
      (replicate 60 0 ++ label e.vimline ++ replicate 13 0)) :=
    puts _ hlabel (le_refl _) (by simp [label, MAX_CHAR, MAX_ROW, MAX_COL])
  exact hputs.trans (setcursor (hputs.lit hlit) _)

theorem cursormove (hlit : e.Lit) (hm : ¬e.mode.isCmd) (move : Move) (junk : Int) :
    SameArea e (e.cursormove move junk) := by
  have hset := fun pos => setcursor hlit pos
  have hsame : SameArea e e := fun i _ => rfl
  cases move with
  | left | right =>
    simp only [Editor.cursormove, if_neg hm]
    split_ifs
    · exact hset _
    · exact hsame
  | down | up =>
    simp only [Editor.cursormove]
    split_ifs
    · exact hset _
    · exact hset _
    · exact hsame

end SameArea

theorem printChars_append (e : Editor) (pos : Int) (u rest : List Byte) (hu : NL ∉ u) :
    e.printChars pos (u ++ rest) = (e.printChars pos u).printChars (pos + u.length) rest := by
  induction u generalizing e pos with
  | nil =>
    rw [nil_append, length_nil, Int.natCast_zero, Int.add_zero]
    conv_rhs => rw [printChars]
  | cons ch u ih =>
    obtain ⟨hch, hu⟩ := not_or.mp (mt mem_cons.mpr hu)
    rw [cons_append, printChars, if_neg (Ne.symm hch), printChars, if_neg (Ne.symm hch),
      ih _ _ hu, length_cons]
    congr 1
    push_cast
    omega

structure PaintsRow (pos : Int) (u : List Byte) (crt crt' : Int → BitVec 16) : Prop where
  chars : ∀ (k : Nat) (b : Byte), u[k]? = some b → crt' (pos + k) = glyph b
  next : u ≠ [] → crt' (pos + u.length) = BLANK
  rest : ∀ i, (u ≠ [] → i < pos ∨ pos + u.length < i) → crt' i = crt i

theorem paintsRow (u : List Byte) (hu : NL ∉ u) (h0 : 0 ≤ pos) (h : pos + u.length < MAX_CHAR) :
    PaintsRow pos u e.screen.crt (e.printChars pos u).screen.crt := by
  induction u generalizing e pos with
  | nil =>
    rw [printChars]
    exact ⟨by simp, fun hne => absurd rfl hne, fun i _ => rfl⟩
  | cons ch u ih =>
    obtain ⟨hch, hu⟩ := not_or.mp (mt mem_cons.mpr hu)
    have hch' : ch ≠ NL := Ne.symm hch
    rw [length_cons, natCast_succ] at h
    obtain ⟨e1, he1⟩ : ∃ e1, e1 = (e.scrputc pos ch.toInt).mark pos := ⟨_, rfl⟩
    have hcell1 : ∀ i, e1.screen.crt i = if i = pos + 1 then BLANK else if i = pos then glyph ch
        else e.screen.crt i := by
      rw [he1]
      exact crt_scrputc (toInt_ne_newline hch') (toInt_ne_backspace ch) h0 (by omega)
    have hpaint : PaintsRow (pos + 1) u e1.screen.crt (e1.printChars (pos + 1) u).screen.crt :=
      ih hu (by omega) (by omega)
    rw [printChars, if_neg hch', ← he1]
    refine ⟨?_, fun _ => ?_, ?_⟩
    · intro k b hb
      cases k with
      | zero =>
        rw [getElem?_cons_zero, Option.some.injEq] at hb
        rw [Int.natCast_zero, Int.add_zero, hpaint.rest pos (fun _ => .inl (by omega)), hcell1,
          if_neg (by omega), if_pos rfl, hb]
      | succ k =>
        rw [getElem?_cons_succ] at hb
        rw [← hpaint.chars k b hb, natCast_succ]
        congr 1
        omega
    · rw [length_cons, natCast_succ]
      by_cases hempty : u = []
      · rw [hpaint.rest _ (fun hne => absurd hempty hne), hcell1, hempty, length_nil,
          if_pos (by omega)]
      · rw [← hpaint.next hempty]
        congr 1
        omega
    · intro i hi
      have hi' := hi (cons_ne_nil _ _)
      rw [length_cons, natCast_succ] at hi'
      rw [hpaint.rest i (fun _ => by omega), hcell1, if_neg (by omega), if_neg (by omega)]

/-- The text area shows the rows, from row `r` of the screen on. -/
structure Shows (r : Nat) (rows : List (List Byte)) (crt : Int → BitVec 16) : Prop where
  chars : ∀ (j : Nat) (row : List Byte) (k : Nat) (b : Byte), rows[j]? = some row →
    row[k]? = some b → crt (80 * (r + j) + k) = glyph b
  next : ∀ (j : Nat) (row : List Byte), rows[j]? = some row → (j ≠ 0 ∨ row ≠ []) →
    crt (80 * (r + j) + row.length) = BLANK

def Misses (r : Nat) (rows : List (List Byte)) (i : Int) : Prop :=
  ∀ (j : Nat) (row : List Byte), rows[j]? = some row → (j ≠ 0 ∨ row ≠ []) →
    i < 80 * (r + j) ∨ 80 * (r + j) + row.length < i

structure Paints (r : Nat) (rows : List (List Byte)) (crt crt' : Int → BitVec 16) : Prop where
  shows : Shows r rows crt'
  rest : ∀ i, Misses r rows i → crt' i = crt i

structure FitRows (rows : List (List Byte)) : Prop where
  ne : rows ≠ []
  short : ∀ row ∈ rows, row.length < 79
  newline : ∀ row ∈ rows, NL ∉ row

theorem PaintsRow.lit (hlit : e.Lit)
    (h : PaintsRow (80 * r) row e.screen.crt e'.screen.crt) : e'.Lit := by
  intro i hi
  by_cases hcells : row ≠ [] → i < 80 * r ∨ 80 * r + row.length < i
  · rw [h.rest i hcells]
    exact hlit i hi
  · obtain ⟨hne, hrange⟩ := Classical.not_imp.mp hcells
    obtain ⟨k, rfl⟩ : ∃ k : Nat, i = 80 * r + k := ⟨(i - 80 * r).toNat, by omega⟩
    by_cases hk : k < row.length
    · rw [h.chars k _ (getElem?_eq_getElem hk)]
      exact glyph_ne _
    · obtain rfl : k = row.length := by omega
      rw [h.next hne]
      decide

theorem printChars_newline (hlit : e.Lit) {r k : Nat} (hr : r < 23) (hk : k < 79)
    (hpos : pos = 80 * r + k) (rest : List Byte) :
    ∃ e1 : Editor, e.printChars pos (NL :: rest) = e1.printChars (80 * (r + 1)) rest ∧
      ∀ i, e1.screen.crt i = if i = 80 * (r + 1) then BLANK else e.screen.crt i := by
  have hmod : (pos + 1).tmod 80 = k + 1 := by
    rw [tmod_eq_emod_of_nonneg (by omega)]
    omega
  have hend : pos + 80 - (pos + 1).tmod 80 = 80 * r + 79 := by omega
  have harea : InArea (80 * r + 79) :=
    ⟨by omega, by simp only [MAX_CHAR, MAX_ROW, MAX_COL]; omega⟩
  obtain ⟨e1, he1⟩ : ∃ e1, e1 = (e.scrputc (80 * r + 79) NEWLINE).mark (80 * r + 79) := ⟨_, rfl⟩
  have hcell : ∀ i, e1.screen.crt i = if i = 80 * r + 79 + 1 then BLANK else e.screen.crt i := by
    rw [he1]
    exact crt_scrputc_newline (hlit _ harea) rfl hr
  have hlit1 : e1.screen.crt (80 * r + 79) ≠ Console.EMPTY_CHAR := by
    rw [hcell, if_neg (by omega)]
    exact hlit _ harea
  refine ⟨(e1.scrputc (80 * r + 79) NEWLINE).mark (80 * r + 79), ?_, fun i => ?_⟩
  · rw [printChars, if_pos rfl]
    simp only [hend]
    rw [← he1]
    congr 1
  · have hcell2 := crt_scrputc_newline hlit1 rfl hr i
    change (e1.scrputc (80 * r + 79) NEWLINE).screen.crt i = _
    rw [hcell2, hcell]
    split_ifs <;> first | rfl | omega

theorem PaintsRow.single {crt crt' : Int → BitVec 16}
    (h : PaintsRow (80 * r) row crt crt') : Paints r [row] crt crt' := by
  refine ⟨⟨?_, ?_⟩, ?_⟩
  · intro j u k b hu hb
    cases j with
    | zero =>
      rw [getElem?_cons_zero, Option.some.injEq] at hu
      rw [← hu] at hb
      rw [← h.chars k b hb, Int.natCast_zero, Int.add_zero]
    | succ j => simp at hu
  · intro j u hu hne
    cases j with
    | zero =>
      rw [getElem?_cons_zero, Option.some.injEq] at hu
      rw [← hu] at hne ⊢
      rw [← h.next (hne.resolve_left fun h => h rfl), Int.natCast_zero, Int.add_zero]
    | succ j => simp at hu
  · intro i hi
    refine h.rest i fun hne => ?_
    have := hi 0 row rfl (.inr hne)
    omega

theorem PaintsRow.cons {row row' : List Byte}
    {crt crt1 crt2 crt' : Int → BitVec 16} (h : PaintsRow (80 * r) row crt crt1)
    (hrow : row.length < 80)
    (hcell : ∀ i, crt2 i = if i = 80 * ((r : Int) + 1) then BLANK else crt1 i)
    (hrows : Paints (r + 1) (row' :: rows) crt2 crt') :
    Paints r (row :: row' :: rows) crt crt' := by
  -- the rows behind leave row `r` alone
  have hfirst : ∀ k : Nat, k ≤ row.length → crt' (80 * r + k) = crt1 (80 * r + k) := by
    intro k hk
    rw [hrows.rest _ fun j _ _ _ => .inl (by push_cast; omega), hcell, if_neg (by omega)]
  refine ⟨⟨?_, ?_⟩, ?_⟩
  · intro j u k b hu hb
    cases j with
    | zero =>
      rw [getElem?_cons_zero, Option.some.injEq] at hu
      rw [← hu] at hb
      have hk : k < row.length := (List.getElem?_eq_some_iff.mp hb).1
      rw [Int.natCast_zero, Int.add_zero, hfirst k (by omega), h.chars k b hb]
    | succ j =>
      rw [getElem?_cons_succ] at hu
      rw [← hrows.shows.chars j u k b hu hb]
      congr 1
      push_cast
      omega
  · intro j u hu hne
    cases j with
    | zero =>
      rw [getElem?_cons_zero, Option.some.injEq] at hu
      rw [← hu] at hne ⊢
      rw [Int.natCast_zero, Int.add_zero, hfirst _ (Nat.le_refl _),
        h.next (hne.resolve_left fun h => h rfl)]
    | succ j =>
      rw [getElem?_cons_succ] at hu
      by_cases hend : j ≠ 0 ∨ u ≠ []
      · rw [← hrows.shows.next j u hu hend]
        congr 1
        push_cast
        omega
      · -- an empty row: the blank of the newline stays
        obtain ⟨hj, hu0⟩ := not_or.mp hend
        obtain rfl := not_not.mp hj
        obtain rfl := not_not.mp hu0
        have hpos : 80 * ((r : Int) + (0 + 1 : Nat)) + ([] : List Byte).length = 80 * (r + 1) := by
          rw [length_nil]
          push_cast
          omega
        rw [hpos, hrows.rest, hcell, if_pos rfl]
        intro j v hv hnv
        cases j with
        | zero =>
          rw [hu, Option.some.injEq] at hv
          exact absurd hv.symm (hnv.resolve_left fun h => h rfl)
        | succ j => exact .inl (by push_cast; omega)
  · intro i hi
    have hnext := hi 1 row' rfl (.inl (by omega))
    push_cast at hnext
    rw [hrows.rest i ?_, hcell, if_neg (by omega), h.rest i ?_]
    · intro hne
      have := hi 0 row rfl (.inr hne)
      omega
    · intro j v hv hnv
      have := hi (j + 1) v (by rwa [getElem?_cons_succ]) (.inl (by omega))
      push_cast at this ⊢
      omega

theorem paints (hrows : FitRows rows) (hr : r + rows.length ≤ 24) (hlit : e.Lit) :
    Paints r rows e.screen.crt (e.printChars (80 * r) (joinRows NL rows)).screen.crt ∧
      (e.printChars (80 * r) (joinRows NL rows)).Lit := by
  induction rows generalizing e r with
  | nil => exact absurd rfl hrows.ne
  | cons row rest ih =>
    obtain ⟨hshort, hshorts⟩ := forall_mem_cons.mp hrows.short
    obtain ⟨hnl, hnls⟩ := forall_mem_cons.mp hrows.newline
    rw [length_cons] at hr
    obtain ⟨e1, he1⟩ : ∃ e1, e1 = e.printChars (80 * r) row := ⟨_, rfl⟩
    have hpaint : PaintsRow (80 * r) row e.screen.crt e1.screen.crt := by
      rw [he1]
      exact paintsRow row hnl (by omega) (by simp only [MAX_CHAR, MAX_ROW, MAX_COL]; omega)
    have hlit1 := hpaint.lit hlit
    cases rest with
    | nil =>
      have hrow : joinRows NL [row] = row := by simp [joinRows, opened]
      rw [hrow, ← he1]
      exact ⟨hpaint.single, hlit1⟩
    | cons row' rest =>
      rw [length_cons] at hr
      obtain ⟨e2, hprint, hcell⟩ := printChars_newline (r := r) (k := row.length) hlit1 (by omega)
        hshort rfl (joinRows NL (row' :: rest))
      have hlit2 : e2.Lit := by
        intro i hi
        rw [hcell]
        split
        · decide
        · exact hlit1 i hi
      have hfit : FitRows (row' :: rest) := ⟨cons_ne_nil _ _, hshorts, hnls⟩
      obtain ⟨hrest, hlit'⟩ := ih (e := e2) (r := r + 1) hfit (by rw [length_cons]; omega) hlit2
      rw [joinRows_cons_cons, printChars_append e _ row _ hnl, ← he1, hprint]
      exact ⟨hpaint.cons (by omega) hcell hrest, hlit'⟩

/-- Drawing the rows again after one character has changed: only its cell differs, whatever
stood there and at the cell behind. -/
theorem Paints.redraw {r c : Nat} {x : Byte} {crt crt1 crt2 : Int → BitVec 16}
    (hshows : Shows 0 rows crt) (hrow : rows[r]? = some row) (hc : c < row.length)
    (hsame : ∀ i, InArea i → i ≠ 80 * r + c → i ≠ 80 * r + c + 1 → crt1 i = crt i)
    (h : Paints 0 (rows.set r (row.set c x)) crt1 crt2) :
    crt2 (80 * r + c) = glyph x ∧ ∀ i, InArea i → i ≠ 80 * r + c → crt2 i = crt i := by
  have hr : r < rows.length := (List.getElem?_eq_some_iff.mp hrow).1
  have hset : (rows.set r (row.set c x))[r]? = some (row.set c x) := List.getElem?_set_self hr
  constructor
  · have hchar := h.shows.chars r _ c x hset (getElem?_set_self hc)
    rwa [Int.natCast_zero, Int.zero_add] at hchar
  intro i hi hne
  by_cases hmiss : Misses 0 (rows.set r (row.set c x)) i
  · have hrange := hmiss r _ hset (.inr (by simpa using ne_nil_of_length_pos (by omega)))
    rw [length_set, Int.natCast_zero] at hrange
    rw [h.rest i hmiss]
    exact hsame i hi hne (by omega)
  · simp only [Misses, not_forall, not_or, Int.not_lt, Int.natCast_zero, Int.zero_add] at hmiss
    obtain ⟨j, u, hu, hcell, hlow, hhigh⟩ := hmiss
    -- the same row before the change
    obtain ⟨v, hv, hlen, hkept⟩ : ∃ v, rows[j]? = some v ∧ v.length = u.length ∧
        ∀ k : Nat, i = 80 * j + k → v[k]? = u[k]? := by
      by_cases hj : j = r
      · subst hj
        obtain rfl := Option.some.inj (hset.symm.trans hu)
        refine ⟨row, hrow, by rw [length_set], fun k hk => ?_⟩
        rw [getElem?_set_ne (by omega)]
      · rw [getElem?_set_ne (Ne.symm hj)] at hu
        exact ⟨u, hu, rfl, fun _ _ => rfl⟩
    obtain ⟨k, rfl⟩ : ∃ k : Nat, i = 80 * j + k := ⟨(i - 80 * j).toNat, by omega⟩
    by_cases hk : k < u.length
    · have hget : u[k]? = some u[k] := getElem?_eq_getElem hk
      have hafter := h.shows.chars j u k _ hu hget
      have hbefore := hshows.chars j v k _ hv ((hkept k rfl).trans hget)
      rw [Int.natCast_zero, Int.zero_add] at hafter hbefore
      rw [hafter, hbefore]
    · have hnext : j ≠ 0 ∨ v ≠ [] := by
        refine hcell.imp_right fun hne hv0 => hne ?_
        rw [hv0, length_nil] at hlen
        exact eq_nil_of_length_eq_zero hlen.symm
      have hafter := h.shows.next j u hu hcell
      have hbefore := hshows.next j v hv hnext
      rw [Int.natCast_zero, Int.zero_add] at hafter hbefore
      rw [hlen] at hbefore
      rw [show k = u.length by omega, hafter, hbefore]

end Xv6.Vim.Editor
