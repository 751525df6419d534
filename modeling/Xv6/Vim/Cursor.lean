import Xv6.Vim.Lines

/-!
# The cursor and the current line

`vimline` and the row of the cursor are kept in two places and changed separately.  They
agree in a run as long as the keys avoid the places where the source moves only one.
-/

namespace Xv6.Vim.Editor

open Lib Console List

variable {e e' : Editor} {c : Byte} {junk : Int}

structure AtLine (vimline pos : Int) (lines : Nat) : Prop where
  first : 1 ≤ vimline
  le : vimline ≤ lines
  row : vimline = pos / 80 + 1

/-- The cursor is on the current line, which exists, unless the mode is `V_CMD`. -/
def InStep (e : Editor) : Prop :=
  e.status = .running → ¬e.mode.isCmd → AtLine e.vimline e.getcursor e.text.lines

abbrev LAST_ROW : Int := 818 * 80

/-- The invariant of a run.  While `readcmd` reads, the position it returns to counts. -/
def Synced (e : Editor) : Prop :=
  e.status = .running →
    match e.mode with
    | .cmd none => True
    | .cmd (some p) => AtLine e.vimline p.precur e.text.lines ∧ 0 ≤ p.precur ∧
        p.precur < LAST_ROW + 80
    | _ => AtLine e.vimline e.getcursor e.text.lines ∧ e.getcursor < LAST_ROW + 80

/-- The keys that keep the cursor on the current line, read in `V_READONLY` or `V_INSERT`. -/
structure Aims (e : Editor) (c : Byte) (junk : Int) : Prop where
  up : motion e.mode c = some .up →
    80 ≤ e.getcursor ∨ e.getchar (e.getcursor - 80) junk = EMPTY_CHAR
  down : motion e.mode c = some .down →
    e.getcursor < 1840 ∨ e.text.lines ≤ 24 ∨ e.getchar (e.getcursor + 80) junk = EMPTY_CHAR
  left : motion e.mode c = some .left ∨ (e.mode = .insert ∧ c = KEY_ESC) →
    e.col ≠ 0 ∨ e.getcursor = 0 ∨ e.getchar (e.getcursor - 1) junk = EMPTY_CHAR
  right : motion e.mode c = some .right →
    e.col ≠ 79 ∨ MAX_CHAR ≤ e.getcursor ∨ e.getchar (e.getcursor + 1) junk = EMPTY_CHAR
  /-- nothing typed in the last column or where it opens a line -/
  typed : e.mode = .insert → inputfilter c → c ≠ NL → e.col ≠ 79 ∧ ¬e.opensLine
  enter : c = NL → e.getcursor < LAST_ROW
  bottom : e.mode = .readonly → c ≠ ascii 'G'
  top : e.mode = .readonly → c = ascii 'g' → e.getcursor < 80

def Steady (e : Editor) (ev : Event) : Prop :=
  match ev, e.mode with
  | .key _ _, .cmd (some _) => True
  | .key c _, .cmd none => c ≠ KEY_ESC
  | .key c junk, _ => e.Aims c junk
  | .backspace, .cmd _ => True
  | .backspace, _ => e.col ≠ 0 ∨ e.getcursor ≤ MAX_CHAR
  | .eof _, _ => True

def OnLine (e : Editor) : Prop :=
  AtLine e.vimline e.getcursor e.text.lines ∧ e.getcursor < LAST_ROW + 80

theorem Draws.getchar (h : Draws e e') (pos junk : Int) :
    e'.getchar pos junk = e.getchar pos junk := by
  rw [Editor.getchar, Editor.getchar, h.line]

theorem Draws.onLine (h : Draws e e') (hc : e'.getcursor = e.getcursor) : e'.OnLine ↔ e.OnLine := by
  rw [OnLine, OnLine, hc, h.vimline, h.text]

theorem col_eq (e : Editor) : (e.col : Int) = e.getcursor % 80 := by
  have := e.getcursor_nonneg
  rw [col]
  omega

theorem onLine_move {pos v : Int} (h0 : 0 ≤ pos) (hlast : pos < LAST_ROW + 80)
    (h : AtLine v pos e.text.lines) : OnLine { e.setcursor pos with vimline := v } := by
  have hcursor : ({ e.setcursor pos with vimline := v } : Editor).getcursor = pos :=
    getcursor_setcursor e h0 (by simp only [LAST_ROW] at hlast; omega)
  rw [OnLine, hcursor]
  exact ⟨h, hlast⟩

theorem onLine_setcursor {pos : Int} (h0 : 0 ≤ pos) (hlast : pos < LAST_ROW + 80)
    (h : AtLine e.vimline pos e.text.lines) : OnLine (e.setcursor pos) :=
  onLine_move (v := e.vimline) h0 hlast h

theorem OnLine.up (h : e.OnLine)
    (haim : 80 ≤ e.getcursor ∨ e.getchar (e.getcursor - 80) junk = EMPTY_CHAR) :
    (e.cursormove .up junk).OnLine := by
  obtain ⟨h0, h2, h1⟩ := h.1
  have h3 := h.2
  simp only [cursormove]
  split_ifs with hmove hneg
  · simp only [MAX_COL] at hmove hneg
    exact absurd (haim.resolve_left (by omega)) hmove.2.2
  · simp only [MAX_COL] at hneg ⊢
    exact onLine_move (by omega) (by omega) ⟨by omega, by omega, by omega⟩
  · exact h

theorem OnLine.down (h : e.OnLine) (haim : e.getcursor < 1840 ∨ e.text.lines ≤ 24 ∨
      e.getchar (e.getcursor + 80) junk = EMPTY_CHAR) :
    (e.cursormove .down junk).OnLine := by
  obtain ⟨h0, h2, h1⟩ := h.1
  have hcur := e.getcursor_nonneg
  simp only [cursormove]
  split_ifs with hmove hneg
  · simp only [MAX_COL, MAX_CHAR, MAX_ROW] at hmove hneg
    rcases haim with haim | haim | haim
    · omega
    · omega
    · exact absurd haim hmove.2.2.2
  · simp only [MAX_COL, MAX_CHAR, MAX_ROW] at hmove hneg ⊢
    exact onLine_move (by omega) (by simp only [LAST_ROW]; omega) ⟨by omega, by omega, by omega⟩
  · exact h

theorem OnLine.left (h : e.OnLine) (hm : ¬e.mode.isCmd)
    (haim : e.col ≠ 0 ∨ e.getcursor = 0 ∨ e.getchar (e.getcursor - 1) junk = EMPTY_CHAR) :
    (e.cursormove .left junk).OnLine := by
  obtain ⟨h0, h2, h1⟩ := h.1
  have h3 := h.2
  have hcol := e.col_eq
  simp only [cursormove, if_neg hm]
  split_ifs with hmove
  · rcases haim with haim | haim | haim
    · exact onLine_setcursor (by omega) (by omega) ⟨by omega, by omega, by omega⟩
    · omega
    · exact absurd haim hmove.2
  · exact h

theorem OnLine.right (h : e.OnLine) (hm : ¬e.mode.isCmd)
    (haim : e.col ≠ 79 ∨ MAX_CHAR ≤ e.getcursor ∨ e.getchar (e.getcursor + 1) junk = EMPTY_CHAR) :
    (e.cursormove .right junk).OnLine := by
  obtain ⟨h0, h2, h1⟩ := h.1
  have hcol := e.col_eq
  have hcur := e.getcursor_nonneg
  simp only [cursormove, if_neg hm]
  split_ifs with hmove
  · rcases haim with haim | haim | haim
    · simp only [MAX_CHAR, MAX_ROW, MAX_COL] at hmove
      exact onLine_setcursor (by omega) (by simp only [LAST_ROW]; omega)
        ⟨by omega, by omega, by omega⟩
    · omega
    · exact absurd haim hmove.2
  · exact h

theorem wrap_of_small {x : Int} (h0 : 0 ≤ x) (h : x < 2 ^ 31) : wrap x = x :=
  Int.bmod_eq_of_le (by omega) (by omega)

theorem OnLine.type (h : e.OnLine) (hm : e.mode = .insert) (hc : inputfilter c) (hnl : c ≠ NL)
    (hcol : e.col ≠ 79) (hopen : ¬e.opensLine) : (e.default c).OnLine := by
  obtain ⟨h0, h2, h1⟩ := h.1
  have h3 := h.2
  have hcol' := e.col_eq
  have hcur := e.getcursor_nonneg
  have hlt := e.col_lt
  have hcursor := getcursor_default hm hc hnl
  have hvim : (e.default c).vimline = e.vimline := by
    rw [default, if_pos ⟨hm, hc⟩]
    exact if_neg hopen
  have hlines : (e.default c).text.lines = e.text.lines := by
    rw [text_default hm hc, typed, if_neg hopen, Ctext.lines_modify]
  rw [OnLine, hvim, hlines, hcursor]
  simp only [LAST_ROW] at h3 ⊢
  exact ⟨⟨by omega, by omega, by omega⟩, by omega⟩

theorem getcursor_enter (e : Editor) (hlast : e.getcursor < LAST_ROW) :
    e.enter.getcursor = (e.getcursor / 80 + 1) * 80 := by
  have hcur := e.getcursor_nonneg
  have hcursor : e.enter.screen.cursor =
      BitVec.ofInt 16 (wrap (e.getcursor + (80 - e.getcursor.tmod 80))) :=
    cursor_scrputc_newline _ e.getcursor
  have hmod : e.getcursor.tmod 80 = e.getcursor % 80 := Int.tmod_eq_emod_of_nonneg hcur
  simp only [LAST_ROW] at hlast
  rw [getcursor, Screen.getcursor, hcursor, hmod, wrap_of_small (by omega) (by omega),
    toNat_ofInt (by omega) (by omega)]
  omega

theorem OnLine.enter (h : e.OnLine) (hlast : e.getcursor < LAST_ROW) : e.enter.OnLine := by
  obtain ⟨h0, h2, h1⟩ := h.1
  have hvim : e.enter.vimline = e.vimline + 1 := rfl
  have hlines : e.enter.text.lines = e.text.lines + 1 := rfl
  rw [OnLine, hvim, hlines, getcursor_enter e hlast]
  simp only [LAST_ROW] at hlast ⊢
  exact ⟨⟨by omega, by push_cast; omega, by omega⟩, by omega⟩

theorem getcursor_rmch (e : Editor) : e.rmch.getcursor = e.getcursor :=
  getcursor_setcursor _ e.getcursor_nonneg e.getcursor_lt

theorem OnLine.rmch (h : e.OnLine) : e.rmch.OnLine := by
  have hdraw := Draws.rmch e
  have hlines : e.rmch.text.lines = e.text.lines := by
    rw [hdraw.text]
    change e.removed.lines = e.text.lines
    rw [removed]
    split
    · exact Ctext.lines_modify
    · rfl
  rw [OnLine, getcursor_rmch, hlines, hdraw.vimline]
  exact h

theorem synced_iff (hm : ¬e.mode.isCmd) : e.Synced ↔ (e.status = .running → e.OnLine) := by
  rw [Synced]
  cases hmode : e.mode with
  | readonly => rfl
  | insert => rfl
  | cmd p =>
    rw [hmode] at hm
    exact absurd rfl hm

theorem onLine_of_synced (h : e.Synced) (hrun : e.status = .running) (hm : ¬e.mode.isCmd) :
    e.OnLine :=
  (synced_iff hm).mp h hrun

theorem OnLine.synced (h : e.OnLine) (hm : ¬e.mode.isCmd) : e.Synced :=
  (synced_iff hm).mpr fun _ => h

theorem Synced.inStep (h : e.Synced) : e.InStep :=
  fun hrun hcmd => (onLine_of_synced h hrun hcmd).1

theorem synced_cmd (hm : e.mode = .cmd none) : e.Synced := by
  intro _
  rw [hm]
  trivial

theorem synced_prompt {p : Prompt} (hm : e.mode = .cmd (some p))
    (h : AtLine e.vimline p.precur e.text.lines) (h0 : 0 ≤ p.precur)
    (hlast : p.precur < LAST_ROW + 80) : e.Synced := by
  intro _
  rw [hm]
  exact ⟨h, h0, hlast⟩

theorem Synced.mainKey (h : e.OnLine) (hm : ¬e.mode.isCmd) (haim : e.Aims c junk) :
    (e.mainKey c junk).Synced := by
  have hshow := Draws.showline e
  have hcursor := getcursor_showline e
  have hon : e.showline.OnLine := (hshow.onLine hcursor).mpr h
  have hm' : ¬e.showline.mode.isCmd := by rwa [hshow.mode]
  have hmoves : ∀ m, (e.showline.cursormove m junk).OnLine →
      (e.showline.cursormove m junk).Synced := fun m hon =>
    hon.synced (by rwa [(Moves.cursormove _ _ _).mode])
  have hacts := mainKey_acts e c junk
  generalize e.mainKey c junk = e' at hacts ⊢
  cases hacts with
  | move m hmotion =>
    cases m with
    | up =>
      refine hmoves .up (hon.up ?_)
      rw [hcursor, hshow.getchar]
      exact haim.up hmotion
    | down =>
      refine hmoves .down (hon.down ?_)
      rw [hcursor, hshow.getchar, hshow.text]
      exact haim.down hmotion
    | left =>
      refine hmoves .left (hon.left hm' ?_)
      rw [hcursor, hshow.getchar, col_congr hcursor]
      exact haim.left (.inl hmotion)
    | right =>
      refine hmoves .right (hon.right hm' ?_)
      rw [hcursor, hshow.getchar, col_congr hcursor]
      exact haim.right hmotion
  | type hins hc hnl =>
    obtain ⟨hcol, hopen⟩ := haim.typed hins hc hnl
    have hon' := hon.type (hshow.mode.trans hins) hc hnl (by rwa [col_congr hcursor])
      (by rwa [hshow.opensLine hcursor])
    refine hon'.synced ?_
    rw [default, if_pos ⟨hshow.mode.trans hins, hc⟩]
    exact hm'
  | bottom hro hc => exact absurd hc (haim.bottom hro)
  | top hro hc =>
    have hrow := haim.top hro hc
    obtain ⟨h0, h2, h1⟩ := h.1
    have hcur := e.getcursor_nonneg
    refine OnLine.synced (onLine_setcursor (by omega) (by simp only [LAST_ROW]; omega) ?_) ?_
    · rw [hshow.vimline, hshow.text]
      exact ⟨h0, h2, by omega⟩
    · rwa [(Draws.setcursor _ _).mode]
  | stop hins hc =>
    have hleft : ({ e.showline with mode := .readonly } : Editor).OnLine := hon
    have hon' : (({ e.showline with mode := .readonly } : Editor).cursormove .left junk).OnLine :=
      hleft.left (by simp [Mode.isCmd]) (by
      change e.showline.col ≠ 0 ∨ e.showline.getcursor = 0 ∨
        e.showline.getchar (e.showline.getcursor - 1) junk = EMPTY_CHAR
      rw [hcursor, hshow.getchar, col_congr hcursor]
      exact haim.left (.inr ⟨hins, hc⟩))
    exact hon'.synced (by rw [(Moves.cursormove _ _ _).mode]; simp [Mode.isCmd])
  | release p hcmd =>
    rw [hcmd] at hm
    exact absurd rfl hm
  | colon =>
    have hdraw : Draws e.showline (e.showline.clearcli.scrputc CMD_LINE 58) :=
      (Draws.clearcli _).trans (Draws.scrputc _ CMD_LINE 58)
    refine synced_prompt rfl ?_ e.showline.getcursor_nonneg hon.2
    change AtLine (e.showline.clearcli.scrputc CMD_LINE 58).vimline e.showline.getcursor
      (e.showline.clearcli.scrputc CMD_LINE 58).text.lines
    rw [hdraw.vimline, hdraw.text]
    exact hon.1
  | insert =>
    exact OnLine.synced (e := { e.showline with mode := .insert }) hon (by simp [Mode.isCmd])
  | remove hro =>
    refine hon.rmch.synced ?_
    rwa [(Draws.rmch _).mode]
  | enter hc =>
    have hlast := haim.enter hc
    rw [← hcursor] at hlast
    exact (hon.enter hlast).synced hm'
  | ignored => exact hon.synced hm'

theorem Synced.mainKey_cmd (hm : e.mode = .cmd none) (hc : c ≠ KEY_ESC) :
    (e.mainKey c junk).Synced := by
  have hmode : e.showline.mode = .cmd none := (Draws.showline e).mode.trans hm
  have hacts := mainKey_acts e c junk
  generalize e.mainKey c junk = e' at hacts ⊢
  cases hacts with
  | move => exact synced_cmd ((Moves.cursormove _ _ _).mode.trans hmode)
  | release p _ hesc => exact absurd hesc hc
  | enter | ignored => exact synced_cmd hmode
  | type hm' | bottom hm' | top hm' | stop hm' | colon hm' | insert hm' | remove hm' =>
    simp [hm] at hm'

theorem steady_iff (hm : ¬e.mode.isCmd) : (∀ c junk, e.Steady (.key c junk) ↔ e.Aims c junk) ∧
      (e.Steady .backspace ↔ e.col ≠ 0 ∨ e.getcursor ≤ MAX_CHAR) := by
  unfold Steady
  cases hmode : e.mode with
  | readonly | insert => exact ⟨fun _ _ => Iff.rfl, Iff.rfl⟩
  | cmd p =>
    rw [hmode] at hm
    exact absurd rfl hm

theorem getcursor_backspace (e : Editor) :
    ({ e with screen := backspace e.screen } : Editor).getcursor =
      if e.getcursor > CMD_LINE then e.getcursor - 1 else e.getcursor := by
  have h0 := e.getcursor_nonneg
  have h1 := e.getcursor_lt
  have hset : ∀ (s : Screen) (pos : Int), 0 ≤ pos → pos < 65536 →
      (s.setcursor pos).2.getcursor = pos := by
    intro s pos h0 h1
    rw [Screen.setcursor_snd, Screen.getcursor, toNat_ofInt h0 h1]
  have hscreen : e.screen.getcursor = e.getcursor := rfl
  change (backspace e.screen).getcursor = _
  rw [backspace]
  change (if e.getcursor > CMD_LINE then _ else _ : Screen).getcursor = _
  split
  case isTrue h =>
    simp only [CMD_LINE, MAX_ROW, MAX_COL] at h
    exact hset _ _ (by omega) (by omega)
  case isFalse =>
    split
    case isTrue h =>
      rw [hset _ _ (by decide) (by decide)]
      exact h.symm
    case isFalse => rfl

theorem OnLine.backspace (h : e.OnLine) (haim : e.col ≠ 0 ∨ e.getcursor ≤ MAX_CHAR) :
    ({ e with screen := Editor.backspace e.screen } : Editor).OnLine := by
  obtain ⟨h0, h2, h1⟩ := h.1
  have h3 := h.2
  have hcol := e.col_eq
  have hcur := e.getcursor_nonneg
  rw [OnLine, getcursor_backspace]
  simp only [CMD_LINE, MAX_CHAR, MAX_ROW, MAX_COL] at haim ⊢
  split
  · exact ⟨⟨by omega, by omega, by omega⟩, by omega⟩
  · exact h

theorem synced_leave (e : Editor) {s : Status} (hs : s ≠ .running) : (e.leave s).Synced :=
  fun h => absurd h hs

theorem synced_obey (hm : e.mode = .cmd none) : e.obey.Synced := by
  rw [obey]
  split_ifs
  · exact synced_leave e (by decide)
  · exact synced_leave e (by decide)
  · exact synced_cmd ((Draws.setcursor e CMD_LINE).mode.trans hm)

theorem Synced.promptKey (h : e.Synced) (hrun : e.status = .running) {p : Prompt}
    (hm : e.mode = .cmd (some p)) (c : Byte) (junk : Int) : (e.promptKey p c junk).Synced := by
  have hs := h hrun
  rw [hm] at hs
  obtain ⟨hline, h0, hlast⟩ := hs
  obtain ⟨len, hlen⟩ : ∃ len, len = (e.getcursor - MAX_CHAR).tmod MAX_COL := ⟨_, rfl⟩
  obtain ⟨e1, he1⟩ : ∃ e1 : Editor,
      e1 = { e with mode := .cmd (some { p with len := some len }) } :=
    ⟨_, rfl⟩
  have hline1 : AtLine e1.vimline p.precur e1.text.lines := by
    rw [he1]
    exact hline
  have hkept : ∀ {e' : Editor}, Draws e1 e' → e'.Synced := by
    intro e' hdraw
    refine synced_prompt (hdraw.mode.trans (congrArg Editor.mode he1)) ?_ h0 hlast
    rw [hdraw.vimline, hdraw.text]
    exact hline1
  have hcmd : e1.mode.isCmd := by rw [he1]; rfl
  rw [Editor.promptKey, ← hlen]
  simp only [← he1]
  split_ifs
  · exact synced_cmd (printf_kept _ _).2
  · exact hkept (Draws.scrputc _ _ _)
  · exact hkept (Draws.cursormove hcmd _ _)
  · exact hkept (Draws.cursormove hcmd _ _)
  · have hclear := Draws.clearcli e1
    have hon : (e1.clearcli.setcursor p.precur).OnLine :=
      onLine_setcursor h0 hlast (by rw [hclear.vimline, hclear.text]; exact hline1)
    exact OnLine.synced (e := { e1.clearcli.setcursor p.precur with mode := .readonly }) hon
      (by simp [Mode.isCmd])
  · exact hkept (Draws.refl _)

theorem Synced.step (ev : Event) (h : e.Synced) (hsteady : e.Steady ev) : (e.step ev).Synced := by
  by_cases hrun : e.status = .running
  case neg => rwa [step_stopped hrun]
  by_cases hcmd : e.mode.isCmd
  · obtain ⟨p, hm⟩ : ∃ p, e.mode = .cmd p := by
      cases hm : e.mode with
      | cmd p => exact ⟨p, rfl⟩
      | readonly | insert => rw [hm] at hcmd; cases hcmd
    cases p with
    | none =>
      have hlisten : e.Listening := ⟨hrun, by simp [hm]⟩
      cases ev with
      | key c junk =>
        rw [step_key hlisten]
        unfold Steady at hsteady
        rw [hm] at hsteady
        exact Synced.mainKey_cmd hm hsteady
      | backspace =>
        rw [step_backspace hrun]
        exact synced_cmd hm
      | eof junk =>
        rw [step_eof hlisten]
        exact synced_leave e (by decide)
    | some p =>
      cases ev with
      | key c junk =>
        rw [step_prompt hrun hm]
        split
        · exact synced_obey rfl
        · exact h.promptKey hrun hm c junk
      | backspace =>
        have hs := h hrun
        rw [hm] at hs
        rw [step_backspace hrun]
        exact synced_prompt hm hs.1 hs.2.1 hs.2.2
      | eof junk =>
        rw [step_prompt_eof hrun hm]
        exact synced_obey rfl
  · have hlisten : e.Listening := ⟨hrun, fun p hp => hcmd (by rw [hp]; rfl)⟩
    have hon := onLine_of_synced h hrun hcmd
    cases ev with
    | key c junk =>
      rw [step_key hlisten]
      exact Synced.mainKey hon hcmd (((steady_iff hcmd).1 _ _).mp hsteady)
    | backspace =>
      rw [step_backspace hrun]
      exact (hon.backspace ((steady_iff hcmd).2.mp hsteady)).synced hcmd
    | eof junk =>
      rw [step_eof hlisten]
      exact synced_leave e (by decide)

theorem lines_readLoop_ge (t : Ctext) (i : Nat) (buf : List Byte) :
    t.lines ≤ (t.readLoop i buf).lines := by
  induction buf generalizing t i with
  | nil => exact Nat.le_refl _
  | cons ch buf ih =>
    have hbyte : t.lines ≤ (t.readByte i ch).lines := by
      rw [Ctext.readByte]
      split
      · exact Nat.le_succ _
      · exact Nat.le_refl _
    exact Nat.le_trans hbyte (ih _ _)

theorem synced_start {t : Ctext} (ht : 1 ≤ t.lines) (screen : Screen) (cmd : Nat → Byte) :
    (start t screen cmd).Synced := by
  have hdraw := draws_start t screen cmd
  have hcursor : (start t screen cmd).getcursor = 0 := getcursor_setcursor _ (by decide) (by decide)
  refine OnLine.synced ?_ (by simp [mode_start, Mode.isCmd])
  rw [OnLine, hcursor, hdraw.vimline, hdraw.text]
  change AtLine 1 0 t.lines ∧ (0 : Int) < LAST_ROW + 80
  exact ⟨⟨by decide, by omega, by decide⟩, by decide⟩

theorem walk_numbered (v : Int) (k : Nat) (ls : List Line)
    (h : ls.map Line.lineno = List.range' k ls.length) (hk : (k : Int) ≤ v)
    (hv : v ≤ k + ls.length) : (Ctext.walk v ls : Int) = v - k := by
  induction ls generalizing k with
  | nil =>
    simp only [length_nil] at hv
    rw [Ctext.walk]
    omega
  | cons p rest ih =>
    rw [map_cons, length_cons, List.range'_succ, List.cons.injEq] at h
    rw [length_cons] at hv
    rw [Ctext.walk, h.1]
    split
    · have := ih (k + 1) h.2 (by omega) (by omega)
      omega
    · omega

theorem index_of_wf {t : Ctext} (h : t.Wf) {v : Int} (h1 : 1 ≤ v) (hv : v ≤ t.lines) :
    (t.index v : Int) = v - 1 := by
  have hlen : t.nodes.length = t.init.length + 1 := by simp [Ctext.nodes]
  have hinit : t.init.map Line.lineno = List.range' 1 t.init.length := by
    have htake := congrArg (List.take t.init.length) h.lineno
    simpa [Ctext.nodes, List.range'_concat] using htake
  have hlines := h.lines
  exact walk_numbered v 1 t.init hinit h1 (by omega)

/-- In every run of steps that aim well, the cursor is on the current line in every state;
and where the list of lines is well formed, that is the line which is selected. -/
theorem cursor_in_step {buf : List Byte} {screen : Screen} {cmd : Nat → Byte} {t : Ctext}
    (hread : readfile buf = some t) {tr : List (Editor × Event)} {e : Editor}
    (htr : Trace stepEditor (start t screen cmd) tr e) (hsteady : ∀ x ∈ tr, Steady x.1 x.2) :
    e.InStep ∧ (Aligned buf → (∀ x ∈ tr, Spares x.1 x.2) → e.status = .running →
      ¬e.mode.isCmd → (e.text.index e.vimline : Int) = e.getcursor / 80) := by
  have ht := eq_loaded hread
  have hlines : 1 ≤ t.lines := by
    rw [← ht]
    exact lines_readLoop_ge { init := [], last := Line.empty 1 1, lines := 1 } 0 buf
  have hstep : e.InStep :=
    (run_invariant (synced_start hlines screen cmd) (fun e ev h hP => Synced.step ev h hP) htr
      hsteady).inStep
  refine ⟨hstep, fun halign hspares hrun hcmd => ?_⟩
  have hline := hstep hrun hcmd
  have hwf := wf_of_run halign hread htr hspares
  rw [index_of_wf hwf hline.first hline.le, hline.row]
  omega

theorem steady_still {e : Editor} {c : Byte} (hcmd : e.mode.isCmd = false)
    (hmotion : motion e.mode c = none) (hc : c ≠ NL ∧ c ≠ KEY_ESC ∧ c ≠ ascii 'G' ∧ c ≠ ascii 'g')
    (htyped : e.mode = .insert → inputfilter c → e.col ≠ 79 ∧ ¬e.opensLine) :
    e.Steady (.key c 0) := by
  have haims : e.Aims c 0 := by
    refine ⟨by simp [hmotion], by simp [hmotion], ?_, by simp [hmotion],
      fun hm hf _ => htyped hm hf, fun h => absurd h hc.1, fun _ => hc.2.2.1,
      fun _ h => absurd h hc.2.2.2⟩
    rintro (h | ⟨hm, hesc⟩)
    · simp [hmotion] at h
    · exact absurd hesc hc.2.1
  unfold Steady
  cases hm : e.mode with
  | readonly | insert => exact haims
  | cmd p => simp [hm, Mode.isCmd] at hcmd

theorem cursor_in_step_edited : ∃ e, Trace stepEditor sample editRun e ∧
    e.text.last.text = [98] ∧ e.InStep := by
  have hread : readfile [97] = some (loaded [97]) := rfl
  refine ⟨_, trace_editRun, by decide +kernel,
    (cursor_in_step hread trace_editRun (forall_editRun ?_ ?_)).1⟩
  · exact steady_still (by decide +kernel) (by decide +kernel) (by decide) (by decide +kernel)
  · exact steady_still (by decide +kernel) (by decide +kernel) (by decide) (by decide +kernel)

/-- The key `G` puts the cursor below the last line and leaves the current line at 1. -/
theorem bottom_not_in_step :
    ∃ e, readfile [97] = some (loaded [97]) ∧
      Trace stepEditor sample [(sample, .key (ascii 'G') 0)] e ∧ ¬e.InStep := by
  refine ⟨_, rfl, .cons .nil rfl, fun h => ?_⟩
  have hafter : (sample.step (.key (ascii 'G') 0)).status = .running ∧
      (sample.step (.key (ascii 'G') 0)).mode = .readonly ∧
      (sample.step (.key (ascii 'G') 0)).vimline ≠
        (sample.step (.key (ascii 'G') 0)).getcursor / 80 + 1 := by decide +kernel
  obtain ⟨hrun, hm, hrow⟩ := hafter
  exact hrow (h hrun (by simp [hm, Mode.isCmd])).row

end Xv6.Vim.Editor
