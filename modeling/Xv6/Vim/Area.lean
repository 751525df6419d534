import Xv6.Vim.Cursor

/-!
# The text area

Which positions the editor passes to the screen.  The kernel does not check them; they are
on the screen, and those of the text above the command line, as long as the text fits.
-/

namespace Xv6.Vim

open Lib Console List

/-- The rest of a text fits when `k` characters of row `r` are there: at most 24 rows, each
shorter than 79. -/
def FitsFrom (r k : Nat) : List Byte → Prop
  | [] => True
  | ch :: rest => if ch = NL then r + 1 < 24 ∧ FitsFrom (r + 1) 0 rest
      else k + 1 < 79 ∧ FitsFrom r (k + 1) rest

def Fits (text : List Byte) : Prop := FitsFrom 0 0 text

instance decidableFitsFrom : (r k : Nat) → (text : List Byte) → Decidable (FitsFrom r k text)
  | _, _, [] => .isTrue trivial
  | r, k, ch :: rest =>
    have := decidableFitsFrom (r + 1) 0 rest
    have := decidableFitsFrom r (k + 1) rest
    inferInstanceAs (Decidable (if ch = NL then r + 1 < 24 ∧ FitsFrom (r + 1) 0 rest
      else k + 1 < 79 ∧ FitsFrom r (k + 1) rest))

instance (text : List Byte) : Decidable (Fits text) := decidableFitsFrom 0 0 text

/-- What `printtext(1)` draws. -/
def Ctext.shown (t : Ctext) : List Byte := ((t.nodes.drop (t.index 1)).map Line.string).flatten

namespace Editor

variable {e e' : Editor} {c : Byte} {junk pos : Int}

def OnScreen (pos : Int) : Prop := 0 ≤ pos ∧ pos < 2000

def InArea (pos : Int) : Prop := 0 ≤ pos ∧ pos < MAX_CHAR

structure Confined (e : Editor) : Prop where
  passed : ∀ pos ∈ e.passed, OnScreen pos
  drawn : ∀ pos ∈ e.drawn, InArea pos

namespace Confined

variable (h : e.Confined)

include h

theorem of_eq (hp : e'.passed = e.passed) (hd : e'.drawn = e.drawn) : e'.Confined := by
  refine ⟨?_, ?_⟩
  · rw [hp]
    exact h.passed
  · rw [hd]
    exact h.drawn

theorem pass (hpos : OnScreen pos) (hp : e'.passed = pos :: e.passed)
    (hd : e'.drawn = e.drawn) : e'.Confined := by
  refine ⟨?_, ?_⟩
  · rw [hp]
    exact forall_mem_cons.mpr ⟨hpos, h.passed⟩
  · rw [hd]
    exact h.drawn

theorem setcursor (hpos : OnScreen pos) : (e.setcursor pos).Confined :=
  h.pass hpos rfl rfl

theorem scrputc (hpos : OnScreen pos) (c : Int) : (e.scrputc pos c).Confined :=
  h.pass hpos rfl rfl

theorem mark (hpos : InArea pos) : (e.mark pos).Confined :=
  ⟨h.passed, forall_mem_cons.mpr ⟨hpos, h.drawn⟩⟩

theorem puts (cs : List Int) (h0 : 0 ≤ pos) (hlast : pos + cs.length ≤ 2000) :
    (e.puts pos cs).Confined := by
  induction cs generalizing e pos with
  | nil =>
    rw [Editor.puts]
    exact h
  | cons c cs ih =>
    rw [length_cons] at hlast
    rw [Editor.puts]
    exact ih (h.scrputc ⟨h0, by omega⟩ c) (by omega) (by omega)

theorem clearcli : e.clearcli.Confined :=
  h.puts _ (by decide) (by decide)

theorem showline (hcursor : e.getcursor < 2000) : e.showline.Confined := by
  refine (h.puts _ (by decide) ?_).setcursor ⟨e.getcursor_nonneg, hcursor⟩
  simp [label, MAX_CHAR, MAX_ROW, MAX_COL]

theorem printChars {r k : Nat} (hpos : pos = 80 * r + k) (hr : r < 24)
    (hk : k < 79) (chs : List Byte) (hfits : FitsFrom r k chs) :
    (e.printChars pos chs).Confined := by
  induction chs generalizing e pos r k with
  | nil =>
    rw [Editor.printChars]
    exact h
  | cons ch rest ih =>
    rw [Editor.printChars]
    rw [FitsFrom] at hfits
    split
    case isTrue hnl =>
      rw [if_pos hnl] at hfits
      have hmod : (pos + 1).tmod 80 = k + 1 := by
        rw [Int.tmod_eq_emod_of_nonneg (by omega)]
        omega
      have hend : pos + 80 - (pos + 1).tmod 80 = 80 * r + 79 := by omega
      have hscreen : OnScreen (80 * r + 79) := ⟨by omega, by omega⟩
      have harea : InArea (80 * r + 79) :=
        ⟨by omega, by simp only [MAX_CHAR, MAX_ROW, MAX_COL]; omega⟩
      simp only [hend]
      exact ih (((((h.scrputc hscreen _).mark harea).scrputc hscreen _).mark harea))
        (by push_cast; omega) hfits.1 (by omega) hfits.2
    case isFalse hnl =>
      rw [if_neg hnl] at hfits
      have hscreen : OnScreen pos := ⟨by omega, by omega⟩
      have harea : InArea pos := ⟨by omega, by simp only [MAX_CHAR, MAX_ROW, MAX_COL]; omega⟩
      exact ih ((h.scrputc hscreen _).mark harea) (by push_cast; omega) hr (by omega) hfits.2

theorem printtext (hfits : Fits e.text.shown) : (e.printtext 1).Confined :=
  (h.printChars (r := 0) (k := 0) rfl (by decide) (by decide) _ hfits).setcursor
    ⟨by decide, by decide⟩

end Confined

structure Inside (e : Editor) : Prop where
  confined : e.Confined
  precursor : OnScreen e.precursor
  cursor : e.status = .running → e.getcursor < 2000
  prompt : ∀ p, e.mode = .cmd (some p) → OnScreen p.precur ∧ ∀ n, p.len = some n → n ≤ 40

def Stays (e : Editor) (ev : Event) : Prop :=
  match ev, e.mode with
  | .key c _, .cmd (some p) => c = NL → p.len ≠ none
  | .eof _, .cmd (some p) => p.len ≠ none
  | .key c _, m =>
    (m = .readonly → c = ascii 'G' → e.text.lines ≤ 24) ∧
    (m = .readonly → c = ascii 'x' → e.getcursor < MAX_CHAR ∧ Fits e.removed.shown) ∧
    (c = NL ∨ (m = .insert ∧ inputfilter c) → e.getcursor < MAX_CHAR)
  | _, _ => True

namespace Inside

section

variable (h : e.Inside)

include h

theorem onScreen_cursor (hrun : e.status = .running) : OnScreen e.getcursor :=
  ⟨e.getcursor_nonneg, h.cursor hrun⟩

theorem setcursor (hpos : OnScreen pos) : (e.setcursor pos).Inside := by
  refine ⟨h.confined.setcursor hpos, h.precursor, fun _ => ?_, h.prompt⟩
  rw [getcursor_setcursor e hpos.1 (by have := hpos.2; omega)]
  exact hpos.2

theorem showline (hrun : e.status = .running) : e.showline.Inside := by
  have hdraw := Draws.showline e
  refine ⟨h.confined.showline (h.cursor hrun), ?_, ?_, ?_⟩
  · obtain ⟨_, _, _, heq⟩ := hdraw
    rw [heq]
    exact h.precursor
  · rw [getcursor_showline]
    exact fun _ => h.cursor hrun
  · rw [hdraw.mode]
    exact h.prompt

theorem cursormove (hrun : e.status = .running) (m : Move) (junk : Int) :
    (e.cursormove m junk).Inside := by
  have h0 := e.getcursor_nonneg
  have h1 := h.cursor hrun
  have hmove : ∀ {pos v}, OnScreen pos →
      ({ e.setcursor pos with vimline := v } : Editor).Inside := by
    intro pos v hpos
    have hset := h.setcursor hpos
    exact ⟨⟨hset.confined.passed, hset.confined.drawn⟩, hset.precursor, hset.cursor, hset.prompt⟩
  cases m with
  | left =>
    simp only [Editor.cursormove, CMD_LINE, MAX_ROW, MAX_COL]
    split_ifs with hcmd hpos hpos
    · exact h.setcursor ⟨by omega, by omega⟩
    · exact h
    · exact h.setcursor ⟨by omega, by omega⟩
    · exact h
  | right =>
    simp only [Editor.cursormove, CMD_BUF_SZ, MAX_CHAR, MAX_ROW, MAX_COL]
    split_ifs with hcmd hpos hch hpos
    · have hpos' : OnScreen (e.getcursor + 1) := ⟨by omega, by omega⟩
      refine setcursor ?_ hpos'
      exact ⟨h.confined.pass hpos' rfl rfl, h.precursor, h.cursor, h.prompt⟩
    · exact ⟨h.confined.pass ⟨by omega, by omega⟩ rfl rfl, h.precursor, h.cursor, h.prompt⟩
    · exact h
    · exact h.setcursor ⟨by omega, by omega⟩
    · exact h
  | down =>
    simp only [Editor.cursormove, MAX_CHAR, MAX_ROW, MAX_COL]
    split_ifs with hok hclamp
    · exact hmove ⟨by omega, by omega⟩
    · exact hmove ⟨by omega, by omega⟩
    · exact h
  | up =>
    simp only [Editor.cursormove, MAX_COL]
    split_ifs with hok hclamp
    · exact hmove ⟨by omega, by omega⟩
    · exact hmove ⟨by omega, by omega⟩
    · exact h

theorem type (hm : e.mode = .insert) (hc : inputfilter c) (hnl : c ≠ NL)
    (hcursor : e.getcursor < MAX_CHAR) : (e.default c).Inside := by
  have h0 := e.getcursor_nonneg
  have hnew := getcursor_default hm hc hnl
  simp only [MAX_CHAR, MAX_ROW, MAX_COL] at hcursor
  have hscreen : OnScreen e.getcursor := ⟨h0, by omega⟩
  have harea : InArea e.getcursor := ⟨h0, by simp only [MAX_CHAR, MAX_ROW, MAX_COL]; omega⟩
  have hdraw := ((h.confined.setcursor hscreen).scrputc hscreen c.toNat).mark harea
  have hcursor' : (e.default c).getcursor < 2000 := by
    rw [hnew]
    omega
  revert hcursor'
  rw [default, if_pos ⟨hm, hc⟩]
  exact fun hcursor' => ⟨⟨hdraw.passed, hdraw.drawn⟩, h.precursor, fun _ => hcursor', h.prompt⟩

theorem enter (hcursor : e.getcursor < MAX_CHAR) : e.enter.Inside := by
  have h0 := e.getcursor_nonneg
  simp only [MAX_CHAR, MAX_ROW, MAX_COL] at hcursor
  have hscreen : OnScreen e.getcursor := ⟨h0, by omega⟩
  have harea : InArea e.getcursor := ⟨h0, by simp only [MAX_CHAR, MAX_ROW, MAX_COL]; omega⟩
  have hdraw := (h.confined.scrputc hscreen NEWLINE).mark harea
  refine ⟨⟨hdraw.passed, hdraw.drawn⟩, h.precursor, fun _ => ?_, h.prompt⟩
  rw [getcursor_enter e (by simp only [LAST_ROW]; omega)]
  omega

theorem rmch (hrun : e.status = .running) (hcursor : e.getcursor < MAX_CHAR)
    (hfits : Fits e.removed.shown) : e.rmch.Inside := by
  have hdraw := Draws.rmch e
  have hmark : ({ e with text := e.removed }.mark e.getcursor : Editor).Confined :=
    ⟨h.confined.passed, forall_mem_cons.mpr ⟨⟨e.getcursor_nonneg, hcursor⟩, h.confined.drawn⟩⟩
  refine ⟨(hmark.printtext hfits).setcursor (h.onScreen_cursor hrun), ?_, fun _ => ?_, ?_⟩
  · obtain ⟨_, _, _, heq⟩ := hdraw
    rw [heq]
    exact h.precursor
  · rw [getcursor_rmch]
    exact h.cursor hrun
  · rw [hdraw.mode]
    exact h.prompt

theorem openPrompt (hrun : e.status = .running) : e.openPrompt.Inside := by
  have hcursor : e.openPrompt.getcursor = 1921 := by
    have hc : e.openPrompt.screen.cursor = BitVec.ofInt 16 (wrap (CMD_LINE + 1)) :=
      cursor_scrputc _ _ (by decide) (by decide)
    rw [getcursor, Screen.getcursor, hc]
    rfl
  have hprecursor : e.openPrompt.precursor = e.precursor := by
    obtain ⟨_, _, _, heq⟩ := Draws.clearcli e
    rw [Editor.openPrompt, heq]
    rfl
  refine ⟨?_, by rw [hprecursor]; exact h.precursor, fun _ => by rw [hcursor]; decide, ?_⟩
  · have hline : OnScreen CMD_LINE := ⟨by decide, by decide⟩
    have hput := h.confined.clearcli.scrputc hline 58
    exact ⟨hput.passed, hput.drawn⟩
  · intro p hp
    cases hp
    exact ⟨h.onScreen_cursor hrun, fun n hn => by cases hn⟩

end

theorem cursor_cgaputc {s s' : Screen} {c : Int} {u : Unit} (h : s.cgaputc c = .ok u s') :
    s'.getcursor < 2000 := by
  have hadvance : ∀ {s : Screen} {pos : Int}, s.cgaAdvance pos = .ok u s' →
      s'.getcursor < 2000 := by
    intro s pos hok
    rw [Screen.cgaAdvance] at hok
    split at hok
    · cases hok
    case isFalse hrange =>
      have hplace : ∀ (s : Screen) (p : Int) (v : BitVec 16), 0 ≤ p → p < 2000 →
          ((s.place p).write p v).getcursor < 2000 := by
        intro s p v h0 h1
        change ((BitVec.ofInt 16 p).toNat : Int) < 2000
        rw [toNat_ofInt h0 (by omega)]
        exact h1
      by_cases hrow : pos / 80 ≥ 24
      · simp only [if_pos hrow, Outcome.ok.injEq] at hok
        rw [← hok.2]
        exact hplace _ _ _ (by omega) (by omega)
      · simp only [if_neg hrow, Outcome.ok.injEq] at hok
        rw [← hok.2]
        exact hplace _ _ _ (by omega) (by omega)
  rw [Screen.cgaputc] at h
  split_ifs at h <;> exact hadvance h

section

variable (h : e.Inside)

include h

theorem printf (cs : List Int) : (e.printf cs).Inside := by
  induction cs generalizing e with
  | nil => exact h
  | cons c cs ih =>
    rw [Editor.printf]
    split
    case h_1 hok =>
      exact ih ⟨⟨h.confined.passed, h.confined.drawn⟩, h.precursor, fun _ => cursor_cgaputc hok,
        h.prompt⟩
    case h_2 =>
      exact ⟨⟨h.confined.passed, h.confined.drawn⟩, h.precursor, fun hrun => (by cases hrun),
        h.prompt⟩

theorem withMode (m : Mode)
    (hm : ∀ p, m = .cmd (some p) → OnScreen p.precur ∧ ∀ n, p.len = some n → n ≤ 40) :
    ({ e with mode := m } : Editor).Inside :=
  ⟨⟨h.confined.passed, h.confined.drawn⟩, h.precursor, h.cursor, hm⟩

theorem clearSet (hpos : OnScreen pos) : (e.clearcli.setcursor pos).Inside := by
  have hdraw := Draws.clearcli e
  refine ⟨h.confined.clearcli.setcursor hpos, ?_, fun _ => ?_, ?_⟩
  · change OnScreen e.clearcli.precursor
    obtain ⟨_, _, _, heq⟩ := hdraw
    rw [heq]
    exact h.precursor
  · rw [getcursor_setcursor _ hpos.1 (by have := hpos.2; omega)]
    exact hpos.2
  · change ∀ p, e.clearcli.mode = _ → _
    rw [hdraw.mode]
    exact h.prompt

theorem promptKey (hrun : e.status = .running) {p : Prompt}
    (hm : e.mode = .cmd (some p)) (hnl : c ≠ NL) : (e.promptKey p c junk).Inside := by
  have h0 := e.getcursor_nonneg
  have h1 := h.cursor hrun
  have hp := h.prompt p hm
  obtain ⟨len, hlen⟩ : ∃ len, len = (e.getcursor - MAX_CHAR).tmod MAX_COL := ⟨_, rfl⟩
  obtain ⟨e1, he1⟩ : ∃ e1 : Editor,
      e1 = { e with mode := .cmd (some { p with len := some len }) } :=
    ⟨_, rfl⟩
  rw [Editor.promptKey, ← hlen]
  simp only [← he1, CMD_BUF_SZ]
  split
  · exact (h.withMode (.cmd none) (by simp)).printf _
  case isFalse hle =>
    have hin : e1.Inside := by
      rw [he1]
      refine h.withMode _ ?_
      rintro p' hp'
      cases hp'
      exact ⟨hp.1, fun n hn => by cases hn; omega⟩
    have hrun1 : e1.status = .running := by rw [he1]; exact hrun
    have hcur : e1.getcursor = e.getcursor := by rw [he1]; rfl
    split_ifs
    · have hroom : e.getcursor + 1 < 2000 := by
        by_cases hcmd : e.getcursor < 1920
        · omega
        · have hmod : len = e.getcursor - 1920 := by
            rw [hlen, Int.tmod_eq_emod_of_nonneg (by simp only [MAX_CHAR, MAX_ROW, MAX_COL]; omega)]
            simp only [MAX_CHAR, MAX_ROW, MAX_COL]
            omega
          omega
      refine ⟨hin.confined.scrputc ⟨h0, h1⟩ _, hin.precursor, fun _ => ?_, hin.prompt⟩
      rw [getcursor, Screen.getcursor,
        cursor_scrputc _ _ (toNat_ne_newline hnl) (toNat_ne_backspace c),
        wrap_of_small (by omega) (by omega), toNat_ofInt (by omega) (by omega)]
      exact hroom
    · exact hin.cursormove hrun1 _ _
    · exact hin.cursormove hrun1 _ _
    · exact (hin.clearSet hp.1).withMode .readonly (by simp)
    · exact hin

theorem readback {p : Prompt} (hm : e.mode = .cmd (some p)) (hlen : p.len ≠ none)
    (junk : Int) : (e.readback p junk).Inside := by
  refine ⟨⟨?_, h.confined.drawn⟩, h.precursor, h.cursor, fun p hp => by cases hp⟩
  intro pos hpos
  rcases mem_append.mp hpos with hpos | hpos
  · obtain ⟨n, hn⟩ := Option.ne_none_iff_exists'.mp hlen
    have hle := (h.prompt p hm).2 n hn
    obtain ⟨i, hi, rfl⟩ := mem_map.mp hpos
    rw [mem_range, hn, Option.getD_some] at hi
    simp only [OnScreen, MAX_CHAR, MAX_ROW, MAX_COL]
    omega
  · exact h.confined.passed pos hpos

theorem leave {s : Status} (hs : s ≠ .running) : (e.leave s).Inside := by
  have hdraw : Draws e e.clearcli.restorescr := (Draws.clearcli e).trans (Draws.restorescr _)
  have hrestored : e.clearcli.restorescr.Confined := h.confined.clearcli.of_eq rfl rfl
  have hset := hrestored.setcursor h.precursor
  refine ⟨⟨hset.passed, hset.drawn⟩, ?_, fun hrun => absurd hrun hs, ?_⟩
  · change OnScreen e.clearcli.restorescr.precursor
    obtain ⟨_, _, _, heq⟩ := hdraw
    rw [heq]
    exact h.precursor
  · change ∀ p, e.clearcli.restorescr.mode = _ → _
    rw [hdraw.mode]
    exact h.prompt

theorem obey : e.obey.Inside := by
  rw [Editor.obey]
  split_ifs
  · exact h.leave (by decide)
  · exact h.leave (by decide)
  · exact h.setcursor ⟨by decide, by decide⟩

theorem backspace (hrun : e.status = .running) : (e.step .backspace).Inside := by
  have h1 := h.cursor hrun
  rw [step_backspace hrun]
  refine ⟨⟨h.confined.passed, h.confined.drawn⟩, h.precursor, fun _ => ?_, h.prompt⟩
  rw [getcursor_backspace]
  split <;> omega

end

theorem stays_key (hlisten : e.Listening) (h : e.Stays (.key c junk)) :
    (e.mode = .readonly → c = ascii 'G' → e.text.lines ≤ 24) ∧
      (e.mode = .readonly → c = ascii 'x' → e.getcursor < MAX_CHAR ∧ Fits e.removed.shown) ∧
      (c = NL ∨ (e.mode = .insert ∧ inputfilter c) → e.getcursor < MAX_CHAR) := by
  unfold Stays at h
  cases hm : e.mode with
  | readonly | insert =>
    rw [hm] at h
    exact h
  | cmd p =>
    cases p with
    | none =>
      rw [hm] at h
      exact h
    | some p => exact absurd hm (hlisten.mode p)

theorem mainKey (h : e.Inside) (hrun : e.status = .running)
    (hbottom : e.mode = .readonly → c = ascii 'G' → e.text.lines ≤ 24)
    (hremove : e.mode = .readonly → c = ascii 'x' → e.getcursor < MAX_CHAR ∧ Fits e.removed.shown)
    (htype : c = NL ∨ (e.mode = .insert ∧ inputfilter c) → e.getcursor < MAX_CHAR) :
    (e.mainKey c junk).Inside := by
  have hdraw := Draws.showline e
  have hcursor := getcursor_showline e
  have hshow := h.showline hrun
  have hrun' : e.showline.status = .running := hdraw.status.trans hrun
  have hacts := mainKey_acts e c junk
  generalize e.mainKey c junk = e' at hacts ⊢
  cases hacts with
  | move m => exact hshow.cursormove hrun' m junk
  | type hm hc hnl =>
    refine hshow.type (hdraw.mode.trans hm) hc hnl ?_
    rw [hcursor]
    exact htype (.inr ⟨hm, hc⟩)
  | bottom hm hc =>
    have hlines := hbottom hm hc
    exact hshow.setcursor ⟨by simp only [MAX_COL]; omega, by simp only [MAX_COL]; omega⟩
  | top => exact hshow.setcursor ⟨by decide, by decide⟩
  | stop => exact (hshow.withMode .readonly (by simp)).cursormove hrun' .left junk
  | release => exact hshow.withMode .readonly (by simp)
  | colon => exact hshow.openPrompt hrun'
  | insert => exact hshow.withMode .insert (by simp)
  | remove hm hc =>
    obtain ⟨hpos, hfits⟩ := hremove hm hc
    refine hshow.rmch hrun' (by rwa [hcursor]) ?_
    rwa [hdraw.removed hcursor]
  | enter hc =>
    refine hshow.enter ?_
    rw [hcursor]
    exact htype (.inl hc)
  | ignored => exact hshow

theorem step (ev : Event) (h : e.Inside) (hstays : e.Stays ev) : (e.step ev).Inside := by
  by_cases hrun : e.status = .running
  case neg => rwa [step_stopped hrun]
  by_cases hprompt : ∃ p, e.mode = .cmd (some p)
  · obtain ⟨p, hm⟩ := hprompt
    unfold Stays at hstays
    rw [hm] at hstays
    cases ev with
    | key c junk =>
      rw [step_prompt hrun hm]
      split
      case isTrue hnl => exact (h.readback hm (hstays hnl) junk).obey
      case isFalse hnl => exact h.promptKey hrun hm hnl
    | backspace => exact h.backspace hrun
    | eof junk =>
      rw [step_prompt_eof hrun hm]
      exact (h.readback hm hstays junk).obey
  · have hlisten : e.Listening := ⟨hrun, fun p hp => hprompt ⟨p, hp⟩⟩
    cases ev with
    | key c junk =>
      rw [step_key hlisten]
      obtain ⟨hbottom, hremove, htype⟩ := stays_key hlisten hstays
      exact h.mainKey hrun hbottom hremove htype
    | backspace => exact h.backspace hrun
    | eof junk =>
      rw [step_eof hlisten]
      exact h.leave (by decide)

end Inside

theorem inside_start {t : Ctext} {screen : Screen} (hfits : Fits t.shown)
    (hscreen : screen.getcursor < 2000) (cmd : Nat → Byte) : (start t screen cmd).Inside := by
  have hdraw := draws_start t screen cmd
  have hcursor : (start t screen cmd).getcursor = 0 := getcursor_setcursor _ (by decide) (by decide)
  refine ⟨?_, ?_, fun _ => by rw [hcursor]; decide, ?_⟩
  · refine Confined.printtext ?_ hfits
    exact Confined.setcursor ⟨by simp, by simp⟩ ⟨by decide, by decide⟩
  · obtain ⟨_, _, _, heq⟩ := hdraw
    rw [heq]
    exact ⟨Int.natCast_nonneg _, hscreen⟩
  · rw [mode_start]
    intro p hp
    cases hp

end Editor

theorem short_of_fits {acc buf : List Byte} {r k : Nat} (hacc : acc.length ≤ k + 1)
    (hk : k < 79) (h : FitsFrom r k buf) : ∀ p ∈ pieces NL acc buf, p.length < 80 := by
  induction buf generalizing acc r k with
  | nil =>
    rw [pieces_nil]
    exact forall_mem_singleton.mpr (by omega)
  | cons ch buf ih =>
    rw [FitsFrom] at h
    by_cases hch : ch = NL
    · subst hch
      rw [if_pos rfl] at h
      rw [pieces_cons_self]
      refine forall_mem_cons.mpr ⟨by omega, ih (k := 0) (by simp) (by omega) h.2⟩
    · rw [if_neg hch] at h
      rw [pieces_cons_of_ne acc hch]
      exact ih (by simp; omega) (by omega) h.2

theorem lineno_readLoop (t : Ctext) (i : Nat) (buf : List Byte) (h : ∀ l ∈ t.init, 1 ≤ l.lineno) :
    ∀ l ∈ (t.readLoop i buf).init, 1 ≤ l.lineno := by
  induction buf generalizing t i with
  | nil => exact h
  | cons ch buf ih =>
    refine ih _ _ ?_
    rw [Ctext.readByte]
    split
    · intro l hl
      rcases mem_append.mp hl with hl | hl
      · exact h l hl
      · rw [mem_singleton.mp hl]
        exact Nat.le_add_left _ _
    · exact h

theorem index_loaded (buf : List Byte) : (loaded buf).index 1 = 0 := by
  have h := lineno_readLoop { init := [], last := Line.empty 1 1, lines := 1 } 0 buf (by simp)
  rw [Ctext.index, loaded]
  cases hinit : (Ctext.readLoop { init := [], last := Line.empty 1 1, lines := 1 } 0 buf).init with
  | nil => rfl
  | cons p rest =>
    have hp := h p (by rw [hinit]; exact mem_cons_self)
    rw [Ctext.walk, if_neg (by omega)]

theorem shown_loaded {buf : List Byte} (h0 : EMPTY_CHAR ∉ buf) (h : Fits buf) :
    (loaded buf).shown = buf := by
  have hshort : ∀ p ∈ pieces NL [] buf, p.length < 80 := short_of_fits (by simp) (by omega) h
  have hkeep : Keepable buf :=
    ⟨fun p hp => .inl (hshort p (mem_append_left _ hp)),
      .inl (hshort _ (mem_append_right _ (mem_singleton.mpr rfl)))⟩
  rw [Ctext.shown, index_loaded, drop_zero]
  exact (loaded_written_iff buf h0).mpr hkeep

namespace Editor

/-- In every run on a file that fits, of steps that keep to the text area, every position
passed to the screen is on it, and the text is drawn and edited above the command line. -/
theorem text_area {buf : List Byte} {screen : Screen} {cmd : Nat → Byte} {t : Ctext}
    (hread : readfile buf = some t) (h0 : EMPTY_CHAR ∉ buf) (hfits : Fits buf)
    (hscreen : screen.getcursor < 2000) {tr : List (Editor × Event)} {e : Editor}
    (htr : Trace stepEditor (start t screen cmd) tr e) (hstays : ∀ x ∈ tr, Stays x.1 x.2) :
    e.Confined := by
  have hshown : Fits t.shown := by
    rw [← eq_loaded hread, shown_loaded h0 hfits]
    exact hfits
  exact (run_invariant (inside_start hshown hscreen cmd) (fun e ev h hP => Inside.step ev h hP) htr
    hstays).confined

theorem stays_plain {e : Editor} {c : Byte} (hcmd : e.mode.isCmd = false)
    (hroom : e.getcursor < MAX_CHAR) (hc : c ≠ ascii 'G' ∧ c ≠ ascii 'x') :
    e.Stays (.key c 0) := by
  unfold Stays
  cases hm : e.mode with
  | readonly | insert =>
    exact ⟨fun _ h => absurd h hc.1, fun _ h => absurd h hc.2, fun _ => hroom⟩
  | cmd p => simp [hm, Mode.isCmd] at hcmd

theorem text_area_edited : ∃ e, Trace stepEditor sample editRun e ∧
    e.text.last.text = [98] ∧ e.Confined := by
  have hread : readfile [97] = some (loaded [97]) := rfl
  refine ⟨_, trace_editRun, by decide +kernel,
    text_area hread (by decide) (by decide) (by decide) trace_editRun (forall_editRun ?_ ?_)⟩
  · exact stays_plain (by decide +kernel) (by decide +kernel) (by decide)
  · exact stays_plain (by decide +kernel) (by decide +kernel) (by decide)

/-- A file of 27 empty lines is drawn beyond the screen. -/
theorem drawn_beyond_screen :
    ∃ buf t, EMPTY_CHAR ∉ buf ∧ readfile buf = some t ∧
      ∃ e, Trace stepEditor (start t (boot (fun _ => 0) 0) fun _ => 0) [] e ∧ ¬e.Confined := by
  refine ⟨List.replicate 26 NL, _, by decide, rfl, _, .nil, fun h => ?_⟩
  have hbeyond : 2079 ∈ (start (loaded (List.replicate 26 NL)) (boot (fun _ => 0) 0)
      fun _ => 0).passed := by decide +kernel
  exact absurd (h.passed 2079 hbeyond).2 (by decide)

end Editor

end Xv6.Vim
