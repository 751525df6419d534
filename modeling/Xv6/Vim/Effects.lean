import Xv6.Vim.Editor

/-!
# What the functions of the editor change

Most functions of `vim.c` only draw: they change the screen, and the rest of the state
stays as it is.  The cursor after each of them, and the nodes that an edit touches.
-/

namespace Xv6.Console.Screen

theorem setcursor_snd (s : Screen) (pos : Int) : (s.setcursor pos).2 =
      { crt := Function.update s.crt pos (if s.crt pos = EMPTY_CHAR then WHITE else s.crt pos)
        cursor := BitVec.ofInt 16 pos
        touched := pos :: pos :: s.touched } := by
  unfold setcursor
  dsimp only [read, place, write]
  split_ifs with h
  · rw [h]
    rfl
  · rfl

end Xv6.Console.Screen

namespace Xv6.Vim

open Lib Console List

namespace Ctext

variable {t : Ctext} {i : Nat} {f : Line → Line}

theorem walk_le (line : Int) (ls : List Line) : walk line ls ≤ ls.length := by
  induction ls with
  | nil => exact Nat.le_refl 0
  | cons p rest ih =>
    rw [walk, length_cons]
    split <;> omega

theorem index_le (t : Ctext) (line : Int) : t.index line ≤ t.init.length := walk_le line t.init

theorem getElem?_nodes (h : i ≤ t.init.length) : t.nodes[i]? = some (t.get i) := by
  rw [nodes, get]
  by_cases hi : i < t.init.length
  · rw [List.getElem?_append_left hi, List.getElem?_eq_getElem hi, Option.getD_some]
  · have hi' : i = t.init.length := by omega
    rw [hi', List.getElem?_append_right (Nat.le_refl _), Nat.sub_self,
      List.getElem?_eq_none (Nat.le_refl _), Option.getD_none]
    rfl

theorem get_mem (h : i ≤ t.init.length) : t.get i ∈ t.nodes :=
  mem_of_getElem? (getElem?_nodes h)

theorem nodes_modify (h : i ≤ t.init.length) : (t.modify i f).nodes = t.nodes.modify i f := by
  rw [modify, nodes, nodes]
  split
  · apply ext_getElem?
    intro j
    grind
  · have hi : i = t.init.length := by omega
    apply ext_getElem?
    intro j
    grind

@[simp] theorem lines_modify : (t.modify i f).lines = t.lines := by
  rw [modify]
  split <;> rfl

@[simp] theorem nodes_append (l : Line) : (t.append l).nodes = t.nodes ++ [l] := rfl

@[simp] theorem lines_append (l : Line) : (t.append l).lines = t.lines + 1 := rfl

end Ctext

namespace Editor

variable {e e' e'' : Editor}

def Draws (e e' : Editor) : Prop :=
  ∃ screen passed drawn, e' = { e with screen, passed, drawn }

namespace Draws

theorem refl (e : Editor) : Draws e e := ⟨_, _, _, rfl⟩

section

variable (h : Draws e e')

include h

theorem trans (h' : Draws e' e'') : Draws e e'' := by
  obtain ⟨_, _, _, rfl⟩ := h
  obtain ⟨_, _, _, rfl⟩ := h'
  exact ⟨_, _, _, rfl⟩

theorem text : e'.text = e.text := by
  obtain ⟨_, _, _, rfl⟩ := h
  rfl

theorem vimline : e'.vimline = e.vimline := by
  obtain ⟨_, _, _, rfl⟩ := h
  rfl

theorem mode : e'.mode = e.mode := by
  obtain ⟨_, _, _, rfl⟩ := h
  rfl

theorem status : e'.status = e.status := by
  obtain ⟨_, _, _, rfl⟩ := h
  rfl

theorem line : e'.line = e.line := by
  obtain ⟨_, _, _, rfl⟩ := h
  rfl

end

theorem setcursor (e : Editor) (pos : Int) : Draws e (e.setcursor pos) := ⟨_, _, _, rfl⟩

theorem scrputc (e : Editor) (pos c : Int) : Draws e (e.scrputc pos c) := ⟨_, _, _, rfl⟩

theorem mark (e : Editor) (pos : Int) : Draws e (e.mark pos) := ⟨_, _, _, rfl⟩

theorem puts (e : Editor) (pos : Int) (cs : List Int) : Draws e (e.puts pos cs) := by
  induction cs generalizing e pos with
  | nil =>
    rw [Editor.puts]
    exact refl e
  | cons c cs ih =>
    rw [Editor.puts]
    exact (scrputc e pos c).trans (ih _ _)

theorem clearcli (e : Editor) : Draws e e.clearcli := puts e _ _

theorem showline (e : Editor) : Draws e e.showline := (puts e _ _).trans (setcursor _ _)

theorem printChars (e : Editor) (pos : Int) (chs : List Byte) : Draws e (e.printChars pos chs) := by
  induction chs generalizing e pos with
  | nil =>
    rw [Editor.printChars]
    exact refl e
  | cons ch rest ih =>
    rw [Editor.printChars]
    split
    · exact (((scrputc _ _ _).trans (mark _ _)).trans ((scrputc _ _ _).trans (mark _ _))).trans
        (ih _ _)
    · exact ((scrputc _ _ _).trans (mark _ _)).trans (ih _ _)

theorem printtext (e : Editor) (line : Int) : Draws e (e.printtext line) :=
  (printChars e _ _).trans (setcursor _ _)

theorem restorescr (e : Editor) : Draws e e.restorescr := ⟨_, _, _, rfl⟩

theorem rmch (e : Editor) : Draws { e with text := e.removed } e.rmch :=
  (mark _ _).trans ((printtext _ 1).trans (setcursor _ e.getcursor))

end Draws

theorem toInt_ne_newline {b : Byte} (h : b ≠ NL) : b.toInt ≠ NEWLINE := by
  revert b
  decide +kernel

theorem toNat_ne_newline {b : Byte} (h : b ≠ NL) : (b.toNat : Int) ≠ NEWLINE := by
  revert b
  decide +kernel

theorem toInt_ne_backspace (b : Byte) : b.toInt ≠ BACKSPACE := by
  revert b
  decide +kernel

theorem toNat_ne_backspace (b : Byte) : (b.toNat : Int) ≠ BACKSPACE := by
  revert b
  decide +kernel

theorem getcursor_nonneg (e : Editor) : 0 ≤ e.getcursor := Int.natCast_nonneg _

theorem getcursor_lt (e : Editor) : e.getcursor < 65536 := by
  have := e.screen.cursor.isLt
  unfold getcursor Screen.getcursor
  omega

theorem ofInt_getcursor (e : Editor) : BitVec.ofInt 16 e.getcursor = e.screen.cursor := by
  rw [getcursor, Screen.getcursor, BitVec.ofInt_natCast, BitVec.ofNat_toNat, BitVec.setWidth_eq]

theorem toNat_ofInt {pos : Int} (h0 : 0 ≤ pos) (h : pos < 65536) :
    ((BitVec.ofInt 16 pos).toNat : Int) = pos := by
  rw [BitVec.toNat_ofInt]
  omega

@[simp] theorem cursor_setcursor (e : Editor) (pos : Int) :
    (e.setcursor pos).screen.cursor = BitVec.ofInt 16 pos := by
  rw [setcursor, Screen.setcursor_snd]

theorem getcursor_setcursor (e : Editor) {pos : Int} (h0 : 0 ≤ pos) (h : pos < 65536) :
    (e.setcursor pos).getcursor = pos := by
  rw [getcursor, Screen.getcursor, cursor_setcursor, toNat_ofInt h0 h]

@[simp] theorem cursor_showline (e : Editor) : e.showline.screen.cursor = e.screen.cursor := by
  rw [showline, cursor_setcursor, ofInt_getcursor]

@[simp] theorem getcursor_showline (e : Editor) : e.showline.getcursor = e.getcursor := by
  rw [getcursor, getcursor, Screen.getcursor, Screen.getcursor, cursor_showline]

theorem cursor_scrputc (e : Editor) (pos : Int) {c : Int} (h : c ≠ NEWLINE) (h' : c ≠ BACKSPACE) :
    (e.scrputc pos c).screen.cursor = BitVec.ofInt 16 (wrap (pos + 1)) := by
  simp only [scrputc, Screen.scrputc, if_neg h, if_neg h']
  rfl

theorem cursor_scrputc_newline (e : Editor) (pos : Int) :
    (e.scrputc pos NEWLINE).screen.cursor = BitVec.ofInt 16 (wrap (pos + (80 - pos.tmod 80))) := by
  simp only [scrputc, Screen.scrputc, if_true]
  rfl

theorem col_congr (hc : e'.getcursor = e.getcursor) : e'.col = e.col := by
  rw [Editor.col, Editor.col, hc]

section

variable (h : Draws e e') (hc : e'.getcursor = e.getcursor)

include h hc

theorem Draws.opensLine : e'.opensLine ↔ e.opensLine := by
  rw [Editor.opensLine, Editor.opensLine, h.line, col_congr hc, hc]

theorem Draws.typed (c : Byte) : e'.typed c = e.typed c := by
  simp only [Editor.typed, h.opensLine hc, col_congr hc, h.text, h.vimline]

theorem Draws.removed : e'.removed = e.removed := by
  simp only [Editor.removed, h.line, col_congr hc, h.text, h.vimline]

end

def Moves (e e' : Editor) : Prop := ∃ vimline, Draws { e with vimline } e'

theorem Draws.moves (h : Draws e e') : Moves e e' := ⟨e.vimline, h⟩

theorem Draws.cursormove (hm : e.mode.isCmd) (move : Move) (junk : Int) :
    Draws e (e.cursormove move junk) := by
  cases move with
  | left =>
    simp only [Editor.cursormove, if_pos hm]
    split_ifs
    · exact setcursor e _
    · exact refl e
  | right =>
    simp only [Editor.cursormove, if_pos hm]
    split_ifs
    · exact trans ⟨_, _, _, rfl⟩ (setcursor _ _)
    · exact ⟨_, _, _, rfl⟩
    · exact refl e
  | down | up =>
    simp only [Editor.cursormove, hm, not_true, false_and, if_false]
    exact refl e

namespace Moves

theorem text (h : Moves e e') : e'.text = e.text := h.choose_spec.text

theorem mode (h : Moves e e') : e'.mode = e.mode := h.choose_spec.mode

theorem status (h : Moves e e') : e'.status = e.status := h.choose_spec.status

theorem cursormove (e : Editor) (move : Move) (junk : Int) : Moves e (e.cursormove move junk) := by
  have hset : ∀ pos v, Moves e { e.setcursor pos with vimline := v } :=
    fun pos v => ⟨v, Draws.setcursor { e with vimline := v } pos⟩
  cases move with
  | left =>
    simp only [Editor.cursormove]
    split_ifs
    · exact (Draws.setcursor e _).moves
    · exact (Draws.refl e).moves
    · exact (Draws.setcursor e _).moves
    · exact (Draws.refl e).moves
  | right =>
    simp only [Editor.cursormove]
    split_ifs
    · exact Draws.moves (Draws.trans ⟨_, _, _, rfl⟩ (Draws.setcursor _ _))
    · exact Draws.moves ⟨_, _, _, rfl⟩
    · exact (Draws.refl e).moves
    · exact (Draws.setcursor e _).moves
    · exact (Draws.refl e).moves
  | down | up =>
    simp only [Editor.cursormove]
    split_ifs
    · exact hset _ _
    · exact hset _ _
    · exact (Draws.refl e).moves

end Moves

/-- The editor is in the key loop: it runs, and `readcmd` is not reading. -/
structure Listening (e : Editor) : Prop where
  running : e.status = .running
  mode : ∀ p, e.mode ≠ .cmd (some p)

theorem step_key (h : e.Listening) (c : Byte) (junk : Int) :
    e.step (.key c junk) = e.mainKey c junk := by
  unfold step
  rw [if_neg (not_not.mpr h.running)]
  cases hm : e.mode with
  | readonly => rfl
  | insert => rfl
  | cmd p =>
    cases p with
    | none => rfl
    | some p => exact absurd hm (h.mode p)

theorem step_prompt (hs : e.status = .running) {p : Prompt} (hm : e.mode = .cmd (some p)) (c : Byte)
    (junk : Int) :
    e.step (.key c junk) =
      if c = NL then (e.readback p junk).obey else e.promptKey p c junk := by
  unfold step
  rw [if_neg (not_not.mpr hs), hm]

theorem step_backspace (hs : e.status = .running) :
    e.step .backspace = { e with screen := Editor.backspace e.screen } := by
  unfold step
  rw [if_neg (not_not.mpr hs)]

theorem step_eof (h : e.Listening) (junk : Int) : e.step (.eof junk) = e.leave .saved := by
  unfold step
  rw [if_neg (not_not.mpr h.running)]
  cases hm : e.mode with
  | readonly => rfl
  | insert => rfl
  | cmd p =>
    cases p with
    | none => rfl
    | some p => exact absurd hm (h.mode p)

theorem step_prompt_eof (hs : e.status = .running) {p : Prompt} (hm : e.mode = .cmd (some p))
    (junk : Int) : e.step (.eof junk) = (e.readback p junk).obey := by
  unfold step
  rw [if_neg (not_not.mpr hs), hm]

theorem step_stopped (hs : e.status ≠ .running) (ev : Event) : e.step ev = e := if_pos hs

def stepEditor (e : Editor) (ev : Event) : Outcome Editor Unit := .ok () (e.step ev)

theorem run_invariant {I : Editor → Prop} {P : Editor → Event → Prop} {e0 : Editor} (hinit : I e0)
    (hnext : ∀ e ev, I e → P e ev → I (e.step ev)) {tr : List (Editor × Event)}
    (htr : Trace stepEditor e0 tr e) (hP : ∀ x ∈ tr, P x.1 x.2) : I e := by
  induction htr with
  | nil => exact hinit
  | cons htr hstep ih =>
    cases hstep
    exact hnext _ _ (ih fun x hx => hP x (mem_cons_of_mem _ hx)) (hP _ mem_cons_self)

inductive Acts (e : Editor) (c : Byte) (junk : Int) : Editor → Prop
  | move (m : Move) (h : motion e.mode c = some m) : Acts e c junk (e.showline.cursormove m junk)
  | type (hm : e.mode = .insert) (hc : inputfilter c) (hnl : c ≠ NL) (hk : c ≠ ascii 'k')
      (hg : c ≠ ascii 'g') (hG : c ≠ ascii 'G') : Acts e c junk (e.showline.default c)
  | bottom (hm : e.mode = .readonly) (hc : c = ascii 'G') :
      Acts e c junk (e.showline.setcursor (e.text.lines * MAX_COL))
  | top (hm : e.mode = .readonly) (hc : c = ascii 'g') : Acts e c junk (e.showline.setcursor 0)
  | stop (hm : e.mode = .insert) (hc : c = KEY_ESC) :
      Acts e c junk ({ e.showline with mode := .readonly }.cursormove .left junk)
  | release (p : Option Prompt) (hm : e.mode = .cmd p) (hc : c = KEY_ESC) :
      Acts e c junk { e.showline with mode := .readonly }
  | colon (hm : e.mode = .readonly) (hc : c = ascii ':') : Acts e c junk e.showline.openPrompt
  | insert (hm : e.mode = .readonly) (hc : c = ascii 'i') :
      Acts e c junk { e.showline with mode := .insert }
  | remove (hm : e.mode = .readonly) (hc : c = ascii 'x') : Acts e c junk e.showline.rmch
  | enter (hc : c = NL) : Acts e c junk e.showline.enter
  | ignored (hi : e.mode = .insert → inputfilter c → c = ascii 'g' ∨ c = ascii 'G')
      (hr : e.mode = .readonly → c ≠ ascii 'x') (hnl : c ≠ NL) : Acts e c junk e.showline

theorem acts_default (e : Editor) (c : Byte) (junk : Int) (hnl : c ≠ NL)
    (hk : e.mode = .insert → c ≠ ascii 'k') (hg : c ≠ ascii 'g') (hG : c ≠ ascii 'G')
    (hx : e.mode = .readonly → c ≠ ascii 'x') : Acts e c junk (e.showline.default c) := by
  by_cases hi : e.mode = .insert ∧ inputfilter c
  · exact .type hi.1 hi.2 hnl (hk hi.1) hg hG
  · have hshow : e.showline.default c = e.showline := by
      rw [default, (Draws.showline e).mode, if_neg hi]
    rw [hshow]
    exact .ignored (fun hm hc => absurd ⟨hm, hc⟩ hi) hx hnl

theorem mainKey_acts (e : Editor) (c : Byte) (junk : Int) : Acts e c junk (e.mainKey c junk) := by
  have hmode := (Draws.showline e).mode
  have htext := (Draws.showline e).text
  rw [mainKey]
  simp only [hmode]
  cases hmotion : motion e.mode c with
  | some m => exact .move m hmotion
  | none =>
    have hk : e.mode = .insert → c ≠ ascii 'k' := by
      rintro hm rfl
      rw [hm] at hmotion
      exact absurd hmotion (by decide)
    have hdefault := fun hnl hg hG hx => acts_default e c junk hnl hk hg hG hx
    rw [otherKey, hmode]
    by_cases hG : c = ascii 'G'
    · rw [if_pos hG]
      split_ifs with hm
      · rw [htext]
        exact .bottom hm hG
      · exact .ignored (fun _ _ => .inr hG) (fun h => absurd h hm) (by rw [hG]; decide)
    rw [if_neg hG]
    by_cases hg : c = ascii 'g'
    · rw [if_pos hg]
      split_ifs with hm
      · exact .top hm hg
      · exact .ignored (fun _ _ => .inl hg) (fun h => absurd h hm) (by rw [hg]; decide)
    rw [if_neg hg]
    by_cases hesc : c = KEY_ESC
    · rw [if_pos hesc]
      cases hm : e.mode with
      | readonly =>
        exact .ignored (fun h => by rw [hm] at h; cases h) (fun _ => by rw [hesc]; decide)
          (by rw [hesc]; decide)
      | insert => exact .stop hm hesc
      | cmd p => exact .release p hm hesc
    rw [if_neg hesc]
    by_cases hcolon : c = ascii ':'
    · rw [if_pos hcolon]
      have hnl : c ≠ NL := by rw [hcolon]; decide
      have hx : c ≠ ascii 'x' := by rw [hcolon]; decide
      cases hm : e.mode with
      | readonly => exact .colon hm hcolon
      | insert => exact hdefault hnl hg hG fun _ => hx
      | cmd p => exact .ignored (fun h => by rw [hm] at h; cases h) (fun _ => hx) hnl
    rw [if_neg hcolon]
    by_cases hi : c = ascii 'i'
    · rw [if_pos hi]
      have hnl : c ≠ NL := by rw [hi]; decide
      have hx : c ≠ ascii 'x' := by rw [hi]; decide
      cases hm : e.mode with
      | readonly => exact .insert hm hi
      | insert => exact hdefault hnl hg hG fun _ => hx
      | cmd p => exact .ignored (fun h => by rw [hm] at h; cases h) (fun _ => hx) hnl
    rw [if_neg hi]
    by_cases hx : c = ascii 'x'
    · rw [if_pos hx]
      have hnl : c ≠ NL := by rw [hx]; decide
      cases hm : e.mode with
      | readonly => exact .remove hm hx
      | insert => exact hdefault hnl hg hG fun h => by rw [hm] at h; cases h
      | cmd p =>
        exact .ignored (fun h => by rw [hm] at h; cases h) (fun h => by rw [hm] at h; cases h) hnl
    rw [if_neg hx]
    by_cases hnl : c = NL
    · rw [if_pos hnl]
      exact .enter hnl
    rw [if_neg hnl]
    exact hdefault hnl hg hG fun _ => hx

end Editor

end Xv6.Vim
