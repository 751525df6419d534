import Xv6.Vim.Effects
import Xv6.Vim.Load

/-!
# Modes

What a key does in each mode: in insert mode an accepted character should be entered, in
read-only mode only `x` should change the text, and at the prompt nothing should.
-/

namespace Xv6.Vim.Editor

open Lib Console

variable {e e' : Editor} {c : Byte} {junk : Int}

def SameText (e e' : Editor) : Prop :=
  e'.text.nodes.map Line.text = e.text.nodes.map Line.text ∧ e'.text.lines = e.text.lines

/-- The character `k` of the text of line `i`. -/
def charAt (t : Ctext) (i k : Nat) : Option Byte := (t.nodes[i]?).bind fun l => l.text[k]?

def target (e : Editor) : Nat × Nat :=
  if e.opensLine then (e.text.nodes.length, 0) else (e.text.index e.vimline, e.col)

/-- The character `c` has been entered: a newline ends the last line, and any other
character stands where it belongs, with the cursor one cell on. -/
def Entered (e e' : Editor) (c : Byte) : Prop :=
  if c = NL then charAt e'.text e.text.init.length e.text.last.text.length = some NL
  else charAt e'.text e.target.1 e.target.2 = some c ∧
    e'.getcursor = (e.getcursor + 1) % 65536

/-- What the mode of `e` promises about the key `c`. -/
def Respected (e : Editor) (c : Byte) (junk : Int) : Prop :=
  match e.mode with
  | .insert => inputfilter c → Entered e (e.step (.key c junk)) c
  | .readonly => c ≠ ascii 'x' → SameText e (e.step (.key c junk))
  | .cmd (some _) => SameText e (e.step (.key c junk)) ∧
      (c = KEY_ESC → (e.step (.key c junk)).mode = .readonly)
  | .cmd none => True

def Keeps (e : Editor) (c : Byte) : Prop :=
  match e.mode with
  | .insert => inputfilter c → c ≠ ascii 'k' ∧ c ≠ ascii 'g' ∧ c ≠ ascii 'G' ∧
      (c = NL → e.text.last.len < 80 ∧ e.text.last.text.length < 80) ∧
      (c ≠ NL → e.col ≤ e.line.text.length)
  | .readonly => c ≠ NL
  | .cmd (some _) => c = KEY_ESC → (e.getcursor - MAX_CHAR).tmod MAX_COL ≤ CMD_BUF_SZ
  | .cmd none => True

theorem text_measure (l : Line) : l.measure.text = l.text := rfl

theorem text_poke (l : Line) {k : Nat} (hk : k < 80) (v : Byte) :
    (l.poke k v).text = before EMPTY_CHAR (l.c.set k v) := by
  rw [Line.text, Line.poke, if_pos hk]

theorem text_poke_of_ge (l : Line) {k : Nat} (hk : 80 ≤ k) (v : Byte) :
    (l.poke k v).text = l.text := by
  rw [Line.text, Line.text, Line.poke, if_neg (by omega)]
  split_ifs <;> rfl

theorem text_poke_get (l : Line) {k : Nat} (hk : k < 80) {v : Byte} (hv : v ≠ EMPTY_CHAR) :
    (l.poke k v).text[k]? = some v ↔ k ≤ l.text.length := by
  rw [text_poke l hk]
  constructor
  · intro h
    by_contra hgap
    rw [before_set_of_gt k (by rw [Line.text] at hgap; omega)] at h
    have hlt := (List.getElem?_eq_some_iff.mp h).1
    rw [Line.text] at hgap
    omega
  · intro h
    have hlen : ((before EMPTY_CHAR l.c).take k).length = k := by
      rw [List.length_take]
      exact Nat.min_eq_left h
    rw [before_set k h (by rw [l.size]; exact hk) hv, List.getElem?_append_right (by omega), hlen,
      Nat.sub_self]
    rfl

theorem inputfilter_ne_empty (h : inputfilter c) : c ≠ EMPTY_CHAR := by
  rintro rfl
  exact absurd h (by decide)

theorem text_default (hm : e.mode = .insert) (hc : inputfilter c) :
    (e.default c).text = e.typed c := by
  rw [default, if_pos ⟨hm, hc⟩]

theorem getcursor_default (hm : e.mode = .insert) (hc : inputfilter c) (hnl : c ≠ NL) :
    (e.default c).getcursor = (e.getcursor + 1) % 65536 := by
  have hcursor : (e.default c).screen.cursor = BitVec.ofInt 16 (wrap (e.getcursor + 1)) := by
    rw [default, if_pos ⟨hm, hc⟩]
    exact cursor_scrputc _ _ (toNat_ne_newline hnl) (toNat_ne_backspace c)
  have h0 := e.getcursor_nonneg
  have h1 := e.getcursor_lt
  rw [getcursor, Screen.getcursor, hcursor, BitVec.toNat_ofInt, wrap]
  have hwrap : (e.getcursor + 1).bmod (2 ^ 32) = e.getcursor + 1 :=
    Int.bmod_eq_of_le (by omega) (by omega)
  rw [hwrap]
  omega

theorem charAt_typed (hc : c ≠ EMPTY_CHAR) :
    charAt (e.typed c) e.target.1 e.target.2 = some c ↔ e.col ≤ e.line.text.length := by
  have hcol := e.col_lt
  rw [charAt, typed, target]
  split
  case isTrue h =>
    have hget : ((e.text.append
        (((Line.empty (e.text.last.lineno + 1) e.text.last.para).poke e.col c).measure)).nodes)[
          e.text.nodes.length]? =
        some (((Line.empty (e.text.last.lineno + 1) e.text.last.para).poke e.col c).measure) := by
      rw [Ctext.nodes_append, List.getElem?_append_right (Nat.le_refl _), Nat.sub_self]
      rfl
    rw [hget, Option.bind_some, text_measure, h.1, text_poke_get _ (by omega) hc]
    simp
  case isFalse h =>
    have hidx := e.text.index_le e.vimline
    rw [Ctext.nodes_modify hidx, List.getElem?_modify_eq, Ctext.getElem?_nodes hidx]
    exact text_poke_get e.line hcol hc

theorem getcursor_up_ne (e : Editor) (junk : Int) :
    (e.cursormove .up junk).getcursor ≠ (e.getcursor + 1) % 65536 := by
  have h0 := e.getcursor_nonneg
  have h1 := e.getcursor_lt
  simp only [cursormove, MAX_COL]
  split_ifs with hmove hrow
  · have hset : ({ e.setcursor 0 with vimline := e.vimline - 1 } : Editor).getcursor = 0 :=
      getcursor_setcursor e (by omega) (by omega)
    rw [hset]
    omega
  · have hset : ({ e.setcursor (e.getcursor - 80) with vimline := e.vimline - 1 } :
        Editor).getcursor = e.getcursor - 80 := getcursor_setcursor e (by omega) (by omega)
    rw [hset]
    omega
  · omega

theorem nodes_enter (e : Editor) : e.enter.text.nodes =
    e.text.init ++ [if e.text.last.len < 80 then e.text.last.poke e.text.last.strlen NL
      else e.text.last] ++ [Line.empty (e.text.last.lineno + 1) (e.text.last.para + 1)] := rfl

theorem charAt_enter (e : Editor) :
    charAt e.enter.text e.text.init.length e.text.last.text.length = some NL ↔
      e.text.last.len < 80 ∧ e.text.last.text.length < 80 := by
  obtain ⟨p, hp⟩ : ∃ p, p = e.text.last := ⟨_, rfl⟩
  have hget : (e.enter.text.nodes)[e.text.init.length]? =
      some (if p.len < 80 then p.poke p.strlen NL else p) := by
    rw [nodes_enter, List.append_assoc, List.getElem?_append_right (Nat.le_refl _),
      Nat.sub_self, hp]
    rfl
  have hend : p.text[p.text.length]? ≠ some NL := by simp
  rw [charAt, hget, Option.bind_some, ← hp]
  by_cases hlen : p.len < 80
  · rw [if_pos hlen]
    by_cases hfull : EMPTY_CHAR ∈ p.c
    · have hstr : p.strlen = p.text.length := by rw [Line.strlen, Line.string_eq_text hfull]
      have hlt : p.text.length < 80 := by
        rw [← hstr]
        exact Line.strlen_lt_iff.mpr hfull
      rw [hstr, text_poke_get p hlt (by decide)]
      exact iff_of_true (Nat.le_refl _) ⟨hlen, hlt⟩
    · have hstr : 80 ≤ p.strlen := Nat.le_of_not_lt (mt Line.strlen_lt_iff.mp hfull)
      have htext : p.text.length = 80 := by rw [Line.text, before_of_notMem hfull, p.size]
      rw [text_poke_of_ge p hstr]
      exact iff_of_false hend fun h => by omega
  · rw [if_neg hlen]
    exact iff_of_false hend fun h => hlen h.1

theorem text_leave (e : Editor) (status : Status) : (e.leave status).text = e.text :=
  ((Draws.clearcli e).trans ((Draws.restorescr _).trans (Draws.setcursor _ e.precursor))).text

theorem text_obey (e : Editor) : e.obey.text = e.text := by
  rw [obey]
  split_ifs
  · exact text_leave _ _
  · exact text_leave _ _
  · exact (Draws.setcursor _ _).text

theorem printf_kept (e : Editor) (cs : List Int) :
    (e.printf cs).text = e.text ∧ (e.printf cs).mode = e.mode := by
  induction cs generalizing e with
  | nil => exact ⟨rfl, rfl⟩
  | cons c cs ih =>
    rw [printf]
    split
    · exact ih _
    · exact ⟨rfl, rfl⟩

theorem text_promptKey (e : Editor) (p : Prompt) (c : Byte) (junk : Int) :
    (e.promptKey p c junk).text = e.text := by
  rw [promptKey]
  simp only
  split_ifs
  · exact (printf_kept _ _).1
  · exact (Draws.scrputc _ _ _).text
  · exact (Moves.cursormove _ _ _).text
  · exact (Moves.cursormove _ _ _).text
  · exact ((Draws.clearcli _).trans (Draws.setcursor _ p.precur)).text
  · rfl

theorem mode_promptKey_esc (e : Editor) (p : Prompt) (junk : Int) :
    (e.promptKey p KEY_ESC junk).mode = .readonly ↔
      (e.getcursor - MAX_CHAR).tmod MAX_COL ≤ CMD_BUF_SZ := by
  rw [promptKey]
  simp only
  split
  case isTrue h =>
    rw [(printf_kept _ _).2]
    exact iff_of_false (by simp) (by omega)
  case isFalse h => exact iff_of_true rfl (by omega)

section

variable (t : Ctext) (s : Screen) (cmd : Nat → Byte)

include t s cmd

theorem draws_start :
    Draws { text := t, vimline := 1, mode := .readonly, screen := clrscr s, precrt := s.crt,
            precursor := s.getcursor, cmd, status := .running, passed := [], drawn := [] }
      (start t s cmd) :=
  (Draws.setcursor _ 0).trans (Draws.printtext _ 1)

theorem mode_start : (start t s cmd).mode = .readonly :=
  (draws_start t s cmd).mode

theorem status_start : (start t s cmd).status = .running :=
  (draws_start t s cmd).status

end

theorem step_i (hm : e.mode = .readonly) (hs : e.status = .running) (junk : Int) :
    e.step (.key (ascii 'i') junk) = { e.showline with mode := .insert } := by
  rw [step_key ⟨hs, by simp [hm]⟩, mainKey, (Draws.showline e).mode, hm]
  change e.showline.otherKey (ascii 'i') junk = _
  rw [otherKey, (Draws.showline e).mode, hm]
  rfl

theorem motion_insert (hc : inputfilter c) {m : Move} (h : motion .insert c = some m) :
    c = ascii 'k' ∧ m = .up := by
  have hfilter : ∀ k : Byte, inputfilter k = false → c ≠ k := by
    rintro k hk rfl
    exact absurd hc (by rw [hk]; decide)
  simp only [motion, hfilter 0xE2 (by decide), hfilter 0xE3 (by decide), hfilter 0xE4 (by decide),
    hfilter 0xE5 (by decide), reduceCtorEq, and_false, or_false, false_or, and_true, if_false] at h
  split_ifs at h with hk
  exact ⟨hk, (Option.some.inj h).symm⟩

theorem entered_iff (hm : e.mode = .insert) (hc : inputfilter c) :
    Entered e (e.mainKey c junk) c ↔ c ≠ ascii 'k' ∧ c ≠ ascii 'g' ∧ c ≠ ascii 'G' ∧
      (c = NL → e.text.last.len < 80 ∧ e.text.last.text.length < 80) ∧
      (c ≠ NL → e.col ≤ e.line.text.length) := by
  have hshow := Draws.showline e
  have hcursor := getcursor_showline e
  have hacts := mainKey_acts e c junk
  generalize e.mainKey c junk = e' at hacts ⊢
  cases hacts with
  | move m h =>
    rw [hm] at h
    obtain ⟨rfl, rfl⟩ := motion_insert hc h
    rw [Entered, if_neg (by decide), ← hcursor]
    exact iff_of_false (fun h => getcursor_up_ne _ _ h.2) fun h => h.1 rfl
  | type hm' hc' hnl hk hg hG =>
    have hmode : e.showline.mode = .insert := hshow.mode.trans hm
    rw [Entered, if_neg hnl, text_default hmode hc, hshow.typed hcursor,
      getcursor_default hmode hc hnl, hcursor, charAt_typed (inputfilter_ne_empty hc)]
    exact ⟨fun h => ⟨hk, hg, hG, fun h => absurd h hnl, fun _ => h.1⟩,
      fun h => ⟨h.2.2.2.2 hnl, rfl⟩⟩
  | enter hnl =>
    subst hnl
    have henter := charAt_enter e.showline
    rw [hshow.text] at henter
    rw [Entered, if_pos rfl, henter]
    exact ⟨fun h => ⟨by decide, by decide, by decide, fun _ => h, fun h => absurd rfl h⟩,
      fun h => h.2.2.2.1 rfl⟩
  | ignored hi hr hnl =>
    have h0 := e.getcursor_nonneg
    have h1 := e.getcursor_lt
    rw [Entered, if_neg hnl, hcursor]
    refine iff_of_false (fun h => ?_) fun h => ?_
    · exact absurd h.2 (by omega)
    · exact (hi hm hc).elim h.2.1 h.2.2.1
  | stop hm' hesc =>
    subst hesc
    exact absurd hc (by decide)
  | bottom hm' | top hm' | release p hm' | colon hm' | insert hm' | remove hm' => simp [hm] at hm'

theorem readonly_iff (hm : e.mode = .readonly) :
    (c ≠ ascii 'x' → SameText e (e.mainKey c junk)) ↔ c ≠ NL := by
  have hshow := Draws.showline e
  have hsame : ∀ {e'}, e'.text = e.text → SameText e e' := by
    intro e' h
    rw [SameText, h]
    exact ⟨rfl, rfl⟩
  have hacts := mainKey_acts e c junk
  generalize e.mainKey c junk = e' at hacts ⊢
  have hne : c ≠ NL → e'.text = e.text → ((c ≠ ascii 'x' → SameText e e') ↔ c ≠ NL) :=
    fun hnl h => iff_of_true (fun _ => hsame h) hnl
  cases hacts with
  | move m h =>
    refine hne ?_ ((Moves.cursormove _ _ _).text.trans hshow.text)
    rintro rfl
    have hnone : motion .readonly NL = none := rfl
    rw [hm, hnone] at h
    cases h
  | bottom _ hc | top _ hc =>
    exact hne (by rw [hc]; decide) ((Draws.setcursor _ _).text.trans hshow.text)
  | colon _ hc =>
    exact hne (by rw [hc]; decide)
      (((Draws.clearcli _).trans (Draws.scrputc _ CMD_LINE 58)).text.trans hshow.text)
  | insert _ hc => exact hne (by rw [hc]; decide) hshow.text
  | remove _ hc =>
    subst hc
    exact iff_of_true (fun h => absurd rfl h) (by decide)
  | enter hc =>
    subst hc
    refine iff_of_false (fun h => ?_) fun h => h rfl
    have hlines : e.showline.enter.text.lines = e.text.lines + 1 := by
      rw [← hshow.text]
      rfl
    have := (h (by decide)).2
    omega
  | ignored _ _ hnl => exact hne hnl hshow.text
  | type hm' | stop hm' | release p hm' => simp [hm] at hm'

/-- Every mode keeps its promise about a key if and only if the condition holds. -/
theorem modes_respected_iff (e : Editor) (hrun : e.status = .running) (c : Byte) (junk : Int) :
    Respected e c junk ↔ Keeps e c := by
  rw [Respected, Keeps]
  cases hm : e.mode with
  | insert =>
    rw [step_key ⟨hrun, by simp [hm]⟩]
    exact forall_congr' fun hc => entered_iff hm hc
  | readonly =>
    rw [step_key ⟨hrun, by simp [hm]⟩]
    exact readonly_iff hm
  | cmd p =>
    cases p with
    | none => exact Iff.rfl
    | some p =>
      rw [step_prompt hrun hm]
      by_cases hnl : c = NL
      · subst hnl
        simp only [if_true, SameText, text_obey]
        exact iff_of_true ⟨⟨rfl, rfl⟩, fun h => absurd h (by decide)⟩ fun h => absurd h (by decide)
      · simp only [if_neg hnl, SameText, text_promptKey, true_and, and_self]
        constructor
        · rintro h rfl
          exact (mode_promptKey_esc e p junk).mp (h rfl)
        · rintro h rfl
          exact (mode_promptKey_esc e p junk).mpr (h rfl)

/-- The editor on a file with the one character `a`. -/
def sample : Editor := start (loaded [97]) (boot (fun _ => 0) 0) fun _ => 0

theorem modes_respected_iff_sample :
    sample.status = .running ∧ (Respected sample NL 0 ↔ Keeps sample NL) :=
  ⟨status_start _ _ _, modes_respected_iff sample (status_start _ _ _) NL 0⟩

/-- In insert mode the letter `k` moves the cursor instead of being entered. -/
theorem k_not_entered :
    ∃ e, e = sample.run [.key (ascii 'i') 0] ∧ e.status = .running ∧ e.mode = .insert ∧
      inputfilter (ascii 'k') ∧ ¬Respected e (ascii 'k') 0 := by
  have hi := step_i (mode_start (loaded [97]) (boot (fun _ => 0) 0) fun _ => 0)
    (status_start (loaded [97]) (boot (fun _ => 0) 0) fun _ => 0) 0
  have hm : (sample.run [.key (ascii 'i') 0]).mode = .insert := congrArg mode hi
  have hs : (sample.run [.key (ascii 'i') 0]).status = .running :=
    (congrArg status hi).trans ((Draws.showline _).status.trans (status_start _ _ _))
  refine ⟨_, rfl, hs, hm, by decide, ?_⟩
  rw [Respected, hm, step_key ⟨hs, by simp [hm]⟩]
  exact fun h => ((entered_iff hm (by decide)).mp (h (by decide))).1 rfl

end Xv6.Vim.Editor
