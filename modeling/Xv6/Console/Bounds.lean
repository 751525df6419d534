import Xv6.Console.Screen

/-!
# Which calls stay on the screen

None of the system calls checks its arguments.  `Fits` says for which arguments a call
stays inside the 25 × 80 elements of `crt`; a run of such calls keeps the cursor on the
screen, and then neither `curmove` nor `cgaputc` leaves it.
-/

namespace Xv6.Console

open Lib List

abbrev Cell (i : Int) : Prop := 0 ≤ i ∧ i < 25 * 80

def Fits (s : Screen) : Call → Prop
  | .setcursor pos => Cell pos.toInt
  | .putchar pos _ => Cell pos.toInt
  | .getcch pos => Cell pos.toInt
  | .scrputc pos c => Cell pos.toInt ∧ (c.toInt = NEWLINE → pos.toInt < 24 * 80) ∧
      (c.toInt ≠ NEWLINE → c.toInt ≠ BACKSPACE → pos.toInt + 1 < 25 * 80)
  | .pushword pos line => 0 ≤ pos.toInt ∧ 0 ≤ line.toInt ∧ line.toInt < 25
  | .deletech currentline linecount =>
    let p := s.getcursor % 80 + (currentline.toInt - 1) * 80
    let e := 80 - p + 80 * linecount.toInt - 1
    (p < 2 ^ 31 ∧ -2 ^ 31 ≤ p) ∧ (e < 2 ^ 31 ∧ -2 ^ 31 ≤ e) ∧ (p < e → 0 ≤ p ∧ e < 25 * 80)
  | .curmove _ _ => True
  | .cgaputc _ => True

instance (s : Screen) (c : Call) : Decidable (Fits s c) := by
  cases c <;> unfold Fits <;> infer_instance

/-- The cursor and every element of `crt` used so far are on the screen. -/
structure OnScreen (s : Screen) : Prop where
  cursor : s.getcursor < 25 * 80
  touched : ∀ i ∈ s.touched, Cell i

variable {s : Screen} {pos c i : Int}

theorem wrap_eq {x : Int} (hlo : -2 ^ 31 ≤ x) (hhi : x < 2 ^ 31) : wrap x = x := by
  apply Int.bmod_eq_of_le <;> omega

theorem getcursor_nonneg (s : Screen) : 0 ≤ s.getcursor := Int.natCast_nonneg _

namespace OnScreen

section

variable (h : OnScreen s)

include h

theorem read (hi : Cell i) : OnScreen (s.read i).2 :=
  ⟨h.cursor, forall_mem_cons.mpr ⟨hi, h.touched⟩⟩

theorem write (hi : Cell i) {v : BitVec 16} : OnScreen (s.write i v) :=
  ⟨h.cursor, forall_mem_cons.mpr ⟨hi, h.touched⟩⟩

theorem place (hpos : Cell pos) : OnScreen (s.place pos) := by
  refine ⟨?_, h.touched⟩
  have hcursor : (s.place pos).getcursor = pos := by
    unfold Screen.place Screen.getcursor
    rw [BitVec.toNat_ofInt]
    omega
  rw [hcursor]
  exact hpos.2

theorem cell_cursor : Cell s.getcursor := ⟨getcursor_nonneg s, h.cursor⟩

theorem moveToTop {src n : Nat} (hn : src + n ≤ 25 * 80) : OnScreen (s.moveToTop src n) := by
  refine ⟨h.cursor, ?_⟩
  intro i hi
  simp only [Screen.moveToTop, mem_append, mem_map, mem_range] at hi
  rcases hi with (⟨k, hk, rfl⟩ | ⟨k, hk, rfl⟩) | hi
  · constructor <;> omega
  · constructor <;> omega
  · exact h.touched i hi

theorem clear (hpos : 0 ≤ pos) {n : Nat} (hn : pos + n ≤ 25 * 80) : OnScreen (s.clear pos n) := by
  refine ⟨h.cursor, ?_⟩
  intro i hi
  simp only [Screen.clear, mem_append, mem_map, mem_range] at hi
  rcases hi with ⟨k, hk, rfl⟩ | hi
  · constructor <;> omega
  · exact h.touched i hi

theorem cgaAdvance (hlo : 0 ≤ pos) (hhi : pos ≤ 25 * 80) :
    ∃ s', s.cgaAdvance pos = .ok () s' ∧ OnScreen s' := by
  unfold Screen.cgaAdvance
  rw [if_neg (by omega)]
  by_cases hscroll : pos / 80 ≥ 24
  · rw [if_pos hscroll]
    refine ⟨_, rfl, ?_⟩
    have hcell : Cell (pos - 80) := by constructor <;> omega
    apply write _ hcell
    apply place _ hcell
    exact (h.moveToTop (by omega)).clear hcell.1 (by omega)
  · rw [if_neg hscroll]
    have hcell : Cell pos := by constructor <;> omega
    exact ⟨_, rfl, (h.place hcell).write hcell⟩

theorem cgaputc (c : Int) : ∃ s', s.cgaputc c = .ok () s' ∧ OnScreen s' := by
  have hcell := h.cell_cursor
  unfold Screen.cgaputc
  simp only
  by_cases hnl : c = NEWLINE
  · rw [if_pos hnl]
    exact h.cgaAdvance (by omega) (by omega)
  rw [if_neg hnl]
  by_cases hbs : c = BACKSPACE
  · rw [if_pos hbs]
    split_ifs
    · exact h.cgaAdvance (by omega) (by omega)
    · exact h.cgaAdvance (by omega) (by omega)
  · rw [if_neg hbs]
    exact (h.write hcell).cgaAdvance (by omega) (by omega)

theorem setcursor (hpos : Cell pos) : OnScreen (s.setcursor pos).2 := by
  unfold Screen.setcursor
  simp only
  split_ifs
  · exact ((h.place hpos).read hpos).write hpos
  · exact ((h.place hpos).read hpos).write hpos

theorem scrAdvance (hpos : Cell pos) : OnScreen (s.scrAdvance pos) :=
  (h.place hpos).write hpos

theorem scrputc (hpos : Cell pos) (hnl : c = NEWLINE → pos < 24 * 80)
    (hchar : c ≠ NEWLINE → c ≠ BACKSPACE → pos + 1 < 25 * 80) : OnScreen (s.scrputc pos c) := by
  have hset := h.setcursor hpos
  unfold Screen.scrputc
  simp only
  by_cases hc : c = NEWLINE
  · rw [if_pos hc]
    have hlt := hnl hc
    rw [Int.tmod_eq_emod_of_nonneg hpos.1, wrap_eq (by omega) (by omega)]
    exact hset.scrAdvance (by constructor <;> omega)
  rw [if_neg hc]
  by_cases hb : c = BACKSPACE
  · rw [if_pos hb]
    split_ifs
    · exact hset.scrAdvance (by constructor <;> omega)
    · exact hset.scrAdvance hpos
  · rw [if_neg hb]
    have hlt := hchar hc hb
    rw [wrap_eq (by omega) (by omega)]
    exact (hset.write hpos).scrAdvance (by constructor <;> omega)

end

theorem pushLoop (n : Nat) (h : OnScreen s) (hn : n ≠ 0 → 0 ≤ i - n ∧ i < 25 * 80) :
    OnScreen (Screen.pushLoop n i s).2 ∧ (Screen.pushLoop n i s).1 = i - n := by
  induction n generalizing s i with
  | zero => exact ⟨h, by simp [Screen.pushLoop]⟩
  | succ n ih =>
    have hi := hn (Nat.succ_ne_zero n)
    push_cast at hi
    unfold Screen.pushLoop
    simp only
    have hread := h.read (i := i - 1) (by constructor <;> omega)
    have hwrite := hread.write (i := i) (v := (s.read (i - 1)).1) (by constructor <;> omega)
    obtain ⟨hall, heq⟩ := ih (i := i - 1) hwrite (by omega)
    refine ⟨hall, ?_⟩
    rw [heq]
    push_cast
    omega

theorem pushword (h : OnScreen s) {line : Int} (hpos : 0 ≤ pos) (hlo : 0 ≤ line)
    (hhi : line < 25) : OnScreen (s.pushword pos line).2 := by
  have hend : Screen.lineEnd line = (line + 1) * 80 - 1 := by
    unfold Screen.lineEnd
    simp only [MAX_COL]
    exact wrap_eq (by omega) (by omega)
  unfold Screen.pushword
  rw [hend]
  obtain ⟨hall, heq⟩ := h.pushLoop ((line + 1) * 80 - 1 - pos).toNat
    (i := (line + 1) * 80 - 1) (by omega)
  apply hall.read
  rw [heq]
  constructor <;> omega

theorem deleteLoop (n : Nat) (h : OnScreen s) (hn : n ≠ 0 → 0 ≤ i ∧ i + n < 25 * 80) :
    OnScreen (Screen.deleteLoop n i s) ∧
    (Screen.deleteLoop n i s).cursor = s.cursor := by
  induction n generalizing s i with
  | zero => exact ⟨h, rfl⟩
  | succ n ih =>
    have hi := hn (Nat.succ_ne_zero n)
    push_cast at hi
    unfold Screen.deleteLoop
    simp only
    have hread := h.read (i := i + 1) (by constructor <;> omega)
    have hwrite := hread.write (i := i) (v := (s.read (i + 1)).1) (by constructor <;> omega)
    exact ih (i := i + 1) hwrite (by omega)

theorem deletech (h : OnScreen s) {currentline linecount : BitVec 32}
    (hfits : Fits s (.deletech currentline linecount)) :
    OnScreen (s.deletech currentline.toInt linecount.toInt) := by
  obtain ⟨⟨hphi, hplo⟩, ⟨hehi, helo⟩, hloop⟩ := hfits
  have hp : s.deleteFrom currentline.toInt =
      s.getcursor % 80 + (currentline.toInt - 1) * 80 := wrap_eq hplo hphi
  have he : s.deleteTo currentline.toInt linecount.toInt =
      80 - s.deleteFrom currentline.toInt + 80 * linecount.toInt - 1 := by
    unfold Screen.deleteTo
    rw [hp]
    exact wrap_eq helo hehi
  unfold Screen.deletech
  simp only
  rw [he, hp]
  refine (h.deleteLoop _ ?_).1.setcursor h.cell_cursor
  omega

theorem isEmpty (h : OnScreen s) (hi : Cell i) : OnScreen (s.isEmpty i).2 := h.read hi

theorem curmove (h : OnScreen s) (move mode : Int) : OnScreen (s.curmove move mode) := by
  have hcell := h.cell_cursor
  unfold Screen.curmove
  simp only [MAX_CHAR, MAX_ROW, MAX_COL, CMD_LINE, CMD_BUF_SZ]
  by_cases hlf : move = KEY_LF
  · rw [if_pos hlf]
    by_cases hgo : if mode = V_CMD then s.getcursor > 24 * 80 else s.getcursor > 0
    · rw [if_pos hgo]
      have hpos : s.getcursor > 0 := by
        split_ifs at hgo
        · omega
        · exact hgo
      exact h.setcursor (by constructor <;> omega)
    · rw [if_neg hgo]
      exact h
  rw [if_neg hlf]
  by_cases hrt : move = KEY_RT
  · rw [if_pos hrt]
    by_cases hmode : mode = V_CMD
    · rw [if_pos hmode]
      by_cases hlt : s.getcursor < 24 * 80 + 40
      · rw [if_pos hlt]
        have hnext : Cell (s.getcursor + 1) := by constructor <;> omega
        split_ifs
        · exact h.isEmpty hnext
        · exact (h.isEmpty hnext).setcursor hnext
      · rw [if_neg hlt]
        exact h
    rw [if_neg hmode]
    by_cases hlt : s.getcursor < 24 * 80
    · rw [if_pos hlt]
      have hnext : Cell (s.getcursor + 1) := by constructor <;> omega
      have hread := h.isEmpty hnext
      have hboth := hread.isEmpty hcell
      split_ifs
      · exact hboth
      · exact hboth.setcursor hnext
      · exact hread
      · exact hread.setcursor hnext
    · rw [if_neg hlt]
      exact h
  rw [if_neg hrt]
  by_cases hdn : move = KEY_DN
  · rw [if_pos hdn]
    split_ifs with hrow hempty
    · exact h.isEmpty (by constructor <;> omega)
    · exact (h.isEmpty (by constructor <;> omega)).setcursor (by constructor <;> omega)
    · exact h
  rw [if_neg hdn]
  by_cases hup : move = KEY_UP
  · rw [if_pos hup]
    split_ifs with hrow hne hempty
    · exact (h.isEmpty (by constructor <;> omega)).setcursor (by decide)
    · exact (h.isEmpty (by constructor <;> omega)).setcursor (by decide)
    · exact h.setcursor (by decide)
    · exact h
  · rw [if_neg hup]
    exact h

/-- A call whose arguments fit stays on the screen and does not panic. -/
theorem step {a : Call} (h : OnScreen s) (hfits : Fits s a) :
    ∃ s', Console.step s a = .ok () s' ∧ OnScreen s' := by
  cases a with
  | setcursor pos => exact ⟨_, rfl, h.setcursor hfits⟩
  | scrputc pos c => exact ⟨_, rfl, h.scrputc hfits.1 hfits.2.1 hfits.2.2⟩
  | putchar pos c => exact ⟨_, rfl, h.write hfits⟩
  | getcch pos => exact ⟨_, rfl, h.read hfits⟩
  | pushword pos line => exact ⟨_, rfl, h.pushword hfits.1 hfits.2.1 hfits.2.2⟩
  | deletech currentline linecount => exact ⟨_, rfl, h.deletech hfits⟩
  | curmove move mode => exact ⟨_, rfl, h.curmove _ _⟩
  | cgaputc c => exact h.cgaputc _

theorem run {crt : Int → BitVec 16} {cursor : BitVec 16} {tr : List (Screen × Call)}
    (hcursor : cursor.toNat < 25 * 80) (htr : Trace Console.step (boot crt cursor) tr s)
    (hfits : ∀ x ∈ tr, Fits x.1 x.2) : OnScreen s := by
  induction htr with
  | nil =>
    refine ⟨?_, by simp [boot]⟩
    change (cursor.toNat : Int) < 25 * 80
    omega
  | cons htr hstep ih =>
    have hold := ih fun x hx => hfits x (mem_cons_of_mem _ hx)
    obtain ⟨s', hs', hnew⟩ := hold.step (hfits _ mem_cons_self)
    rw [hs'] at hstep
    cases hstep
    exact hnew

end OnScreen

/-- In every run of calls whose arguments fit, mixed with any output and any moves of the
cursor, only elements of the screen are used and no output panics. -/
theorem console_stays_on_screen {crt : Int → BitVec 16} {cursor : BitVec 16}
    {tr : List (Screen × Call)} (hcursor : cursor.toNat < 25 * 80)
    (htr : Trace step (boot crt cursor) tr s) (hfits : ∀ x ∈ tr, Fits x.1 x.2) :
    (∀ i ∈ s.touched, 0 ≤ i ∧ i < 25 * 80) ∧ ∀ c msg, step s (.cgaputc c) ≠ .panic msg := by
  have h := OnScreen.run hcursor htr hfits
  refine ⟨h.touched, ?_⟩
  intro c msg hpanic
  obtain ⟨s', hs', -⟩ := h.cgaputc c.toInt
  change s.cgaputc c.toInt = _ at hpanic
  rw [hs'] at hpanic
  cases hpanic

/-- A character in the last column of the first line, then a newline. -/
theorem console_stays_on_screen_newline : ∃ tr s,
    Trace step (boot (fun _ => 0) 0) tr s ∧ 80 ∈ s.touched ∧
    (∀ i ∈ s.touched, 0 ≤ i ∧ i < 25 * 80) := by
  obtain ⟨tr, s, htr, hok, hend⟩ := Trace.of_play step (fun s a => decide (Fits s a))
    (boot (fun _ => 0) 0) [.scrputc 79 65, .cgaputc 10] (fun s => decide (80 ∈ s.touched))
    (by decide)
  refine ⟨tr, s, htr, by simpa using hend, ?_⟩
  exact (console_stays_on_screen (by decide) htr fun x hx => by simpa using hok x hx).1

/-- One call reads behind the screen; another puts the cursor there, and the next
character of output panics. -/
theorem console_leaves_screen :
    (∃ tr s, Trace step (boot (fun _ => 0) 0) tr s ∧ tr.map Prod.snd = [.getcch 2000] ∧
      2000 ∈ s.touched) ∧
    (∃ tr s, Trace step (boot (fun _ => 0) 0) tr s ∧ tr.map Prod.snd = [.setcursor 5000] ∧
      step s (.cgaputc 65) = .panic "pos under/overflow") := by
  refine ⟨⟨_, _, .cons .nil rfl, rfl, ?_⟩, ⟨_, _, .cons .nil rfl, rfl, ?_⟩⟩
  · decide
  · rfl

end Xv6.Console
