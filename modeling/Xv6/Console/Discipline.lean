import Xv6.Console.Input
import Xv6.Lib.Ring

/-!
# The discipline of the console's input

What the buffer holds against what a user remembers: between `r` and `w` the committed
characters that nobody has taken, between `w` and `e` the line under the keys typed since
the last commit.  One lemma for each operation on the buffer, then the calls.
-/

namespace Xv6.Console

open Lib Function List

namespace Input

/-- The characters that `consoleread` may take. -/
def unread (inp : Input) : List Byte := ringContents INPUT_BUF inp.buf inp.r inp.w

def line (inp : Input) : List Byte := ringContents INPUT_BUF inp.buf inp.w inp.e

/-- `(w - r) <= (e - r) <= INPUT_BUF` -/
structure Window (inp : Input) : Prop where
  ordered : (inp.w - inp.r).toNat ≤ (inp.e - inp.r).toNat
  room : (inp.e - inp.r).toNat ≤ INPUT_BUF

theorem inputBuf_eq : INPUT_BUF = 128 := rfl

theorem inputBuf_dvd : INPUT_BUF ∣ 2 ^ 32 := ⟨2 ^ 25, rfl⟩

variable {inp : Input} {c : Byte}

variable (h : inp.Window)

include h

theorem Window.add : (inp.w - inp.r).toNat + (inp.e - inp.w).toNat = (inp.e - inp.r).toNat :=
  ring_sub_add_sub h.ordered

theorem Window.all : ringContents INPUT_BUF inp.buf inp.r inp.e = inp.unread ++ inp.line :=
  ringContents_split inputBuf_dvd h.ordered

theorem line_store (hroom : (inp.e - inp.r).toNat < INPUT_BUF) (c : Byte) :
    (inp.store c).line = inp.line ++ [c] := by
  have hadd := h.add
  have hbuf := inputBuf_eq
  have hroom' : (inp.e - inp.w).toNat < INPUT_BUF := by omega
  exact ringContents_push inputBuf_dvd hroom' (by omega) c

theorem store_window (hroom : (inp.e - inp.r).toNat < INPUT_BUF) (c : Byte) :
    (inp.store c).Window := by
  have hbuf := inputBuf_eq
  have hsucc : (inp.e + 1 - inp.r).toNat = (inp.e - inp.r).toNat + 1 := ring_succ_sub (by omega)
  have hordered := h.ordered
  constructor
  · change (inp.w - inp.r).toNat ≤ (inp.e + 1 - inp.r).toNat
    omega
  · change (inp.e + 1 - inp.r).toNat ≤ INPUT_BUF
    omega

theorem unread_store (hroom : (inp.e - inp.r).toNat < INPUT_BUF) (c : Byte) :
    (inp.store c).unread = inp.unread := by
  have hbuf := inputBuf_eq
  have hall := (store_window h hroom c).all
  have hpush : ringContents INPUT_BUF (inp.store c).buf inp.r (inp.e + 1) =
      ringContents INPUT_BUF inp.buf inp.r inp.e ++ [c] :=
    ringContents_push inputBuf_dvd hroom (by omega) c
  have heq : (inp.store c).unread ++ (inp.store c).line = inp.unread ++ (inp.line ++ [c]) := by
    rw [← append_assoc, ← h.all, ← hpush]
    exact hall.symm
  refine (append_inj heq ?_).1
  exact ringContents_length.trans ringContents_length.symm

theorem commit_spec : ({ inp with w := inp.e } : Input).unread = inp.unread ++ inp.line ∧
      ({ inp with w := inp.e } : Input).line = [] ∧ ({ inp with w := inp.e } : Input).Window :=
  ⟨h.all, ringContents_empty rfl, ⟨le_refl _, h.room⟩⟩

theorem unpush_spec (hne : inp.e ≠ inp.w) : ({ inp with e := inp.e - 1 } : Input).Window ∧
      inp.line = ({ inp with e := inp.e - 1 } : Input).line ++ [inp.latest] := by
  have hpred : (inp.e - 1 - inp.w).toNat + 1 = (inp.e - inp.w).toNat := ring_pred_sub hne.symm
  have hadd := h.add
  have hordered := h.ordered
  have hroom := h.room
  have hre : inp.r ≠ inp.e := by
    intro heq
    rw [heq, sub_self] at hadd
    have hzero : (0 : BitVec 32).toNat = 0 := rfl
    omega
  have hpred' : (inp.e - 1 - inp.r).toNat + 1 = (inp.e - inp.r).toNat := ring_pred_sub hre
  refine ⟨⟨?_, ?_⟩, ringContents_unpush inputBuf_dvd hne.symm⟩
  · change (inp.w - inp.r).toNat ≤ (inp.e - 1 - inp.r).toNat
    omega
  · change (inp.e - 1 - inp.r).toNat ≤ INPUT_BUF
    omega

theorem killLoop_eq (hplain : LF ∉ inp.line) (n : Nat)
    (hn : (inp.e - inp.w).toNat = n) : killLoop n inp = { inp with e := inp.w } := by
  induction n generalizing inp with
  | zero =>
    have hzero : inp.e - inp.w = 0 := BitVec.eq_of_toNat_eq (by simpa using hn)
    have he : inp.e = inp.w := sub_eq_zero.mp hzero
    cases inp
    cases he
    rfl
  | succ n ih =>
    have hne : inp.e ≠ inp.w := by
      intro heq
      rw [heq, sub_self] at hn
      cases hn
    obtain ⟨hwindow, hline⟩ := unpush_spec h hne
    have hpred : (inp.e - 1 - inp.w).toNat + 1 = (inp.e - inp.w).toNat := ring_pred_sub hne.symm
    have hlatest : inp.latest ≠ LF := by
      intro heq
      apply hplain
      rw [hline, heq]
      simp
    have hplain' : LF ∉ ({ inp with e := inp.e - 1 } : Input).line := by
      intro hmem
      apply hplain
      rw [hline]
      exact mem_append_left _ hmem
    rw [killLoop, if_pos ⟨hne, hlatest⟩]
    exact ih hwindow hplain' (by change (inp.e - 1 - inp.w).toNat = n; omega)

end Input

structure Agrees (inp : Input) (m : Memory) : Prop where
  window : inp.Window
  unread : m.committed = m.taken.map Prod.snd ++ inp.unread
  line : inp.line = edited m.typed
  plain : LF ∉ inp.line

theorem edited_concat (keys : List Byte) (c : Byte) :
    edited (keys ++ [c]) = edit (edited keys) c := by
  simp [edited]

theorem caseOf_translate {c : Byte} (h : caseOf c = .other) :
    caseOf (Input.translate c) = .other := by
  unfold Input.translate
  split
  · decide
  · exact h

variable {inp : Input} {m : Memory} {c : Byte} {buffering : Int}

theorem Agrees.kill (h : Agrees inp m) (hc : caseOf c = .kill) (hb : buffering ≠ 0) :
    Agrees (inp.killLine buffering) (m.key c false) := by
  have hkill : inp.killLine buffering = { inp with e := inp.w } := by
    rw [Input.killLine, if_pos hb]
    exact Input.killLoop_eq h.window h.plain _ rfl
  have hempty : ({ inp with e := inp.w } : Input).line = [] := ringContents_empty rfl
  have hroom := h.window.room
  have hordered := h.window.ordered
  rw [hkill]
  constructor
  case window => exact ⟨le_refl _, hordered.trans hroom⟩
  case unread => exact h.unread
  case line =>
    change _ = edited (m.typed ++ [c])
    rw [edited_concat, edit, hc]
    exact hempty
  case plain => simp [hempty]

theorem Agrees.erase (h : Agrees inp m) (hc : caseOf c = .erase) (hb : buffering ≠ 0) :
    Agrees (inp.erase buffering) (m.key c false) := by
  have hedit : edited (m.typed ++ [c]) = inp.line.dropLast := by
    rw [edited_concat, edit, hc, ← h.line]
  by_cases hne : inp.e ≠ inp.w
  · obtain ⟨hwindow, hline⟩ := Input.unpush_spec h.window hne
    rw [Input.erase, if_pos ⟨hb, hne⟩]
    constructor
    case window => exact hwindow
    case unread => exact h.unread
    case line =>
      change _ = edited (m.typed ++ [c])
      rw [hedit, hline, dropLast_concat]
    case plain =>
      intro hmem
      apply h.plain
      rw [hline]
      exact mem_append_left _ hmem
  · have hempty : inp.line = [] := ringContents_empty (not_not.mp hne).symm
    rw [Input.erase, if_neg (fun hand => hne hand.2)]
    constructor
    case window => exact h.window
    case unread => exact h.unread
    case line =>
      change _ = edited (m.typed ++ [c])
      rw [hedit, hempty]
      rfl
    case plain => exact h.plain

theorem Agrees.typeChar (h : Agrees inp m) (hc : caseOf c = .other) (haccepts : inp.Accepts c) :
    Agrees (inp.typeChar buffering c) (m.key (Input.translate c)
      (decide ((inp.store (Input.translate c)).Commits buffering (Input.translate c)))) := by
  have hline := Input.line_store h.window haccepts.2 (Input.translate c)
  have hunread := Input.unread_store h.window haccepts.2 (Input.translate c)
  have hwindow := Input.store_window h.window haccepts.2 (Input.translate c)
  have hedit : edited (m.typed ++ [Input.translate c]) = inp.line ++ [Input.translate c] := by
    rw [edited_concat, edit, caseOf_translate hc, ← h.line]
  rw [Input.typeChar, if_pos haccepts]
  by_cases hcommits : (inp.store (Input.translate c)).Commits buffering (Input.translate c)
  · obtain ⟨hunread', hline', hwindow'⟩ := Input.commit_spec hwindow
    simp only [if_pos hcommits, decide_eq_true hcommits]
    constructor
    case window => exact hwindow'
    case unread =>
      change m.committed ++ edited (m.typed ++ [Input.translate c]) = m.taken.map Prod.snd ++ _
      rw [hunread', hunread, hline, h.unread, hedit, append_assoc]
    case line => exact hline'
    case plain => simp [hline']
  · simp only [if_neg hcommits, decide_eq_false hcommits]
    constructor
    case window => exact hwindow
    case unread =>
      change m.committed = m.taken.map Prod.snd ++ _
      rw [hunread]
      exact h.unread
    case line =>
      change _ = edited (m.typed ++ [Input.translate c])
      rw [hedit, hline]
    case plain =>
      rw [hline]
      intro hmem
      rcases mem_append.mp hmem with hmem | hmem
      · exact h.plain hmem
      · have hlf : Input.translate c = LF := (mem_singleton.mp hmem).symm
        exact hcommits (Or.inr (Or.inl hlf))

theorem Agrees.handle (h : Agrees inp m) (buffering : Int) (c : Byte) :
    Agrees (inp.handle buffering c) (m.handle buffering inp c) := by
  unfold Input.handle Memory.handle
  cases hc : caseOf c with
  | procdump => exact h
  | kill =>
    by_cases hb : buffering ≠ 0
    · simp only [if_pos hb]
      exact h.kill hc hb
    · simp only [if_neg hb, Input.killLine]
      exact h
  | erase =>
    by_cases hb : buffering ≠ 0
    · simp only [if_pos hb]
      exact h.erase hc hb
    · simp only [Input.erase, hb, false_and, if_false]
      exact h
  | other =>
    by_cases haccepts : inp.Accepts c
    · simp only [if_pos haccepts]
      exact h.typeChar hc haccepts
    · simp only [if_neg haccepts, Input.typeChar]
      exact h

/-- What the call `k` has taken, in order. -/
def Memory.takes (m : Memory) (k : Nat) : List Byte :=
  (m.taken.filter fun x => x.1 = k).map Prod.snd

def ReadOk (taken : List Byte) : Option Read → Prop
  | none => taken = []
  | some rd =>
    match rd.point with
    | .returned value =>
      (taken = rd.dst ∧ ctrlD ∉ rd.dst ∧ value ≠ 0) ∨ (taken = [ctrlD] ∧ rd.dst = [] ∧ value = 0)
    | _ => taken = rd.dst ∧ ctrlD ∉ rd.dst ∧ rd.n + rd.dst.length = rd.target ∧ 0 < rd.target

structure Inv (s : Tty) : Prop where
  agrees : Agrees s.input s.memory
  reads : ∀ k, ReadOk (s.memory.takes k) (s.reads k)

theorem takes_concat (taken : List (Nat × Byte)) (typed committed : List Byte) (k j : Nat)
    (c : Byte) : (⟨typed, committed, taken ++ [(k, c)]⟩ : Memory).takes j =
      (⟨typed, committed, taken⟩ : Memory).takes j ++ if j = k then [c] else [] := by
  unfold Memory.takes
  rw [filter_append, map_append]
  by_cases hjk : j = k
  · simp [hjk]
  · simp [hjk, Ne.symm hjk]

theorem Memory.takes_handle (m : Memory) (buffering : Int) (inp : Input) (c : Byte) (k : Nat) :
    (m.handle buffering inp c).takes k = m.takes k := by
  have hkey : ∀ c commits, (m.key c commits).takes k = m.takes k := by
    intro c commits
    cases commits <;> rfl
  unfold Memory.handle
  cases caseOf c with
  | procdump => rfl
  | kill | erase =>
    dsimp only
    split
    · exact hkey c false
    · rfl
  | other =>
    dsimp only
    split
    · exact hkey _ _
    · rfl

theorem Agrees.take {s : Tty} (h : Agrees s.input s.memory) (hne : s.input.r ≠ s.input.w)
    (k : Nat) : Agrees (s.take k).input (s.take k).memory := by
  have hpop : s.input.unread = s.input.front :: (s.take k).input.unread :=
    ringContents_pop Input.inputBuf_dvd hne
  have hadd := h.window.add
  have hordered := h.window.ordered
  have hroom := h.window.room
  have hsub : (s.input.w - (s.input.r + 1)).toNat + 1 = (s.input.w - s.input.r).toNat :=
    ring_sub_succ hne
  have hre : s.input.r ≠ s.input.e := by
    intro heq
    rw [heq, sub_self] at hordered
    rw [heq] at hsub
    have hzero : (0 : BitVec 32).toNat = 0 := rfl
    omega
  have hsub' : (s.input.e - (s.input.r + 1)).toNat + 1 = (s.input.e - s.input.r).toNat :=
    ring_sub_succ hre
  constructor
  case window =>
    constructor
    · change (s.input.w - (s.input.r + 1)).toNat ≤ (s.input.e - (s.input.r + 1)).toNat
      omega
    · change (s.input.e - (s.input.r + 1)).toNat ≤ INPUT_BUF
      omega
  case unread =>
    change s.memory.committed = (s.memory.taken ++ [(k, s.input.front)]).map Prod.snd ++ _
    rw [h.unread, hpop]
    simp
  case line => exact h.line
  case plain => exact h.plain

variable {s s' : Tty}

theorem Inv.update (h : Inv s) {k : Nat} {rd' : Read} {taken : List Byte}
    (hagrees : Agrees s'.input s'.memory) (hreads : s'.reads = update s.reads k (some rd'))
    (htakes : ∀ j, s'.memory.takes j = s.memory.takes j ++ if j = k then taken else [])
    (hok : ReadOk (s.memory.takes k ++ taken) (some rd')) : Inv s' := by
  refine ⟨hagrees, fun j => ?_⟩
  rw [htakes, hreads]
  by_cases hjk : j = k
  · subst hjk
    rw [update_self, if_pos rfl]
    exact hok
  · rw [update_of_ne hjk, if_neg hjk, append_nil]
    exact h.reads j

theorem takes_take (s : Tty) (k j : Nat) :
    (s.take k).memory.takes j = s.memory.takes j ++ if j = k then [s.input.front] else [] :=
  takes_concat s.memory.taken s.memory.typed s.memory.committed k j s.input.front

theorem takes_same (s : Tty) (k j : Nat) :
    s.memory.takes j = s.memory.takes j ++ if j = k then [] else [] := by
  simp

theorem Inv.round (h : Inv s) {k : Nat} {rd : Read} (hrd : s.reads k = some rd)
    (hpoint : rd.point = .loop) (killed : Bool) : Inv (s.round k rd killed) := by
  have hok := h.reads k
  rw [hrd, ReadOk, hpoint] at hok
  obtain ⟨htaken, hnoeof, hsum, hpos⟩ := hok
  unfold Tty.round
  by_cases hn : rd.n = 0
  · rw [if_pos hn]
    refine h.update h.agrees rfl (takes_same s k) (Or.inl ⟨?_, hnoeof, ?_⟩)
    · rw [append_nil]
      exact htaken
    · omega
  rw [if_neg hn]
  by_cases hempty : s.input.r = s.input.w
  · rw [if_pos hempty]
    cases killed
    · -- `sleep`
      refine h.update h.agrees rfl (takes_same s k) ⟨?_, hnoeof, hsum, hpos⟩
      rw [append_nil]
      exact htaken
    · refine h.update h.agrees rfl (takes_same s k) (Or.inl ⟨?_, hnoeof, by decide⟩)
      rw [append_nil]
      exact htaken
  rw [if_neg hempty]
  have hagrees := h.agrees.take hempty k
  dsimp only
  by_cases heof : s.input.front = ctrlD
  · rw [if_pos heof]
    by_cases hpart : rd.n < rd.target
    · rw [if_pos hpart]
      refine h.update h.agrees rfl (takes_same s k) (Or.inl ⟨?_, hnoeof, ?_⟩)
      · rw [append_nil]
        exact htaken
      · omega
    · rw [if_neg hpart]
      have hdst : rd.dst = [] := length_eq_zero_iff.mp (by omega)
      refine h.update hagrees rfl (takes_take s k) (Or.inr ⟨?_, hdst, ?_⟩)
      · rw [htaken, hdst, heof]
        rfl
      · omega
  · rw [if_neg heof]
    have hdelivered : s.memory.takes k ++ [s.input.front] = (Tty.deliver rd s.input.front).dst := by
      rw [htaken]
      rfl
    have hnoeof' : ctrlD ∉ (Tty.deliver rd s.input.front).dst := by
      intro hmem
      rcases mem_append.mp hmem with hmem | hmem
      · exact hnoeof hmem
      · exact heof (mem_singleton.mp hmem).symm
    split
    · refine h.update hagrees rfl (takes_take s k) (Or.inl ⟨hdelivered, hnoeof', ?_⟩)
      simp only [Tty.deliver]
      omega
    · refine h.update hagrees rfl (takes_take s k) ?_
      rw [ReadOk]
      simp only [Tty.deliver, hpoint]
      refine ⟨hdelivered, hnoeof', ?_, hpos⟩
      rw [length_append, length_singleton]
      omega

theorem Inv.step (h : Inv s) {a : Action} (hstep : stepInput s a = .ok () s') : Inv s' := by
  cases a with
  | setconsbuf isbuf =>
    cases hstep
    exact ⟨h.agrees, h.reads⟩
  | intr | endIntr =>
    rw [stepInput] at hstep
    split at hstep
    · cases hstep
      exact ⟨h.agrees, h.reads⟩
    · cases hstep
  | getc c =>
    rw [stepInput] at hstep
    split at hstep
    · cases hstep
      refine ⟨h.agrees.handle _ c, fun k => ?_⟩
      dsimp only
      rw [Memory.takes_handle]
      exact h.reads k
    · cases hstep
  | read k n =>
    rw [stepInput] at hstep
    split at hstep
    · rename_i hnone
      split at hstep
      · rename_i hpos
        cases hstep
        have hok := h.reads k
        rw [hnone] at hok
        refine h.update h.agrees rfl (takes_same s k) ⟨?_, by simp, by simp, hpos⟩
        rw [append_nil]
        exact hok
      · cases hstep
    · cases hstep
  | acquire k =>
    rw [stepInput] at hstep
    split at hstep
    · rename_i rd hrd
      split at hstep
      · rename_i hcond
        cases hstep
        have hok := h.reads k
        rw [hrd, ReadOk, hcond.1] at hok
        refine h.update h.agrees rfl (takes_same s k) ?_
        rw [append_nil]
        exact hok
      · cases hstep
    · cases hstep
  | round k killed =>
    rw [stepInput] at hstep
    split at hstep
    · rename_i rd hrd
      split at hstep
      · rename_i hcond
        cases hstep
        exact h.round hrd hcond.1 killed
      · cases hstep
    · cases hstep

theorem inv_boot : Inv bootTty := by
  refine ⟨⟨⟨le_refl _, Nat.zero_le _⟩, rfl, rfl, ?_⟩, fun _ => rfl⟩
  exact not_mem_nil

theorem Inv.of_trace {tr : List (Tty × Action)} (htr : Trace stepInput bootTty tr s) : Inv s :=
  Trace.invariant (I := fun _ s => Inv s) inv_boot
    (fun _ _ _ _ _ hs hstep => hs.step hstep) htr

structure Disciplined (s : Tty) : Prop where
  window : s.input.Window
  /-- the committed characters are taken once each and in order, up to those still in `buf` -/
  in_order : s.memory.committed = s.memory.taken.map Prod.snd ++ s.input.unread
  line : s.input.line = edited s.memory.typed
  data : ∀ k rd, s.reads k = some rd → ctrlD ∉ s.memory.takes k → rd.dst = s.memory.takes k
  /-- a Control-D is the only character its call takes, and the call returns 0 -/
  eof : ∀ k, ctrlD ∈ s.memory.takes k → s.memory.takes k = [ctrlD] ∧
    ∃ rd, s.reads k = some rd ∧ rd.point = .returned 0
  zero : ∀ k rd, s.reads k = some rd → rd.point = .returned 0 → s.memory.takes k = [ctrlD]

/-- What handling the character `c` does to the buffer. -/
structure KeyOk (s s' : Tty) (c : Byte) : Prop where
  /-- the keys with a case of their own remove only uncommitted characters -/
  erases : caseOf c ≠ .other → s'.input.r = s.input.r ∧ s'.input.w = s.input.w ∧
    s'.input.unread = s.input.unread ∧ s'.input.line <+: s.input.line
  stores : caseOf c = .other →
    (c = 0 ∨ (s.input.e - s.input.r).toNat = INPUT_BUF) ∧ s'.input = s.input ∨
      s'.input.e = s.input.e + 1 ∧ s'.input.latest = Input.translate c
  commits : s'.input.w ≠ s.input.w →
    ringContents INPUT_BUF s'.input.buf s.input.w s'.input.w =
      edited (s.memory.typed ++ [Input.translate c])

theorem Inv.disciplined (h : Inv s) : Disciplined s := by
  constructor
  case window => exact h.agrees.window
  case in_order => exact h.agrees.unread
  case line => exact h.agrees.line
  case data =>
    intro k rd hrd hno
    have hok := h.reads k
    rw [hrd, ReadOk] at hok
    split at hok
    · rcases hok with ⟨htaken, -, -⟩ | ⟨htaken, -, -⟩
      · exact htaken.symm
      · rw [htaken] at hno
        simp at hno
    · exact hok.1.symm
  case eof =>
    intro k hmem
    have hok := h.reads k
    cases hrd : s.reads k with
    | none =>
      rw [hrd, ReadOk] at hok
      rw [hok] at hmem
      cases hmem
    | some rd =>
      rw [hrd, ReadOk] at hok
      split at hok
      · rename_i value hpoint
        rcases hok with ⟨htaken, hno, -⟩ | ⟨htaken, -, hvalue⟩
        · rw [htaken] at hmem
          exact absurd hmem hno
        · subst hvalue
          exact ⟨htaken, rd, rfl, hpoint⟩
      · rw [hok.1] at hmem
        exact absurd hmem hok.2.1
  case zero =>
    intro k rd hrd hpoint
    have hok := h.reads k
    rw [hrd, ReadOk, hpoint] at hok
    rcases hok with ⟨-, -, hvalue⟩ | ⟨htaken, -, -⟩
    · exact absurd rfl hvalue
    · exact htaken

theorem killLine_prefix (h : Agrees inp m) (buffering : Int) :
    (inp.killLine buffering).r = inp.r ∧ (inp.killLine buffering).w = inp.w ∧
      (inp.killLine buffering).unread = inp.unread ∧
      (inp.killLine buffering).line <+: inp.line := by
  unfold Input.killLine
  split
  · rw [Input.killLoop_eq h.window h.plain _ rfl]
    have hempty : ({ inp with e := inp.w } : Input).line = [] := ringContents_empty rfl
    exact ⟨rfl, rfl, rfl, hempty ▸ nil_prefix⟩
  · exact ⟨rfl, rfl, rfl, prefix_refl _⟩

theorem erase_prefix (h : Agrees inp m) (buffering : Int) :
    (inp.erase buffering).r = inp.r ∧ (inp.erase buffering).w = inp.w ∧
      (inp.erase buffering).unread = inp.unread ∧ (inp.erase buffering).line <+: inp.line := by
  unfold Input.erase
  split
  · rename_i hcond
    obtain ⟨-, hline⟩ := Input.unpush_spec h.window hcond.2
    exact ⟨rfl, rfl, rfl, [inp.latest], hline.symm⟩
  · exact ⟨rfl, rfl, rfl, prefix_refl _⟩

theorem own_case_prefix (h : Agrees inp m) (buffering : Int) (hc : caseOf c ≠ .other) :
    (inp.handle buffering c).r = inp.r ∧ (inp.handle buffering c).w = inp.w ∧
      (inp.handle buffering c).unread = inp.unread ∧
      (inp.handle buffering c).line <+: inp.line := by
  unfold Input.handle
  split
  · exact ⟨rfl, rfl, rfl, prefix_refl _⟩
  · exact killLine_prefix h buffering
  · exact erase_prefix h buffering
  · contradiction

theorem latest_store (inp : Input) (c : Byte) : (inp.store c).latest = c := by
  have he : inp.e + 1 - 1 = inp.e := by ring
  change update inp.buf (inp.e.toNat % INPUT_BUF) c
    ((inp.e + 1 - 1).toNat % INPUT_BUF) = c
  rw [he, update_self]

theorem typeChar_stores (h : Agrees inp m) (buffering : Int) (c : Byte) :
    (c = 0 ∨ (inp.e - inp.r).toNat = INPUT_BUF) ∧ inp.typeChar buffering c = inp ∨
      (inp.typeChar buffering c).e = inp.e + 1 ∧
        (inp.typeChar buffering c).latest = Input.translate c := by
  have hroom := h.window.room
  unfold Input.typeChar
  by_cases haccepts : inp.Accepts c
  · right
    rw [if_pos haccepts]
    dsimp only
    split
    · exact ⟨rfl, latest_store inp _⟩
    · exact ⟨rfl, latest_store inp _⟩
  · left
    rw [if_neg haccepts]
    refine ⟨?_, rfl⟩
    by_cases hzero : c = 0
    · exact Or.inl hzero
    · right
      by_contra hfull
      exact haccepts ⟨hzero, by omega⟩

theorem typeChar_commits (h : Agrees inp m) (hc : caseOf c = .other)
    (hw : (inp.typeChar buffering c).w ≠ inp.w) :
    ringContents INPUT_BUF (inp.typeChar buffering c).buf inp.w (inp.typeChar buffering c).w =
      edited (m.typed ++ [Input.translate c]) := by
  unfold Input.typeChar at hw ⊢
  by_cases haccepts : inp.Accepts c
  · rw [if_pos haccepts] at hw ⊢
    have hline := Input.line_store h.window haccepts.2 (Input.translate c)
    by_cases hcommits : (inp.store (Input.translate c)).Commits buffering (Input.translate c)
    · simp only [if_pos hcommits]
      rw [edited_concat, edit, caseOf_translate hc, ← h.line]
      exact hline
    · simp only [if_neg hcommits] at hw
      exact absurd rfl hw
  · rw [if_neg haccepts] at hw
    exact absurd rfl hw

theorem Inv.keyOk (h : Inv s) (hstep : stepInput s (.getc c) = .ok () s') : KeyOk s s' c := by
  rw [stepInput] at hstep
  split at hstep
  case isFalse => cases hstep
  cases hstep
  by_cases hc : caseOf c = .other
  · have hhandle : s.input.handle s.buffering c = s.input.typeChar s.buffering c := by
      rw [Input.handle, hc]
    refine ⟨fun hown => absurd hc hown, fun _ => ?_, ?_⟩
    · dsimp only
      rw [hhandle]
      exact typeChar_stores h.agrees s.buffering c
    · dsimp only
      rw [hhandle]
      exact typeChar_commits h.agrees hc
  · have hown := own_case_prefix h.agrees s.buffering hc
    exact ⟨fun _ => hown, fun hother => absurd hother hc, fun hw => absurd hown.2.1 hw⟩

/-- In every state of every run the indices are ordered, the committed characters are
taken once each and in order, a Control-D by one call that returns 0, and the next
character does what it should. -/
theorem console_input_discipline {tr : List (Tty × Action)} (htr : Trace stepInput bootTty tr s) :
    Disciplined s ∧ ∀ c s', stepInput s (.getc c) = .ok () s' → KeyOk s s' c := by
  have h := Inv.of_trace htr
  exact ⟨h.disciplined, fun _ _ hstep => h.keyOk hstep⟩

def shortSession : List Action :=
  [.read 0 4, .acquire 0, .round 0 false, .intr, .getc 97, .getc ctrlH, .getc 98, .getc CR,
    .getc ctrlD, .endIntr, .acquire 0, .round 0 false, .round 0 false, .read 1 4, .acquire 1,
    .round 1 false]

theorem console_input_discipline_session : ∃ tr s, Trace stepInput bootTty tr s ∧
    s.memory.taken = [(0, 98), (0, LF), (1, ctrlD)] ∧ Disciplined s ∧
    ∀ c s', stepInput s (.getc c) = .ok () s' → KeyOk s s' c := by
  obtain ⟨tr, s, htr, -, hgood⟩ := Trace.of_actions stepInput bootTty shortSession
    (fun s => decide (s.memory.taken = [(0, 98), (0, LF), (1, ctrlD)])) (by decide +kernel)
  exact ⟨tr, s, htr, of_decide_eq_true hgood, console_input_discipline htr⟩

end Xv6.Console
