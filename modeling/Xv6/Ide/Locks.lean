import Xv6.Ide.Driver

/-!
# Locks and sleepers of the disk driver

Who holds `idelock` and `ptable.lock` at which point of the driver, that each request is made
with a buffer its process has locked, and that no wakeup of a request is lost.
-/

namespace Xv6.Ide

open Lib Monitor

variable {P B : Type} [DecidableEq P] [DecidableEq B]

def critical : Pc B → Bool
  | .rw _ _ .append | .rw _ _ (.walk _) | .rw _ _ .start | .rw _ _ .test | .rw _ _ .sleepTable
  | .rw _ _ .sleepRelease | .rw _ _ .release => true
  | .intr .take | .intr (.wakeTable _) | .intr (.wakeup1 _) | .intr .wakeRelease | .intr .start
  | .intr .release => true
  | _ => false

def tabled : Pc B → Bool
  | .rw _ _ .sleepRelease | .rw _ _ .sched | .rw _ _ .tidy => true
  | .intr (.wakeup1 _) | .intr .wakeRelease => true
  | _ => false

def committed : Pc B → Option B
  | .rw b _ .sleepTable | .rw b _ .sleepRelease | .rw b _ .sched => some b
  | _ => none

omit [DecidableEq B] in
theorem committed_held (l : Pc B) (c : B) (h : committed l = some c) :
    critical l = true ∨ tabled l = true := by
  revert h
  unfold committed
  split
  · exact fun _ => .inl rfl
  · exact fun _ => .inl rfl
  · exact fun _ => .inr rfl
  · exact fun h => nomatch h

def roles : Roles (Pc B) B := ⟨critical, tabled, committed, committed_held⟩

def Blocked (b : B) (d : Data P B) : Prop := (d.bufs b).ready = false

def Owes (l : Pc B) (b : B) : Prop := l = .intr (.wakeTable b) ∨ l = .intr (.wakeup1 b)

def active : Pc B → Option B
  | .rw b _ _ => some b
  | .returned b _ => some b
  | _ => none

/-- The holders of the spin locks, the sleepers, and the holders of the buffers. -/
structure Base (s : System P B) : Prop where
  locked : Locked roles s
  noLost : NoLost roles Blocked Owes s
  asleep : ∀ p b, (s.threads p).sleeping = some b → active (s.threads p).loc = some b
  owned : ∀ p b, active (s.threads p).loc = some b → s.data.lock b = some p

variable {d d' : Data P B} {l l' : Pc B} {p : P} {call : Call B} {m : DriverMove P B}
  {s s' : System P B}

section

variable (h : Moves p d call l m)

include h

omit [DecidableEq P] in
theorem proper_moves : roles.Proper l m := by
  cases h <;> simp [Roles.Proper, roles, critical, tabled, committed]

omit [DecidableEq P] in
theorem blocked_of_committed {c : B} (hm : committed m.loc = some c)
    (hl : committed l ≠ some c) : Blocked c m.data := by
  cases h <;> simp_all [committed, Blocked]

omit [DecidableEq P] in
theorem blocked_or_owes {c : B} (hop : m.op ≠ .wakeup1 c)
    (hc : d.lock c ≠ none ∧ (l = .idle → d.lock c ≠ some p))
    (hold : Blocked c d ∨ critical l = true ∧ Owes l c) :
    Blocked c m.data ∨ critical m.loc = true ∧ Owes m.loc c := by
  cases h
  case fill b buf hlock =>
    have hcb : c ≠ b := by
      rintro rfl
      rcases hlock with hlock | hlock
      · exact hc.1 hlock
      · exact hc.2 rfl hlock
    refine .inl ?_
    rcases hold with hold | ⟨hcritical, -⟩
    · simpa [Blocked, hcb] using hold
    · cases hcritical
  case take b hhead =>
    by_cases hcb : c = b
    · exact .inr ⟨rfl, .inl (by rw [hcb])⟩
    · refine .inl ?_
      rcases hold with hold | ⟨-, howes | howes⟩
      · simpa [Blocked, Data.take, hcb] using hold
      · cases howes
      · cases howes
  case wakeTable b =>
    rcases hold with hold | ⟨-, howes | howes⟩
    · exact .inl hold
    · cases howes
      exact .inr ⟨rfl, .inr rfl⟩
    · cases howes
  case wakeup1 b =>
    rcases hold with hold | ⟨-, howes | howes⟩
    · exact .inl hold
    · cases howes
    · cases howes
      exact absurd rfl hop
  case link b was pp hload =>
    rcases hold with hold | ⟨-, howes | howes⟩
    · exact .inl (by cases pp <;> exact hold)
    · cases howes
    · cases howes
  case start d' hhead hstart | startNext d' hhead hstart =>
    obtain ⟨-, rfl⟩ := idestart_ok hstart
    rcases hold with hold | ⟨-, howes | howes⟩
    · exact .inl hold
    · cases howes
    · cases howes
  -- the other moves leave the buffers and come from places that owe nothing
  all_goals
    rcases hold with hold | ⟨-, howes | howes⟩
    · exact .inl hold
    · cases howes
    · cases howes

omit [DecidableEq P] in
theorem lock_moves {q : P} {b : B} (hq : d.lock b = some q)
    (hqp : q ≠ p ∨ l ≠ .idle) : m.data.lock b = some q := by
  cases h
  case acquiresleep b' hfree =>
    have hbb : b ≠ b' := by
      rintro rfl
      rw [hfree] at hq
      cases hq
    simpa [hbb] using hq
  case releasesleep b' hlock =>
    have hbb : b ≠ b' := by
      rintro rfl
      rw [hlock] at hq
      cases hq
      simp at hqp
    simpa [hbb] using hq
  case link b' was pp hload => cases pp <;> exact hq
  case start b' was d' hhead hstart | startNext b' d' hhead hstart =>
    obtain ⟨-, rfl⟩ := idestart_ok hstart
    exact hq
  all_goals exact hq

omit [DecidableEq P] in
theorem active_moves {b : B} (hb : active m.loc = some b) :
    d.lock b = some p ∧ l = .idle ∨ active l = some b := by
  cases h <;> simp_all [active]

end

omit [DecidableEq P] in
omit [DecidableEq B] in
theorem Base.active_of_waiting (h : Base s) {q : P} {c : B} (hw : Waiting roles s q c) :
    active (s.threads q).loc = some c := by
  rcases hw with hw | hw
  · exact h.asleep q c hw
  · simp only [roles, committed] at hw
    split at hw
    · cases hw
      simp [active, *]
    · cases hw
      simp [active, *]
    · cases hw
      simp [active, *]
    · cases hw

theorem Base.apply (h : Base s) (hm : Moves p s.data call (s.threads p).loc m)
    (hs : s.apply p m = some s') : Base s' := by
  have happ := applied hs
  have hproper := proper_moves hm
  refine ⟨h.locked.apply hproper hs, ?_, fun q c hq => ?_, fun q b hq => ?_⟩
  · refine h.noLost.apply h.locked hproper hs (fun c => blocked_of_committed hm)
      (fun q c hw hop => blocked_or_owes hm hop ?_)
    have hactive := h.active_of_waiting hw
    have hlock := h.owned q c hactive
    refine ⟨by simp [hlock], fun hidle heq => ?_⟩
    rw [hlock] at heq
    cases heq
    rw [hidle] at hactive
    cases hactive
  · by_cases hqp : q = p
    · subst hqp
      have hop := happ.sleeping c hq
      rw [happ.loc]
      generalize (s.threads q).loc = l at hm
      cases hm <;> simp_all [active]
    · rw [happ.others q hqp]
      exact h.asleep q c (happ.sleepers q c hqp hq).1
  · rw [happ.data]
    by_cases hqp : q = p
    · subst hqp
      rw [happ.loc] at hq
      rcases active_moves hm hq with ⟨hlock, hidle⟩ | hactive
      · generalize (s.threads q).loc = l at hm hidle
        subst hidle
        cases hm <;> simp_all [active]
      · refine lock_moves hm (h.owned q b hactive) (.inr fun hidle => ?_)
        rw [hidle] at hactive
        cases hactive
    · rw [happ.others q hqp] at hq
      exact lock_moves hm (h.owned q b hq) (.inl hqp)

omit [DecidableEq B] in
theorem Base.kill (h : Base s) (p : P) : Base (s.kill p) := by
  refine ⟨h.locked.kill p, h.noLost.kill p, fun q c hq => ?_, fun q b hq => ?_⟩
  · rw [(killed s p q).1]
    exact h.asleep q c ((killed s p q).2 c hq)
  · rw [(killed s p q).1] at hq
    exact h.owned q b hq

omit [DecidableEq P] in
omit [DecidableEq B] in
theorem Base.device (h : Base s) (dev : Device) :
    Base { s with data := { s.data with device := dev } } :=
  ⟨⟨h.locked.lock, h.locked.table, h.locked.asleep⟩, h.noLost, h.asleep, h.owned⟩

end Xv6.Ide
