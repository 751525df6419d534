import Mathlib.Algebra.BigOperators.Pi
import Mathlib.Algebra.Order.BigOperators.Group.Finset
import Xv6.Log.Invariant

/-!
# Does the reservation suffice?

`begin_op` admits operations against `LOGSIZE` blocks of log space, and under
that test the header never lists more than `LOGSIZE` blocks.  `log_write`,
however, refuses to run once `log.size - 1` blocks are listed, because one block
of the log is the header, and `mkfs` makes `log.size` equal to `LOGSIZE`.  The
two tests differ by one block, and the second one is made without the lock.
-/

namespace Xv6.Log.Control

open Lib Function List Finset

variable {P : Type} [DecidableEq P] [Fintype P] {s : Sys P}

/-- The system on a file system made by `mkfs`: `sb.logstart = 2`,
`sb.nlog = LOGSIZE`. -/
def mkfsInit : Sys P := init 2 LOGSIZE

/-- The log never takes in more than fits: at a commit the header lists at most
`log.size - 1` blocks, and `write_log` stays inside the log. -/
def FitsLog (s : Sys P) : Prop :=
  (s.log.committing = true → s.log.lh.length ≤ s.log.size - 1) ∧
    ∀ c tail, s.procs c = .commit (.writeLog tail) →
      (s.log.start + tail + 1 : Int) < s.log.start + s.log.size

/-- An operation logs at most `MAXOPBLOCKS` distinct blocks. -/
def withinBudget (s : Sys P) : Action P → Bool
  | .logTest p b => (insert b (s.procs p).wrote).card ≤ MAXOPBLOCKS
  | _ => true

/-- The log space `begin_op` counts on when it looks at one more operation. -/
def LogState.demand (log : LogState) : Int :=
  log.lh.length + (log.outstanding + 1) * MAXOPBLOCKS

/-- `begin_op` lets an operation in only if the demand leaves `k` blocks of the
log, its header block included. -/
def admitsLeaving (k : Int) (s : Sys P) : Action P → Bool
  | .beginOp _ => s.log.beginOp.isSome → s.log.demand + k ≤ s.log.size
  | _ => true

omit [Fintype P] in
theorem step_size {s s' : Sys P} {a : Action P} (hstep : Step s a s') :
    s'.log.size = s.log.size := by
  cases hstep with
  | enter hp hlog =>
    obtain ⟨-, -, rfl⟩ := LogState.beginOp_eq_some hlog
    rfl
  | @logAppend p w b hp =>
    simp only [setProc_log, LogState.append]
    split_ifs <;> rfl
  | endLast hp hlog =>
    obtain ⟨-, -, rfl⟩ := LogState.endOp_eq_last hlog
    rfl
  | endOther hp hlog =>
    obtain ⟨-, -, rfl⟩ := LogState.endOp_eq_other hlog
    rfl
  | commitStep hp hlog =>
    rcases commitStep_spec hlog with ⟨rfl, -⟩ | ⟨rfl, -⟩ <;> rfl
  | _ => rfl

def Status.spare : Status → Nat
  | .active w | .logging w _ => MAXOPBLOCKS - w.card
  | _ => 0

@[simp] theorem Status.spare_wake (st : Status) : st.wake.spare = st.spare := by
  cases st <;> rfl

def spare (s : Sys P) : Nat := ∑ p, (s.procs p).spare

omit [DecidableEq P] in
theorem spare_wakeup (s : Sys P) : spare s.wakeup = spare s := by
  simp [spare]

theorem spare_setProc (s : Sys P) (p : P) (st : Status) :
    spare (s.setProc p st) + (s.procs p).spare = spare s + st.spare := by
  have hsum := sum_update_of_mem (mem_univ p) (fun q => (s.procs q).spare) st.spare
  have hold := add_sum_erase univ (fun q => (s.procs q).spare) (mem_univ p)
  have hfun : (fun q => (update s.procs p st q).spare) =
      update (fun q => (s.procs q).spare) p st.spare := by
    funext q
    by_cases hq : q = p
    · subst hq
      simp
    · simp [hq]
  unfold spare
  simp only [setProc_procs]
  rw [hfun, hsum, sdiff_singleton_eq_erase]
  omega

omit [DecidableEq P] in
theorem spare_le (s : Sys P) : spare s ≤ (ops s).card * MAXOPBLOCKS := by
  unfold spare
  rw [← Finset.sum_subset (Finset.subset_univ (ops s))]
  · apply Finset.sum_le_card_nsmul
    intro p _
    cases s.procs p <;> simp [Status.spare]
  · intro p _ hp
    rw [mem_ops] at hp
    cases hst : s.procs p <;> simp [hst, Status.InOp] at hp <;> rfl

/-- Listed and reserved blocks stay within `bound`. -/
structure Reserved (bound : Int) (s : Sys P) : Prop where
  room : s.log.lh.length + spare s ≤ bound
  budget : ∀ p w b, s.procs p = .logging w b → (insert b w).card ≤ MAXOPBLOCKS

omit [DecidableEq P] in
theorem reserved_init {bound : Int} (hbound : 0 ≤ bound) (start : Nat) (size : Int) :
    Reserved bound (init start size : Sys P) where
  room := by simpa [init, spare, Status.spare] using hbound
  budget := by simp [init]

variable {bound : Int}

omit [DecidableEq P] in
theorem reserved_wakeup (h : Reserved bound s) : Reserved bound s.wakeup where
  room := by
    rw [spare_wakeup]
    exact h.room
  budget := by
    intro p w b hp
    apply h.budget p w b
    rw [wakeup_procs] at hp
    cases hst : s.procs p <;> simp_all [Status.wake]

theorem reserved_setProc {p : P} {st : Status} {log : LogState} (h : Reserved bound s)
    (hlen : log.lh.length + st.spare ≤ s.log.lh.length + (s.procs p).spare)
    (hbudget : ∀ w b, st = .logging w b → (insert b w).card ≤ MAXOPBLOCKS) :
    Reserved bound ({ s with log := log }.setProc p st) where
  room := by
    have hspare := spare_setProc { s with log := log } p st
    have hroom := h.room
    change spare _ + (s.procs p).spare = spare s + st.spare at hspare
    simp only [setProc_log]
    omega
  budget := by
    intro q w b hq
    by_cases hqp : q = p
    · subst hqp
      rw [setProc_procs, update_self] at hq
      exact hbudget w b hq
    · rw [setProc_procs, update_of_ne hqp] at hq
      exact h.budget q w b hq

theorem reserved_step {s s' : Sys P} {a : Action P} (hinv : Inv s) (h : Reserved bound s)
    (hbudget : withinBudget s a = true)
    (henter : ∀ p, a = .beginOp p → s.log.beginOp.isSome → s.log.demand ≤ bound)
    (hstep : Step s a s') : Reserved bound s' := by
  cases hstep with
  | sleep hp hlog | kill hp =>
    exact reserved_setProc h (by simp [Status.spare]) (by simp)
  | @enter p log hp hlog =>
    have hroom := henter p rfl (by simp [hlog])
    obtain ⟨-, -, rfl⟩ := LogState.beginOp_eq_some hlog
    have hout := hinv.outstanding
    have hspare := spare_setProc s p (.active ∅)
    have hle := spare_le s
    have hidle : (s.procs p).spare = 0 := by
      rcases hp with hp | hp <;> simp [hp, Status.spare]
    refine ⟨?_, ?_⟩
    · change s.log.lh.length + spare (s.setProc p (.active ∅)) ≤ bound
      simp only [LogState.demand, Status.spare, card_empty, MAXOPBLOCKS] at *
      omega
    · intro q w b hq
      by_cases hqp : q = p
      · subst hqp
        simp at hq
      · rw [setProc_procs, update_of_ne hqp] at hq
        exact h.budget q w b hq
  | @logTest p w b hp htest =>
    apply reserved_setProc h
    · simp [hp, Status.spare]
    · intro w' b' hst
      cases hst
      simpa [withinBudget, hp, Status.wrote] using hbudget
  | @logAppend p w b hp =>
    have hle := h.budget p w b hp
    apply reserved_setProc h
    · rw [hp, LogState.append_lh]
      simp only [Status.spare]
      by_cases hb : b ∈ w
      · have hlisted : b ∈ s.log.lh := by
          have hw := hinv.wrote p
          rw [hp] at hw
          simpa using hw hb
        rw [if_pos hlisted, insert_eq_of_mem hb]
      · rw [card_insert_of_notMem hb] at hle ⊢
        split_ifs
        · omega
        · rw [length_append, length_singleton]
          omega
    · simp
  | @endOther p w log hp hlog =>
    obtain ⟨-, -, rfl⟩ := LogState.endOp_eq_other hlog
    apply reserved_wakeup
    exact reserved_setProc h (by simp [Status.spare]) (by simp)
  | @endLast p w log hp hlog =>
    obtain ⟨-, -, rfl⟩ := LogState.endOp_eq_last hlog
    exact reserved_setProc h (by simp [Status.spare]) (by simp)
  | @commitStep p pc pc' log hp hlog =>
    apply reserved_setProc h
    · rcases commitStep_spec hlog with ⟨rfl, -⟩ | ⟨rfl, -⟩ <;> simp [Status.spare]
    · simp
  | @commitDone p hp =>
    apply reserved_wakeup
    exact reserved_setProc h (by simp [Status.spare]) (by simp)

theorem reserved_trace {tr : List (Sys P × Action P)}
    (htr : Trace step mkfsInit tr s) (hbudget : ∀ x ∈ tr, withinBudget x.1 x.2 = true)
    (henter : ∀ x ∈ tr, admitsLeaving 2 x.1 x.2 = true) :
    s.log.size = LOGSIZE ∧ Reserved (LOGSIZE - 2) s := by
  induction htr with
  | nil => exact ⟨rfl, reserved_init (by decide) _ _⟩
  | @cons tr s s' a htr hstep ih =>
    obtain ⟨hsize, hres⟩ := ih (fun x hx => hbudget x (mem_cons_of_mem _ hx))
      (fun x hx => henter x (mem_cons_of_mem _ hx))
    have hstep' := step_sound hstep
    refine ⟨(step_size hstep').trans hsize, ?_⟩
    apply reserved_step (inv_trace htr) hres (hbudget (s, a) mem_cons_self) _ hstep'
    rintro p rfl hsome
    have hleaves := henter (s, .beginOp p) mem_cons_self
    simp only [admitsLeaving, decide_eq_true_eq] at hleaves
    have hle := hleaves hsome
    omega

/-- The reservation suffices in every run in which `begin_op` admits operations
only below a demand of `log.size - 1`. -/
theorem reservation_suffices (tr : List (Sys P × Action P)) (s : Sys P)
    (htr : Trace step mkfsInit tr s) (hbudget : ∀ x ∈ tr, withinBudget x.1 x.2 = true)
    (henter : ∀ x ∈ tr, admitsLeaving 2 x.1 x.2 = true) :
    FitsLog s ∧ ∀ a, step s a ≠ .panic "too big a transaction" := by
  have hinv := inv_trace htr
  obtain ⟨hsize, hres⟩ := reserved_trace htr hbudget henter
  have hroom := hres.room
  refine ⟨⟨fun _ => by omega, ?_⟩, ?_⟩
  · intro c tail hc
    have htail : tail < s.log.lh.length := hinv.pcOk c _ hc
    omega
  · intro a hpanic
    rcases step_panic hpanic with ⟨p, b, w, rfl, -, htest⟩ | ⟨p, w, rfl, -, hend⟩
    · unfold LogState.writeTest at htest
      rw [if_neg (by omega)] at htest
      split_ifs at htest
      exact absurd (Option.some.inj htest) (by decide)
    · exact absurd (LogState.endOp_eq_error hend).2 (by decide)

/-- One operation that logs two blocks, up to its commit. -/
theorem reservation_suffices_one_op :
    ∃ (tr : List (Sys (Fin 1) × Action (Fin 1))) (s : Sys (Fin 1)),
      Trace step mkfsInit tr s ∧ s.log.committing = true ∧ s.log.lh = [100, 101] ∧
        FitsLog s := by
  obtain ⟨tr, s, htr, hok, hgood⟩ := Trace.of_play step
    (fun s a => withinBudget s a && admitsLeaving 2 s a) (mkfsInit : Sys (Fin 1))
    [.beginOp 0, .logTest 0 100, .logAppend 0, .logTest 0 101, .logAppend 0, .endOp 0]
    (fun s => s.log.committing && decide (s.log.lh = [100, 101])) (by decide +kernel)
  simp only [Bool.and_eq_true, decide_eq_true_eq] at hok hgood
  exact ⟨tr, s, htr, hgood.1, hgood.2,
    (reservation_suffices tr s htr (fun x hx => (hok x hx).1) fun x hx => (hok x hx).2).1⟩

def threeOps (p : Nat → Fin 3) : List (Action (Fin 3)) :=
  [.beginOp (p 0), .beginOp (p 1), .beginOp (p 2)] ++
    (List.range 29).flatMap fun i => [.logTest (p (i / 10)) (100 + i), .logAppend (p (i / 10))]

/-- The same three operations, but the last two blocks pass the unlocked test
before either is recorded, and everybody finishes. -/
def threeOpsRace (p q r : Fin 3) : List (Action (Fin 3)) :=
  [.beginOp p, .beginOp q, .beginOp r] ++
    ((List.range 28).flatMap fun i =>
      let x := if i < 9 then p else if i < 18 then q else r
      [.logTest x (100 + i), .logAppend x]) ++
    [.logTest p 128, .logTest q 129, .logAppend p, .logAppend q, .endOp p, .endOp q, .endOp r]

/-- Every admission leaves the header block free.  Process `q` finishes after nine
blocks while process `p` is still running, processes `p` and `r` then log ten each, and
process `p` is about to log block 100 a second time. -/
def absorbed (p q r : Fin 3) : List (Action (Fin 3)) :=
  [.beginOp p, .beginOp q] ++
    ((List.range 9).flatMap fun i => [.logTest q (300 + i), .logAppend q]) ++
    [.endOp q, .beginOp r] ++
    ((List.range 10).flatMap fun i => [.logTest r (200 + i), .logAppend r]) ++
    (List.range 10).flatMap fun i => [.logTest p (100 + i), .logAppend p]

/-- Three operations of ten blocks each are admitted together, and the thirtieth
`log_write` panics; if its size test is made early enough it passes, and the
commit lists thirty blocks for a log of thirty.  Leaving the header block free
is not enough either, because the test comes before absorption. -/
theorem reservation_short :
    (∃ (tr : List (Sys (Fin 3) × Action (Fin 3))) (s : Sys (Fin 3)),
      Trace step mkfsInit tr s ∧ (∀ x ∈ tr, withinBudget x.1 x.2 = true) ∧
      withinBudget s (.logTest 2 129) = true ∧
      step s (.logTest 2 129) = .panic "too big a transaction") ∧
    (∃ (tr : List (Sys (Fin 3) × Action (Fin 3))) (s : Sys (Fin 3)),
      Trace step mkfsInit tr s ∧ (∀ x ∈ tr, withinBudget x.1 x.2 = true) ∧
      s.log.committing = true ∧ (s.log.lh.length : Int) = s.log.size) ∧
    ∃ (tr : List (Sys (Fin 3) × Action (Fin 3))) (s : Sys (Fin 3)),
      Trace step mkfsInit tr s ∧ (∀ x ∈ tr, withinBudget x.1 x.2 = true) ∧
      (∀ x ∈ tr, admitsLeaving 1 x.1 x.2 = true) ∧
      withinBudget s (.logTest 0 100) = true ∧
      step s (.logTest 0 100) = .panic "too big a transaction" := by
  refine ⟨?_, ?_, ?_⟩
  · obtain ⟨tr, s, htr, hok, hgood⟩ := Trace.of_play step withinBudget mkfsInit
      (threeOps (Fin.ofNat 3))
      (fun s => withinBudget s (.logTest 2 129) &&
        (step s (.logTest 2 129)).panicsWith "too big a transaction")
      (by decide +kernel)
    rw [Bool.and_eq_true] at hgood
    exact ⟨tr, s, htr, hok, hgood.1, Outcome.eq_panic_of_panicsWith hgood.2⟩
  · obtain ⟨tr, s, htr, hok, hgood⟩ := Trace.of_play step withinBudget mkfsInit
      (threeOpsRace 0 1 2)
      (fun s => s.log.committing && decide ((s.log.lh.length : Int) = s.log.size))
      (by decide +kernel)
    rw [Bool.and_eq_true, decide_eq_true_eq] at hgood
    exact ⟨tr, s, htr, hok, hgood⟩
  · obtain ⟨tr, s, htr, hok, hgood⟩ := Trace.of_play step
      (fun s a => withinBudget s a && admitsLeaving 1 s a) mkfsInit (absorbed 0 1 2)
      (fun s => withinBudget s (.logTest 0 100) &&
        (step s (.logTest 0 100)).panicsWith "too big a transaction")
      (by decide +kernel)
    simp only [Bool.and_eq_true] at hok hgood
    exact ⟨tr, s, htr, fun x hx => (hok x hx).1, fun x hx => (hok x hx).2, hgood.1,
      Outcome.eq_panic_of_panicsWith hgood.2⟩

end Xv6.Log.Control
