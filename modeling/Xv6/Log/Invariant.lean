import Mathlib.Tactic.Linarith
import Xv6.Log.Control

/-!
# Outstanding operations and the committing process

`log.outstanding` counts the processes between `begin_op` and `end_op`, the
process inside `commit` is alone, and neither kind exists beside the other.
Everything said about reservation and about grouping rests on these facts.
-/

namespace Xv6.Log.Control

open Lib Function List

variable {P : Type} {s : Sys P} {st : Status} {p : P}

@[simp] theorem wakeup_log (s : Sys P) : s.wakeup.log = s.log := rfl

@[simp] theorem wakeup_procs (s : Sys P) (p : P) : s.wakeup.procs p = (s.procs p).wake := rfl

variable [DecidableEq P]

@[simp] theorem setProc_log (s : Sys P) (p : P) (st : Status) : (s.setProc p st).log = s.log :=
  rfl

@[simp] theorem setProc_procs (s : Sys P) (p : P) (st : Status) :
    (s.setProc p st).procs = update s.procs p st := rfl

namespace Status

@[simp] theorem inOp_wake (st : Status) : st.wake.InOp ↔ st.InOp := by
  cases st <;> simp [wake, InOp]

@[simp] theorem wrote_wake (st : Status) : st.wake.wrote = st.wrote := by
  cases st <;> rfl

@[simp] theorem wake_eq_commit {pc : CommitPc} : st.wake = .commit pc ↔ st = .commit pc := by
  cases st <;> simp [wake]

end Status

variable [Fintype P]

/-- The processes between `begin_op` and `end_op`. -/
def ops (s : Sys P) : Finset P := {p | (s.procs p).InOp}

omit [DecidableEq P] in
@[simp] theorem mem_ops : p ∈ ops s ↔ (s.procs p).InOp := by
  simp [ops]

omit [DecidableEq P] in
@[simp] theorem ops_wakeup (s : Sys P) : ops s.wakeup = ops s := by
  ext p
  simp

theorem ops_setProc_same (s : Sys P)
    (h : st.InOp ↔ (s.procs p).InOp) : ops (s.setProc p st) = ops s := by
  ext q
  by_cases hq : q = p
  · subst hq
    simp [h]
  · simp [hq]

theorem ops_setProc_enter (s : Sys P) (hst : st.InOp) :
    ops (s.setProc p st) = insert p (ops s) := by
  ext q
  by_cases hq : q = p
  · subst hq
    simp [hst]
  · simp [hq]

theorem ops_setProc_leave (s : Sys P) (hst : ¬ st.InOp) :
    ops (s.setProc p st) = (ops s).erase p := by
  ext q
  by_cases hq : q = p
  · subst hq
    simp [hst]
  · simp [hq]

/-- The loop indices of `commit` point into the header. -/
def PcOk (log : LogState) : CommitPc → Prop
  | .writeLog tail | .install tail => tail < log.lh.length
  | .writeHead => 0 < log.lh.length
  | _ => True

structure Inv (s : Sys P) : Prop where
  outstanding : s.log.outstanding = (ops s).card
  quiet : s.log.committing = true → s.log.outstanding = 0
  committing : ∀ c pc, s.procs c = .commit pc → s.log.committing = true
  alone : ∀ c d pc pc', s.procs c = .commit pc → s.procs d = .commit pc' → c = d
  nodup : s.log.lh.Nodup
  wrote : ∀ p, (s.procs p).wrote ⊆ s.log.lh.toFinset
  pcOk : ∀ c pc, s.procs c = .commit pc → PcOk s.log pc

omit [DecidableEq P] in
theorem inv_wakeup (h : Inv s) : Inv s.wakeup where
  outstanding := by
    rw [ops_wakeup]
    exact h.outstanding
  quiet := h.quiet
  committing := by simpa using h.committing
  alone := by simpa using h.alone
  nodup := h.nodup
  wrote := by simpa using h.wrote
  pcOk := by simpa using h.pcOk

variable {pc : CommitPc}

omit [Fintype P] in
theorem commit_of_update {p c : P} (hst : ∀ pc, st ≠ .commit pc)
    (h : update s.procs p st c = .commit pc) : s.procs c = .commit pc := by
  by_cases hc : c = p
  · subst hc
    rw [update_self] at h
    exact absurd h (hst pc)
  · rwa [update_of_ne hc] at h

omit [Fintype P] in
theorem wrote_update {W : Finset Nat} (h : ∀ q, (s.procs q).wrote ⊆ W) (hst : st.wrote ⊆ W)
    (q : P) : (update s.procs p st q).wrote ⊆ W := by
  by_cases hq : q = p
  · rwa [hq, update_self]
  · rw [update_of_ne hq]
    exact h q

omit [DecidableEq P] in
/-- While nobody is inside `commit` only the count and the header matter. -/
theorem inv_of_no_commit (hnone : ∀ c pc, s.procs c ≠ .commit pc)
    (hout : s.log.outstanding = (ops s).card) (hcommit : s.log.committing = false)
    (hnodup : s.log.lh.Nodup) (hwrote : ∀ p, (s.procs p).wrote ⊆ s.log.lh.toFinset) : Inv s where
  outstanding := hout
  quiet := fun hc => absurd hc (by simp [hcommit])
  committing := fun c pc hc => absurd hc (hnone c pc)
  alone := fun c _ pc _ hc => absurd hc (hnone c pc)
  nodup := hnodup
  wrote := hwrote
  pcOk := fun c pc hc => absurd hc (hnone c pc)

variable {pc' : CommitPc}

omit [Fintype P] in
/-- The only process inside `commit` is the one that has just got there. -/
theorem commit_self {c : P} (hother : ∀ pc, s.procs c = .commit pc → c = p)
    (hc : update s.procs p (.commit pc') c = .commit pc) : c = p ∧ pc = pc' := by
  by_cases hcp : c = p
  · rw [hcp, update_self] at hc
    exact ⟨hcp, (Status.commit.inj hc).symm⟩
  · rw [update_of_ne hcp] at hc
    exact absurd (hother pc hc) hcp

theorem inv_setProc (h : Inv s) (hop : st.InOp ↔ (s.procs p).InOp) (hst : ∀ pc, st ≠ .commit pc)
    (hwrote : st.wrote ⊆ s.log.lh.toFinset) : Inv (s.setProc p st) where
  outstanding := by
    rw [ops_setProc_same s hop]
    exact h.outstanding
  quiet := h.quiet
  committing := fun c pc hc => h.committing c pc (commit_of_update hst hc)
  alone := fun c d pc pc' hc hd =>
    h.alone c d pc pc' (commit_of_update hst hc) (commit_of_update hst hd)
  nodup := h.nodup
  wrote := wrote_update h.wrote hwrote
  pcOk := fun c pc hc => h.pcOk c pc (commit_of_update hst hc)

omit [DecidableEq P] in
theorem Inv.not_committing_of_inOp (h : Inv s)
    (hp : (s.procs p).InOp) : s.log.committing = false := by
  by_contra hc
  have hzero := h.quiet (by simpa using hc)
  rw [h.outstanding] at hzero
  have hpos : 0 < (ops s).card := Finset.card_pos.mpr ⟨p, by simpa using hp⟩
  omega

omit [DecidableEq P] in
theorem Inv.no_commit (h : Inv s) (hc : s.log.committing = false) (c : P)
    (pc : CommitPc) : s.procs c ≠ .commit pc := by
  intro hpc
  rw [h.committing c pc hpc] at hc
  cases hc

theorem LogState.append_lh (log : LogState) (b : Nat) :
    (log.append b).lh = if b ∈ log.lh then log.lh else log.lh ++ [b] := by
  unfold LogState.append
  split_ifs <;> rfl

@[simp] theorem LogState.append_outstanding (log : LogState) (b : Nat) :
    (log.append b).outstanding = log.outstanding := by
  unfold LogState.append
  split_ifs <;> rfl

@[simp] theorem LogState.append_committing (log : LogState) (b : Nat) :
    (log.append b).committing = log.committing := by
  unfold LogState.append
  split_ifs <;> rfl

variable {log : LogState}

theorem LogState.mem_append_lh {b c : Nat} : c ∈ (log.append b).lh ↔ c ∈ log.lh ∨ c = b := by
  rw [LogState.append_lh]
  split_ifs with hb
  · constructor
    · exact Or.inl
    · rintro (hc | rfl)
      · exact hc
      · exact hb
  · simp

theorem LogState.append_nodup {b : Nat} (h : log.lh.Nodup) : (log.append b).lh.Nodup := by
  rw [LogState.append_lh]
  split_ifs with hb
  · exact h
  · exact nodup_append.mpr ⟨h, by simp, by
      intro c hc d hd
      simp only [mem_singleton] at hd
      rintro rfl
      exact hb (hd ▸ hc)⟩

theorem pcOk_commitStart (log : LogState) : PcOk log (commitStart log) := by
  unfold commitStart
  split_ifs with hpos
  · exact hpos
  · trivial

/-- A step of `commit` changes nothing but the header list, and that only by
clearing it. -/
theorem commitStep_spec {log' : LogState} (h : commitStep log pc = some (pc', log')) :
    log' = log ∧ pc ≠ .clear ∨ log' = { log with lh := [] } ∧ pc = .clear := by
  cases pc <;> simp only [commitStep, Option.some.injEq, Prod.mk.injEq, reduceCtorEq] at h
  case clear => exact Or.inr ⟨h.2.symm, rfl⟩
  all_goals exact Or.inl ⟨h.2.symm, by simp⟩

theorem pcOk_commitStep {log' : LogState}
    (h : commitStep log pc = some (pc', log')) (hok : PcOk log pc) : PcOk log' pc' := by
  cases pc <;> simp only [commitStep, Option.some.injEq, Prod.mk.injEq, reduceCtorEq] at h <;>
    obtain ⟨rfl, rfl⟩ := h
  case writeLog tail =>
    split_ifs with hmore
    · exact hmore
    · exact Nat.zero_lt_of_lt hok
  case writeHead => exact hok
  case install tail =>
    split_ifs with hmore
    · exact hmore
    · trivial
  case clear => trivial
  case eraseHead => trivial

theorem inv_step {s s' : Sys P} {a : Action P} (h : Inv s) (hstep : Step s a s') : Inv s' := by
  cases hstep with
  | sleep hp hlog =>
    apply inv_setProc h
    · rcases hp with hp | hp <;> simp [hp, Status.InOp]
    · simp
    · simp [Status.wrote]
  | kill hp =>
    apply inv_setProc h
    · simp [hp, Status.InOp]
    · simp
    · simp [Status.wrote]
  | @logTest p w b hp htest =>
    apply inv_setProc h
    · simp [hp, Status.InOp]
    · simp
    · have hw := h.wrote p
      rw [hp] at hw
      exact hw
  | @enter p log hp hlog =>
    obtain ⟨hcommit, hroom, rfl⟩ := LogState.beginOp_eq_some hlog
    have hpop : p ∉ ops s := by
      rcases hp with hp | hp <;> simp [hp, Status.InOp]
    refine inv_of_no_commit (fun c pc hc => ?_) ?_ hcommit h.nodup
      (wrote_update h.wrote (by simp [Status.wrote]))
    · exact h.no_commit hcommit c pc (commit_of_update (by simp) hc)
    · have hcard := Finset.card_insert_of_notMem hpop
      rw [ops_setProc_enter _ (by trivial)]
      change s.log.outstanding + 1 = ((insert p (ops s)).card : Int)
      rw [hcard, h.outstanding]
      push_cast
      rfl
  | @logAppend p w b hp =>
    have hcommit := h.not_committing_of_inOp (p := p) (by simp [hp, Status.InOp])
    have hmore : s.log.lh.toFinset ⊆ (s.log.append b).lh.toFinset := fun c hc => by
      rw [mem_toFinset] at hc ⊢
      exact LogState.mem_append_lh.mpr (Or.inl hc)
    refine inv_of_no_commit (fun c pc hc => ?_) ?_ (by simpa using hcommit)
      (LogState.append_nodup h.nodup) (wrote_update (fun q => (h.wrote q).trans hmore) ?_)
    · exact h.no_commit hcommit c pc (commit_of_update (by simp) hc)
    · rw [ops_setProc_same _ (by simp [hp, Status.InOp])]
      change (s.log.append b).outstanding = ((ops s).card : Int)
      rw [LogState.append_outstanding]
      exact h.outstanding
    · have hw := h.wrote p
      rw [hp] at hw
      refine Finset.insert_subset ?_ (hw.trans hmore)
      exact mem_toFinset.mpr (LogState.mem_append_lh.mpr (Or.inr rfl))
  | @endOther p w log hp hlog =>
    obtain ⟨hcommit, hmore, rfl⟩ := LogState.endOp_eq_other hlog
    apply inv_wakeup
    refine inv_of_no_commit (fun c pc hc => ?_) ?_ hcommit h.nodup
      (wrote_update h.wrote (by simp [Status.wrote]))
    · exact h.no_commit hcommit c pc (commit_of_update (by simp) hc)
    · have hmem : p ∈ ops s := by simp [hp, Status.InOp]
      have hcard := Finset.card_erase_add_one hmem
      rw [ops_setProc_leave _ (by simp [Status.InOp])]
      change s.log.outstanding - 1 = (((ops s).erase p).card : Int)
      rw [h.outstanding]
      omega
  | @endLast p w log hp hlog =>
    obtain ⟨hcommit, hlast, rfl⟩ := LogState.endOp_eq_last hlog
    have hnone := h.no_commit hcommit
    refine ⟨?_, fun _ => rfl, fun _ _ _ => rfl, fun c d pc pc' hc hd => ?_, h.nodup,
      wrote_update h.wrote (by simp [Status.wrote]), fun c pc hc => ?_⟩
    · have hmem : p ∈ ops s := by simp [hp, Status.InOp]
      have hcard := Finset.card_erase_add_one hmem
      have hone : (ops s).card = 1 := by
        have hout := h.outstanding
        omega
      rw [ops_setProc_leave _ (by simp [Status.InOp])]
      change (0 : Int) = (((ops s).erase p).card : Int)
      omega
    · have hpc := commit_self (fun pc hc => absurd hc (hnone c pc)) hc
      have hpd := commit_self (fun pc hd => absurd hd (hnone d pc)) hd
      rw [hpc.1, hpd.1]
    · rw [(commit_self (fun pc hc => absurd hc (hnone c pc)) hc).2]
      exact pcOk_commitStart _
  | @commitStep p pc pc' log hp hlog =>
    have hcommitting := h.committing p pc hp
    have hself : ∀ c pc'', update s.procs p (.commit pc') c = .commit pc'' →
        c = p ∧ pc'' = pc' := fun c pc'' => commit_self fun _ hc => h.alone c p _ _ hc hp
    have hsame : log.outstanding = s.log.outstanding ∧
        log.committing = s.log.committing ∧ log.lh.Nodup := by
      rcases commitStep_spec hlog with ⟨rfl, -⟩ | ⟨rfl, -⟩
      · exact ⟨rfl, rfl, h.nodup⟩
      · exact ⟨rfl, rfl, nodup_nil⟩
    -- nobody is inside an operation, so nobody has written
    have hempty : ∀ q, (s.procs q).wrote ⊆ log.lh.toFinset := fun q => by
      have hq : ¬ (s.procs q).InOp := fun hq => by
        rw [h.not_committing_of_inOp hq] at hcommitting
        cases hcommitting
      cases hst : s.procs q <;> simp [hst, Status.InOp] at hq <;> exact Finset.empty_subset _
    refine ⟨?_, fun _ => ?_, fun _ _ _ => ?_, fun c d pc1 pc2 hc hd => ?_, hsame.2.2,
      wrote_update hempty (by simp [Status.wrote]), fun c pc'' hc => ?_⟩
    · rw [ops_setProc_same _ (by simp [hp, Status.InOp])]
      change log.outstanding = ((ops s).card : Int)
      rw [hsame.1]
      exact h.outstanding
    · change log.outstanding = 0
      rw [hsame.1]
      exact h.quiet hcommitting
    · change log.committing = true
      rw [hsame.2.1]
      exact hcommitting
    · rw [(hself c pc1 hc).1, (hself d pc2 hd).1]
    · rw [(hself c pc'' hc).2]
      exact pcOk_commitStep hlog (h.pcOk p pc hp)
  | @commitDone p hp =>
    apply inv_wakeup
    refine inv_of_no_commit (fun c pc hc => ?_) ?_ rfl h.nodup
      (wrote_update h.wrote (by simp [Status.wrote]))
    · -- nobody else can be inside `commit`
      by_cases hcp : c = p
      · simp [hcp] at hc
      · simp only [setProc_procs, update_of_ne hcp] at hc
        exact hcp (h.alone c p _ _ hc hp)
    · rw [ops_setProc_same _ (by simp [hp, Status.InOp])]
      exact h.outstanding

omit [DecidableEq P] in
theorem inv_init (start : Nat) (size : Int) : Inv (init start size : Sys P) where
  outstanding := by
    have hnone : ops (init start size : Sys P) = ∅ := by
      ext p
      simp [init, Status.InOp]
    rw [hnone]
    rfl
  quiet := fun _ => rfl
  committing := by simp [init]
  alone := by simp [init]
  nodup := nodup_nil
  wrote := by simp [init, Status.wrote]
  pcOk := by simp [init]

theorem inv_trace {start : Nat} {size : Int} {tr : List (Sys P × Action P)}
    (htr : Trace step (init start size) tr s) : Inv s :=
  htr.invariant (I := fun _ s => Inv s) (inv_init start size)
    fun _ _ _ _ _ h hstep => inv_step h (step_sound hstep)

end Xv6.Log.Control
