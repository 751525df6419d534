import Xv6.Block
import Xv6.Lib.Transition

/-!
# Admission, absorption and group commit

The in-memory `struct log` and the processes that go through `begin_op`,
`log_write` and `end_op`.  One action is one critical section of `log.lock`, the
pair of unlocked tests at the head of `log_write`, or one block write of
`commit`; the processes interleave them freely.
-/

namespace Xv6.Log.Control

open Lib

/-- `struct log`; `lh` is `lh.block[0..lh.n)`. -/
structure LogState where
  start : Nat
  size : Int
  outstanding : Int
  committing : Bool
  lh : List Nat
  deriving DecidableEq

namespace LogState

/-- One pass through the loop of `begin_op`: the admitted log, or `none` if the
caller has to sleep. -/
def beginOp (log : LogState) : Option LogState :=
  if log.committing then
    none
  else if log.lh.length + (log.outstanding + 1) * MAXOPBLOCKS > LOGSIZE then
    -- this op might exhaust log space; wait for commit
    none
  else
    some { log with outstanding := log.outstanding + 1 }

/-- The tests `log_write` makes before it takes the lock: the panic they end in. -/
def writeTest (log : LogState) : Option String :=
  if log.lh.length ≥ LOGSIZE ∨ log.lh.length ≥ log.size - 1 then
    some "too big a transaction"
  else if log.outstanding < 1 then
    some "log_write outside of trans"
  else
    none

/-- The locked part of `log_write`, with absorption. -/
def append (log : LogState) (b : Nat) : LogState :=
  if b ∈ log.lh then log else { log with lh := log.lh ++ [b] }

/-- The first critical section of `end_op`, and whether the caller commits. -/
def endOp (log : LogState) : Except String (LogState × Bool) :=
  let log := { log with outstanding := log.outstanding - 1 }
  if log.committing then
    .error "log.committing"
  else if log.outstanding = 0 then
    .ok ({ log with committing := true }, true)
  else
    .ok (log, false)

end LogState

/-- Where a process is inside `commit`: the next write, the assignment
`log.lh.n = 0`, or the return to `end_op`. -/
inductive CommitPc where
  | writeLog (tail : Nat)
  | writeHead
  | install (tail : Nat)
  | clear
  | eraseHead
  | done
  deriving DecidableEq

/-- `if (log.lh.n > 0)` at the head of `commit`. -/
def commitStart (log : LogState) : CommitPc :=
  if 0 < log.lh.length then .writeLog 0 else .done

def commitStep (log : LogState) : CommitPc → Option (CommitPc × LogState)
  | .writeLog tail =>
    some (if tail + 1 < log.lh.length then .writeLog (tail + 1) else .writeHead, log)
  | .writeHead => some (.install 0, log)
  | .install tail =>
    some (if tail + 1 < log.lh.length then .install (tail + 1) else .clear, log)
  | .clear => some (.eraseHead, { log with lh := [] })
  | .eraseHead => some (.done, log)
  | .done => none

/-- What a process is doing.  `wrote` lists the blocks its current operation has
passed to `log_write`. -/
inductive Status where
  | idle
  | waiting
  | woken
  | active (wrote : Finset Nat)
  | logging (wrote : Finset Nat) (b : Nat)
  | commit (pc : CommitPc)
  deriving DecidableEq

namespace Status

/-- Between `begin_op` and `end_op`. -/
def InOp : Status → Prop
  | .active _ | .logging _ _ => True
  | _ => False

instance : DecidablePred InOp
  | .active _ | .logging _ _ => isTrue trivial
  | .idle | .waiting | .woken | .commit _ => isFalse id

def wrote : Status → Finset Nat
  | .active w | .logging w _ => w
  | _ => ∅

/-- `wakeup(&log)` on one process. -/
def wake : Status → Status
  | .waiting => .woken
  | st => st

end Status

inductive Action (P : Type) where
  | beginOp (p : P)
  | kill (p : P)
  | logTest (p : P) (b : Nat)
  | logAppend (p : P)
  | endOp (p : P)
  | commitStep (p : P)
  | commitDone (p : P)
  deriving DecidableEq

structure Sys (P : Type) where
  log : LogState
  procs : P → Status

variable {P : Type} [DecidableEq P] {log log' : LogState}

namespace Sys

def setProc (s : Sys P) (p : P) (st : Status) : Sys P :=
  { s with procs := Function.update s.procs p st }

/-- `wakeup(&log)`. -/
def wakeup (s : Sys P) : Sys P := { s with procs := fun p => (s.procs p).wake }

end Sys

def init (start : Nat) (size : Int) : Sys P where
  log := ⟨start, size, 0, false, []⟩
  procs := fun _ => .idle

def step (s : Sys P) : Action P → Outcome (Sys P) Unit
  | .beginOp p =>
    match s.procs p with
    | .idle | .woken =>
      match s.log.beginOp with
      | none => .ok () (s.setProc p .waiting)
      | some log => .ok () ({ s with log := log }.setProc p (.active ∅))
    | _ => .blocked
  | .kill p =>
    match s.procs p with
    | .waiting => .ok () (s.setProc p .woken)
    | _ => .blocked
  | .logTest p b =>
    match s.procs p with
    | .active w =>
      match s.log.writeTest with
      | some msg => .panic msg
      | none => .ok () (s.setProc p (.logging w b))
    | _ => .blocked
  | .logAppend p =>
    match s.procs p with
    | .logging w b =>
      .ok () ({ s with log := s.log.append b }.setProc p (.active (insert b w)))
    | _ => .blocked
  | .endOp p =>
    match s.procs p with
    | .active _ =>
      match s.log.endOp with
      | .error msg => .panic msg
      | .ok (log, true) =>
        .ok () ({ s with log := log }.setProc p (.commit (commitStart log)))
      | .ok (log, false) => .ok () ({ s with log := log }.setProc p .idle).wakeup
    | _ => .blocked
  | .commitStep p =>
    match s.procs p with
    | .commit pc =>
      match Control.commitStep s.log pc with
      | some (pc', log) => .ok () ({ s with log := log }.setProc p (.commit pc'))
      | none => .blocked
    | _ => .blocked
  | .commitDone p =>
    match s.procs p with
    | .commit .done =>
      .ok () ({ s with log := { s.log with committing := false } }.setProc p .idle).wakeup
    | _ => .blocked

/-- The steps of the system, one constructor for each way an action can go. -/
inductive Step (s : Sys P) : Action P → Sys P → Prop where
  | sleep {p : P} (hp : s.procs p = .idle ∨ s.procs p = .woken)
      (hlog : s.log.beginOp = none) : Step s (.beginOp p) (s.setProc p .waiting)
  | enter {p : P} {log : LogState} (hp : s.procs p = .idle ∨ s.procs p = .woken)
      (hlog : s.log.beginOp = some log) :
      Step s (.beginOp p) ({ s with log := log }.setProc p (.active ∅))
  | kill {p : P} (hp : s.procs p = .waiting) : Step s (.kill p) (s.setProc p .woken)
  | logTest {p : P} {w : Finset Nat} (b : Nat) (hp : s.procs p = .active w)
      (htest : s.log.writeTest = none) : Step s (.logTest p b) (s.setProc p (.logging w b))
  | logAppend {p : P} {w : Finset Nat} {b : Nat} (hp : s.procs p = .logging w b) :
      Step s (.logAppend p)
        ({ s with log := s.log.append b }.setProc p (.active (insert b w)))
  | endLast {p : P} {w : Finset Nat} {log : LogState} (hp : s.procs p = .active w)
      (hlog : s.log.endOp = .ok (log, true)) :
      Step s (.endOp p) ({ s with log := log }.setProc p (.commit (commitStart log)))
  | endOther {p : P} {w : Finset Nat} {log : LogState} (hp : s.procs p = .active w)
      (hlog : s.log.endOp = .ok (log, false)) :
      Step s (.endOp p) ({ s with log := log }.setProc p .idle).wakeup
  | commitStep {p : P} {pc pc' : CommitPc} {log : LogState} (hp : s.procs p = .commit pc)
      (hlog : Control.commitStep s.log pc = some (pc', log)) :
      Step s (.commitStep p) ({ s with log := log }.setProc p (.commit pc'))
  | commitDone {p : P} (hp : s.procs p = .commit .done) :
      Step s (.commitDone p)
        ({ s with log := { s.log with committing := false } }.setProc p .idle).wakeup

theorem step_sound {s s' : Sys P} {a : Action P} (h : step s a = .ok () s') : Step s a s' := by
  cases a <;> simp only [step] at h
  case beginOp p =>
    split at h <;> try cases h
    all_goals
      split at h <;> cases h
      · exact .sleep (by simp [*]) ‹_›
      · exact .enter (by simp [*]) ‹_›
  case kill p =>
    split at h <;> cases h
    exact .kill ‹_›
  case logTest p b =>
    split at h <;> try cases h
    split at h <;> cases h
    exact .logTest b ‹_› ‹_›
  case logAppend p =>
    split at h <;> cases h
    exact .logAppend ‹_›
  case endOp p =>
    split at h <;> try cases h
    split at h <;> cases h
    · exact .endLast ‹_› ‹_›
    · exact .endOther ‹_› ‹_›
  case commitStep p =>
    split at h <;> try cases h
    split at h <;> cases h
    exact .commitStep ‹_› ‹_›
  case commitDone p =>
    split at h <;> cases h
    exact .commitDone ‹_›

theorem step_panic {s : Sys P} {a : Action P} {msg : String} (h : step s a = .panic msg) :
    (∃ p b w, a = .logTest p b ∧ s.procs p = .active w ∧ s.log.writeTest = some msg) ∨
      ∃ p w, a = .endOp p ∧ s.procs p = .active w ∧ s.log.endOp = .error msg := by
  cases a <;> simp only [step] at h
  case logTest p b =>
    split at h <;> try cases h
    split at h <;> cases h
    exact Or.inl ⟨p, b, _, rfl, ‹_›, ‹_›⟩
  case endOp p =>
    split at h <;> try cases h
    split at h <;> cases h
    exact Or.inr ⟨p, _, rfl, ‹_›, ‹_›⟩
  case beginOp p =>
    split at h <;> try cases h
    all_goals split at h <;> cases h
  case commitStep p =>
    split at h <;> try cases h
    split at h <;> cases h
  all_goals split at h <;> cases h

theorem LogState.endOp_eq_error {log : LogState} {msg : String} (h : log.endOp = .error msg) :
    log.committing = true ∧ msg = "log.committing" := by
  unfold LogState.endOp at h
  simp only at h
  split_ifs at h with hcommit
  cases h
  exact ⟨hcommit, rfl⟩

theorem LogState.beginOp_eq_some (h : log.beginOp = some log') :
    log.committing = false ∧ log.lh.length + (log.outstanding + 1) * MAXOPBLOCKS ≤ LOGSIZE ∧
      log' = { log with outstanding := log.outstanding + 1 } := by
  unfold LogState.beginOp at h
  split_ifs at h with hcommit hroom
  cases h
  exact ⟨by simpa using hcommit, by omega, rfl⟩

theorem LogState.endOp_eq_last (h : log.endOp = .ok (log', true)) :
    log.committing = false ∧ log.outstanding = 1 ∧
      log' = { log with outstanding := 0, committing := true } := by
  unfold LogState.endOp at h
  simp only at h
  split_ifs at h with hcommit hlast
  · cases h
    exact ⟨by simpa using hcommit, by omega, by simp [hlast]⟩
  · cases h

theorem LogState.endOp_eq_other (h : log.endOp = .ok (log', false)) :
    log.committing = false ∧ log.outstanding ≠ 1 ∧
      log' = { log with outstanding := log.outstanding - 1 } := by
  unfold LogState.endOp at h
  simp only at h
  split_ifs at h with hcommit hlast
  · cases h
  · cases h
    exact ⟨by simpa using hcommit, by omega, rfl⟩

end Xv6.Log.Control
