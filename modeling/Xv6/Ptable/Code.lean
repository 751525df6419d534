import Mathlib.Algebra.Group.Int.Defs
import Mathlib.Data.List.FinRange
import Xv6.Block
import Xv6.Lib.Transition

/-!
# The process table

`allocproc`, `fork`, `exit`, `wait`, `kill`, `sleep`, `wakeup`, `yield` and `scheduler`
of `proc.c` on any number of CPUs.  A step is what a CPU does between two points where
another CPU can get in: a part of the code under `ptable.lock` up to its release or up
to `swtch`, or one of the unlocked changes of a slot that `fork` is setting up.  The
lock is handed over in `swtch`: it belongs to the CPU, whichever thread runs there.
-/

namespace Xv6.Ptable

open Lib Function

/-- `struct proc *`, as an index of `ptable.proc`. -/
abbrev Slot := Fin NPROC

inductive ProcState where
  | unused
  | embryo
  | sleeping
  | runnable
  | running
  | zombie
  deriving DecidableEq

/-- What a process sleeps on: a `struct proc`, or something else in the kernel. -/
inductive Chan where
  | proc (p : Slot)
  | addr (a : Nat)
  deriving DecidableEq

inductive Pc where
  | user
  | forkStack (np : Slot)
  | forkCopy (np : Slot)
  | forkReady (np : Slot)
  | waitScan
  | forkret
  /-- switched out in `yield`, which a timer interrupt calls anywhere outside the lock -/
  | yielding (pc : Pc)
  | sleeping
  | waiting
  | exited
  | ret (r : BitVec 32)
  deriving DecidableEq

structure Proc where
  state : ProcState
  pid : BitVec 32
  parent : Option Slot
  chan : Option Chan
  killed : Bool
  pc : Pc
  deriving DecidableEq

structure Cpu where
  proc : Option Slot
  /-- the index at which the scheduler of this CPU stands, with `ptable.lock` held -/
  scan : Option Nat

structure State (C : Type) where
  procs : Slot → Proc
  cpus : C → Cpu
  lock : Option C
  nextpid : BitVec 32
  initproc : Slot

inductive Call where
  | fork
  | exit
  | wait
  | kill (pid : BitVec 32)
  | sleep (a : Nat)
  | yield
  deriving DecidableEq

inductive Action (C : Type) where
  | sched (c : C)
  | call (c : C) (call : Call)
  /-- the process on a CPU goes on; `ok` says whether `kalloc` or `copyuvm` succeeds -/
  | step (c : C) (ok : Bool)
  | wakeup (a : Nat)

namespace State

variable {C : Type} [DecidableEq C]

def setProc (s : State C) (i : Slot) (x : Proc) : State C :=
  { s with procs := update s.procs i x }

def setPc (s : State C) (i : Slot) (pc : Pc) : State C := s.setProc i { s.procs i with pc := pc }

def release (s : State C) : State C := { s with lock := none }

/-- `sched()` after the state of `p` has been changed: `swtch` to the scheduler of the
CPU, which goes on after the slot it had switched to. -/
def sched (s : State C) (c : C) (p : Slot) : State C :=
  { s with cpus := update s.cpus c ⟨none, some (p.val + 1)⟩, lock := some c }

def wakeup1 (s : State C) (chan : Option Chan) : State C :=
  { s with procs := fun i =>
      let x := s.procs i
      if x.state = .sleeping ∧ x.chan = chan then { x with state := .runnable } else x }

/-- One round of the loop of `exit` that passes children on to init. -/
def adopt (p : Slot) (s : State C) (i : Slot) : State C :=
  let x := s.procs i
  if x.parent = some p then
    let s' := s.setProc i { x with parent := some s.initproc }
    if x.state = .zombie then s'.wakeup1 (some (.proc s.initproc)) else s'
  else
    s

/-- `allocproc` up to the release of the lock. -/
def allocproc (s : State C) (p : Slot) : State C :=
  match (List.finRange NPROC).find? fun i => (s.procs i).state = .unused with
  | none => s.setPc p (.ret (-1))
  | some np =>
    let s' := s.setProc np { s.procs np with state := .embryo, pid := s.nextpid }
    { s'.setPc p (.forkStack np) with nextpid := s.nextpid + 1 }

/-- `exit` from the acquisition of the lock on. -/
def exit (s : State C) (c : C) (p : Slot) : State C :=
  let s := s.wakeup1 ((s.procs p).parent.map .proc)
  let s := (List.finRange NPROC).foldl (adopt p) s
  (s.setProc p { s.procs p with state := .zombie, pc := .exited }).sched c p

/-- `sleep`, with the point where the process goes on. -/
def sleep (s : State C) (c : C) (p : Slot) (chan : Chan) (pc : Pc) : State C :=
  (s.setProc p { s.procs p with state := .sleeping, chan := some chan, pc := pc }).sched c p

/-- `wait` frees the slot of a zombie child. -/
def reap (s : State C) (i : Slot) : State C :=
  s.setProc i { s.procs i with pid := 0, parent := none, killed := false, state := .unused }

def wait (s : State C) (c : C) (p : Slot) : State C :=
  let kid := fun i => decide ((s.procs i).parent = some p)
  match (List.finRange NPROC).find? fun i => kid i && (s.procs i).state = .zombie with
  | some i => ((s.reap i).setPc p (.ret (s.procs i).pid)).release
  | none =>
    if !(List.finRange NPROC).any kid || (s.procs p).killed then
      (s.setPc p (.ret (-1))).release
    else
      s.sleep c p (.proc p) .waiting

def kill (s : State C) (p : Slot) (pid : BitVec 32) : State C :=
  match (List.finRange NPROC).find? fun i => (s.procs i).pid = pid with
  | none => s.setPc p (.ret (-1))
  | some i =>
    let x := s.procs i
    let state := if x.state = .sleeping then .runnable else x.state
    (s.setProc i { x with killed := true, state := state }).setPc p (.ret 0)

def yield (s : State C) (c : C) (p : Slot) : State C :=
  let x := s.procs p
  (s.setProc p { x with state := .runnable, pc := .yielding x.pc }).sched c p

def unfork (s : State C) (p np : Slot) : State C :=
  (s.setProc np { s.procs np with state := .unused }).setPc p (.ret (-1))

/-- One round of `scheduler` on the CPU `c`. -/
def scheduler (s : State C) (c : C) : Option (State C) :=
  match s.cpus c with
  | ⟨some _, _⟩ => none
  | ⟨none, none⟩ =>
    if s.lock = none then
      some { s with cpus := update s.cpus c ⟨none, some 0⟩, lock := some c }
    else
      none
  | ⟨none, some k⟩ =>
    if hk : k < NPROC then
      let i : Slot := ⟨k, hk⟩
      if (s.procs i).state = .runnable then
        let s' := s.setProc i { s.procs i with state := .running }
        some { s' with cpus := update s.cpus c ⟨some i, none⟩ }
      else
        some { s with cpus := update s.cpus c ⟨none, some (k + 1)⟩ }
    else
      some { s with cpus := update s.cpus c ⟨none, none⟩, lock := none }

end State

def Pc.preemptible : Pc → Bool
  | .user => true
  | .forkStack _ => true
  | .forkCopy _ => true
  | .forkReady _ => true
  | .ret _ => true
  | _ => false

variable {C : Type} [DecidableEq C]

/-- The process `p` on the CPU `c` makes a call; each begins by taking `ptable.lock`. -/
def call (s : State C) (c : C) (p : Slot) (cl : Call) : Outcome (State C) Unit :=
  if s.lock ≠ none then .blocked
  else if cl = .yield then
    if (s.procs p).pc.preemptible then .ok () (s.yield c p) else .blocked
  else if (s.procs p).pc ≠ .user then .blocked
  else
    match cl with
    | .fork => .ok () (s.allocproc p)
    | .exit => if p = s.initproc then .panic "init exiting" else .ok () (s.exit c p)
    | .wait => .ok () { s.setPc p .waitScan with lock := some c }
    | .kill pid => .ok () (s.kill p pid)
    | .sleep a => .ok () (s.sleep c p (.addr a) .sleeping)
    | .yield => .blocked

/-- The process `p` on the CPU `c` goes on. -/
def proceed (s : State C) (c : C) (p : Slot) (ok : Bool) : Outcome (State C) Unit :=
  let x := s.procs p
  match x.pc with
  | .user => .blocked
  | .forkStack np =>
    .ok () (if ok then (s.setPc np .forkret).setPc p (.forkCopy np) else s.unfork p np)
  | .forkCopy np =>
    .ok () (if ok then
      (s.setProc np { s.procs np with parent := some p }).setPc p (.forkReady np)
    else s.unfork p np)
  | .forkReady np =>
    if s.lock = none then
      .ok () ((s.setProc np { s.procs np with state := .runnable }).setPc p (.ret (s.procs np).pid))
    else
      .blocked
  | .ret _ => .ok () (s.setPc p .user)
  | .exited => .panic "zombie exit"
  | pc =>
    -- back from `swtch`, or in the loop of `wait`: the lock is held
    if s.lock ≠ some c then .panic "release"
    else
      match pc with
      | .waitScan => .ok () (s.wait c p)
      | .waiting => .ok () (s.setProc p { x with chan := none, pc := .waitScan })
      | .sleeping => .ok () (s.setProc p { x with chan := none, pc := .user }).release
      | .yielding pc => .ok () (s.setPc p pc).release
      | _ => .ok () (s.setPc p .user).release

def step (s : State C) : Action C → Outcome (State C) Unit
  | .sched c =>
    match s.scheduler c with
    | some s' => .ok () s'
    | none => .blocked
  | .call c cl =>
    match (s.cpus c).proc with
    | some p => call s c p cl
    | none => .blocked
  | .step c ok =>
    match (s.cpus c).proc with
    | some p => proceed s c p ok
    | none => .blocked
  | .wakeup a => if s.lock = none then .ok () (s.wakeup1 (some (.addr a))) else .blocked

inductive Moves (s : State C) : Action C → State C → Prop where
  | acquire {c : C} (hcpu : (s.cpus c).proc = none) : Moves s (.sched c)
      { s with cpus := update s.cpus c ⟨none, some 0⟩, lock := some c }
  | skip {c : C} {k : Nat} (hcpu : (s.cpus c).proc = none) : Moves s (.sched c)
      { s with cpus := update s.cpus c ⟨none, some (k + 1)⟩ }
  | loop {c : C} (hcpu : (s.cpus c).proc = none) : Moves s (.sched c)
      { s with cpus := update s.cpus c ⟨none, none⟩, lock := none }
  | dispatch {c : C} {i : Slot} (hcpu : (s.cpus c).proc = none)
      (hstate : (s.procs i).state = .runnable) : Moves s (.sched c)
      { s.setProc i { s.procs i with state := .running } with
        cpus := update s.cpus c ⟨some i, none⟩ }
  | yield {c : C} {p : Slot} (hcpu : (s.cpus c).proc = some p) :
      Moves s (.call c .yield) (s.yield c p)
  | fork {c : C} {p : Slot} (hcpu : (s.cpus c).proc = some p) (hpc : (s.procs p).pc = .user) :
      Moves s (.call c .fork) (s.allocproc p)
  | exit {c : C} {p : Slot} (hcpu : (s.cpus c).proc = some p) (hpc : (s.procs p).pc = .user)
      (hinit : p ≠ s.initproc) : Moves s (.call c .exit) (s.exit c p)
  | wait {c : C} {p : Slot} (hcpu : (s.cpus c).proc = some p) (hpc : (s.procs p).pc = .user) :
      Moves s (.call c .wait) { s.setPc p .waitScan with lock := some c }
  | kill {c : C} {p : Slot} {pid : BitVec 32} (hcpu : (s.cpus c).proc = some p)
      (hpc : (s.procs p).pc = .user) : Moves s (.call c (.kill pid)) (s.kill p pid)
  | sleep {c : C} {p : Slot} {a : Nat} (hcpu : (s.cpus c).proc = some p)
      (hpc : (s.procs p).pc = .user) :
      Moves s (.call c (.sleep a)) (s.sleep c p (.addr a) .sleeping)
  | stack {c : C} {p np : Slot} (hcpu : (s.cpus c).proc = some p)
      (hpc : (s.procs p).pc = .forkStack np) :
      Moves s (.step c true) ((s.setPc np .forkret).setPc p (.forkCopy np))
  | noStack {c : C} {p np : Slot} (hcpu : (s.cpus c).proc = some p)
      (hpc : (s.procs p).pc = .forkStack np) : Moves s (.step c false) (s.unfork p np)
  | copy {c : C} {p np : Slot} (hcpu : (s.cpus c).proc = some p)
      (hpc : (s.procs p).pc = .forkCopy np) : Moves s (.step c true)
      ((s.setProc np { s.procs np with parent := some p }).setPc p (.forkReady np))
  | noCopy {c : C} {p np : Slot} (hcpu : (s.cpus c).proc = some p)
      (hpc : (s.procs p).pc = .forkCopy np) : Moves s (.step c false) (s.unfork p np)
  | ready {c : C} {ok : Bool} {p np : Slot} (hcpu : (s.cpus c).proc = some p)
      (hpc : (s.procs p).pc = .forkReady np) : Moves s (.step c ok)
      ((s.setProc np { s.procs np with state := .runnable }).setPc p (.ret (s.procs np).pid))
  | ret {c : C} {ok : Bool} {p : Slot} {r : BitVec 32} (hcpu : (s.cpus c).proc = some p)
      (hpc : (s.procs p).pc = .ret r) : Moves s (.step c ok) (s.setPc p .user)
  | scan {c : C} {ok : Bool} {p : Slot} (hcpu : (s.cpus c).proc = some p)
      (hpc : (s.procs p).pc = .waitScan) : Moves s (.step c ok) (s.wait c p)
  | waiting {c : C} {ok : Bool} {p : Slot} (hcpu : (s.cpus c).proc = some p)
      (hpc : (s.procs p).pc = .waiting) : Moves s (.step c ok)
      (s.setProc p { s.procs p with chan := none, pc := .waitScan })
  | sleeping {c : C} {ok : Bool} {p : Slot} (hcpu : (s.cpus c).proc = some p)
      (hpc : (s.procs p).pc = .sleeping) : Moves s (.step c ok)
      (s.setProc p { s.procs p with chan := none, pc := .user }).release
  | yielding {c : C} {ok : Bool} {p : Slot} {pc : Pc} (hcpu : (s.cpus c).proc = some p)
      (hpc : (s.procs p).pc = .yielding pc) : Moves s (.step c ok) (s.setPc p pc).release
  | forkret {c : C} {ok : Bool} {p : Slot} (hcpu : (s.cpus c).proc = some p)
      (hpc : (s.procs p).pc = .forkret) : Moves s (.step c ok) (s.setPc p .user).release
  | wakeup {a : Nat} : Moves s (.wakeup a) (s.wakeup1 (some (.addr a)))

section Inversion

variable {s s' : State C} {c : C} {p : Slot}

theorem moves_scheduler (h : s.scheduler c = some s') : Moves s (.sched c) s' := by
  rcases hcpu : s.cpus c with ⟨_ | p, _ | k⟩
  · simp only [State.scheduler, hcpu] at h
    split_ifs at h
    cases h
    exact .acquire (by rw [hcpu])
  · simp only [State.scheduler, hcpu] at h
    split_ifs at h with hk hstate
    · cases h
      exact .dispatch (by rw [hcpu]) hstate
    · cases h
      exact .skip (by rw [hcpu])
    · cases h
      exact .loop (by rw [hcpu])
  · simp [State.scheduler, hcpu] at h
  · simp [State.scheduler, hcpu] at h

theorem moves_call {cl : Call} (hcpu : (s.cpus c).proc = some p)
    (h : call s c p cl = .ok () s') : Moves s (.call c cl) s' := by
  unfold call at h
  by_cases hlock : s.lock ≠ none
  · rw [if_pos hlock] at h
    cases h
  rw [if_neg hlock] at h
  by_cases hyield : cl = .yield
  · rw [if_pos hyield] at h
    split_ifs at h
    cases h
    rw [hyield]
    exact .yield hcpu
  rw [if_neg hyield] at h
  by_cases hpc : (s.procs p).pc = .user
  · rw [if_neg (not_not.mpr hpc)] at h
    cases cl with
    | fork =>
      cases h
      exact .fork hcpu hpc
    | exit =>
      simp only at h
      split_ifs at h with hinit
      cases h
      exact .exit hcpu hpc hinit
    | wait =>
      cases h
      exact .wait hcpu hpc
    | kill pid =>
      cases h
      exact .kill hcpu hpc
    | sleep a =>
      cases h
      exact .sleep hcpu hpc
    | yield => cases h
  · rw [if_pos hpc] at h
    cases h

theorem moves_proceed {ok : Bool} (hcpu : (s.cpus c).proc = some p)
    (h : proceed s c p ok = .ok () s') : Moves s (.step c ok) s' := by
  unfold proceed at h
  cases hpc : (s.procs p).pc with
  | user | exited => simp [hpc] at h
  | forkStack np =>
    simp only [hpc, Outcome.ok.injEq, true_and] at h
    subst h
    cases ok with
    | true => exact .stack hcpu hpc
    | false => exact .noStack hcpu hpc
  | forkCopy np =>
    simp only [hpc, Outcome.ok.injEq, true_and] at h
    subst h
    cases ok with
    | true => exact .copy hcpu hpc
    | false => exact .noCopy hcpu hpc
  | forkReady np =>
    simp only [hpc] at h
    split_ifs at h
    cases h
    exact .ready hcpu hpc
  | ret r =>
    simp only [hpc, Outcome.ok.injEq, true_and] at h
    subst h
    exact .ret hcpu hpc
  | waitScan =>
    simp only [hpc] at h
    split_ifs at h
    cases h
    exact .scan hcpu hpc
  | waiting =>
    simp only [hpc] at h
    split_ifs at h
    cases h
    exact .waiting hcpu hpc
  | sleeping =>
    simp only [hpc] at h
    split_ifs at h
    cases h
    exact .sleeping hcpu hpc
  | yielding pc =>
    simp only [hpc] at h
    split_ifs at h
    cases h
    exact .yielding hcpu hpc
  | forkret =>
    simp only [hpc] at h
    split_ifs at h
    cases h
    exact .forkret hcpu hpc

theorem moves_of_step {a : Action C} (h : step s a = .ok () s') : Moves s a s' := by
  cases a with
  | sched c =>
    simp only [step] at h
    split at h
    · rename_i t ht
      cases h
      exact moves_scheduler ht
    · cases h
  | call c cl =>
    simp only [step] at h
    split at h
    · rename_i p hcpu
      exact moves_call hcpu h
    · cases h
  | step c ok =>
    simp only [step] at h
    split at h
    · rename_i p hcpu
      exact moves_proceed hcpu h
    · cases h
  | wakeup a =>
    simp only [step] at h
    split_ifs at h
    cases h
    exact .wakeup

end Inversion

def init : State C where
  procs := fun i =>
    if i = 0 then ⟨.runnable, 1, none, none, false, .forkret⟩
    else ⟨.unused, 0, none, none, false, .user⟩
  cpus := fun _ => ⟨none, none⟩
  lock := none
  nextpid := 2
  initproc := 0

end Xv6.Ptable
