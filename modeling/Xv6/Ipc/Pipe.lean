import Xv6.Lib.Ring
import Xv6.Lib.Transition

/-!
# Pipes

The functions of `pipe.c` on one pipe, executed by any number of processes.  A
process is at a point of one of the functions; a step takes it to the next point.
Points are the places where a process may have to wait for `p->lock` or for
`ptable.lock`, the tests, and the rounds of the loops.  `sleep` takes `ptable.lock`
before it releases `p->lock`, and `wakeup` and `kill` need `ptable.lock`.
-/

namespace Xv6.Ipc

open Lib Function

abbrev Byte := BitVec 8

abbrev PIPESIZE : Nat := 512

inductive Chan where
  | nread
  | nwrite
  deriving DecidableEq

structure Pipe where
  data : Nat → Byte
  nread : BitVec 32
  nwrite : BitVec 32
  readopen : Bool
  writeopen : Bool

/-- `p->nwrite == p->nread + PIPESIZE` -/
def Pipe.full (p : Pipe) : Prop := p.nwrite = p.nread + BitVec.ofNat 32 PIPESIZE

instance (p : Pipe) : Decidable p.full := inferInstanceAs (Decidable (_ = _))

/-- `p->nread == p->nwrite` -/
def Pipe.empty (p : Pipe) : Prop := p.nread = p.nwrite

instance (p : Pipe) : Decidable p.empty := inferInstanceAs (Decidable (_ = _))

/-- `p->data[p->nwrite++ % PIPESIZE] = b` -/
def Pipe.store (p : Pipe) (b : Byte) : Pipe :=
  { p with
    data := update p.data (p.nwrite.toNat % PIPESIZE) b
    nwrite := p.nwrite + 1 }

/-- `p->data[p->nread % PIPESIZE]` -/
def Pipe.front (p : Pipe) : Byte := p.data (p.nread.toNat % PIPESIZE)

def Pipe.fetch (p : Pipe) : Pipe := { p with nread := p.nread + 1 }

def Pipe.buffered (p : Pipe) : List Byte := ringContents PIPESIZE p.data p.nread p.nwrite

inductive WriteAt where
  /-- `acquire(&p->lock)`, on entry and at the end of `sleep` -/
  | acquire
  /-- the test of the `for`, the test of the `while` and the store -/
  | loop
  | full
  | wakeup
  /-- `acquire(&ptable.lock)` and `release(lk)` in `sleep` -/
  | sleep
  | sched
  | done
  /-- `release(&p->lock)` before the function returns `r` -/
  | release (r : Int)

inductive ReadAt where
  | acquire
  | test
  | killed
  | sleep
  | sched
  | copy
  | wakeup
  | release (r : Int)

inductive CloseAt where
  | acquire
  | wakeup
  | release

/-- Where a process is, with the arguments and local variables of the function. -/
inductive Pc where
  | idle
  | write (addr : Nat → Byte) (n : Int) (i : Nat) (point : WriteAt)
  | read (n : Int) (got : List Byte) (point : ReadAt)
  | close (writable : Bool) (point : CloseAt)
  | returned (r : Int)

structure Proc where
  pc : Pc
  sleeping : Option Chan
  killed : Bool

structure Shared (P : Type) where
  pipe : Pipe
  freed : Bool
  lock : Option P
  ptable : Option P

structure State (P : Type) extends Shared P where
  procs : P → Proc

/-- What a step does to the shared state and the process that takes it. -/
structure Move (P : Type) where
  shared : Shared P
  pc : Pc
  sleep : Option Chan := none
  wake : Option Chan := none

variable {P : Type} {n : Int}

section Moves

variable (me : P) (killed : Bool) (g : Shared P)

/-- `acquire(&p->lock)` -/
def acquireLock (pc : Pc) : Option (Move P) :=
  if g.lock = none ∧ g.freed = false then
    some { shared := { g with lock := some me }, pc := pc }
  else
    none

def releaseLock (pc : Pc) : Move P := { shared := { g with lock := none }, pc := pc }

def wakeup (chan : Chan) (pc : Pc) : Option (Move P) :=
  if g.ptable = none then some { shared := g, pc := pc, wake := some chan } else none

def sleepLock (pc : Pc) : Option (Move P) :=
  if g.ptable = none then
    some { shared := { g with ptable := some me, lock := none }, pc := pc }
  else
    none

/-- The second half of `sleep`; the process goes on at `pc` when it is woken. -/
def sleepSched (chan : Chan) (pc : Pc) : Move P :=
  { shared := { g with ptable := none }, pc := pc, sleep := some chan }

def pipewrite (addr : Nat → Byte) (n : Int) (i : Nat) : WriteAt → Option (Move P)
  | .acquire => acquireLock me g (.write addr n i .loop)
  | .loop =>
    if i < n then
      if g.pipe.full then
        some { shared := g, pc := .write addr n i .full }
      else
        some { shared := { g with pipe := g.pipe.store (addr i) }
               pc := .write addr n (i + 1) .loop }
    else
      some { shared := g, pc := .write addr n i .done }
  | .full =>
    if g.pipe.readopen = false ∨ killed = true then
      some { shared := g, pc := .write addr n i (.release (-1)) }
    else
      some { shared := g, pc := .write addr n i .wakeup }
  | .wakeup => wakeup g .nread (.write addr n i .sleep)
  | .sleep => sleepLock me g (.write addr n i .sched)
  | .sched => some (sleepSched g .nwrite (.write addr n i .acquire))
  | .done => wakeup g .nread (.write addr n i (.release n))
  | .release r => some (releaseLock g (.returned r))

def piperead (n : Int) (got : List Byte) : ReadAt → Option (Move P)
  | .acquire => acquireLock me g (.read n got .test)
  | .test =>
    if g.pipe.empty ∧ g.pipe.writeopen = true then
      some { shared := g, pc := .read n got .killed }
    else
      some { shared := g, pc := .read n got .copy }
  | .killed =>
    if killed = true then
      some { shared := g, pc := .read n got (.release (-1)) }
    else
      some { shared := g, pc := .read n got .sleep }
  | .sleep => sleepLock me g (.read n got .sched)
  | .sched => some (sleepSched g .nread (.read n got .acquire))
  | .copy =>
    if got.length < n ∧ ¬ g.pipe.empty then
      some { shared := { g with pipe := g.pipe.fetch }
             pc := .read n (got ++ [g.pipe.front]) .copy }
    else
      some { shared := g, pc := .read n got .wakeup }
  | .wakeup => wakeup g .nwrite (.read n got (.release got.length))
  | .release r => some (releaseLock g (.returned r))

def pipeclose (writable : Bool) : CloseAt → Option (Move P)
  | .acquire =>
    (acquireLock me g (.close writable .wakeup)).map fun m =>
      let p := g.pipe
      { m with shared := { m.shared with
          pipe := if writable then { p with writeopen := false }
            else { p with readopen := false } } }
  | .wakeup => wakeup g (if writable then .nread else .nwrite) (.close writable .release)
  | .release =>
    let m := releaseLock g (.returned 0)
    if g.pipe.readopen = false ∧ g.pipe.writeopen = false then
      some { m with shared := { m.shared with freed := true } }
    else
      some m

def move : Pc → Option (Move P)
  | .idle => none
  | .write addr n i point => pipewrite me killed g addr n i point
  | .read n got point => piperead me killed g n got point
  | .close writable point => pipeclose me g writable point
  | .returned _ => some { shared := g, pc := .idle }

end Moves

/-- The points at which a process holds `p->lock`. -/
def Pc.critical : Pc → Bool
  | .write _ _ _ point =>
    match point with
    | .acquire => false
    | .sched => false
    | _ => true
  | .read _ _ point =>
    match point with
    | .acquire => false
    | .sched => false
    | _ => true
  | .close _ point =>
    match point with
    | .acquire => false
    | _ => true
  | _ => false

/-- The channel of a `sleep` that has released `p->lock` and holds `ptable.lock`. -/
def Pc.committed : Pc → Option Chan
  | .write _ _ _ .sched => some .nwrite
  | .read _ _ .sched => some .nread
  | _ => none

/-- The steps of a process, one constructor for each outcome of a test. -/
inductive Moves (me : P) (killed : Bool) (g : Shared P) : Pc → Move P → Prop where
  | writeAcquire {addr : Nat → Byte} {n : Int} {i : Nat} (hlock : g.lock = none)
      (hfreed : g.freed = false) : Moves me killed g (.write addr n i .acquire)
        { shared := { g with lock := some me }, pc := .write addr n i .loop }
  | writeFull {addr : Nat → Byte} {n : Int} {i : Nat} (hi : (i : Int) < n)
      (hfull : g.pipe.full) : Moves me killed g (.write addr n i .loop)
        { shared := g, pc := .write addr n i .full }
  | writeStore {addr : Nat → Byte} {n : Int} {i : Nat} (hi : (i : Int) < n)
      (hfull : ¬ g.pipe.full) : Moves me killed g (.write addr n i .loop)
        { shared := { g with pipe := g.pipe.store (addr i) }, pc := .write addr n (i + 1) .loop }
  | writeEnd {addr : Nat → Byte} {n : Int} {i : Nat} (hi : n ≤ (i : Int)) :
      Moves me killed g (.write addr n i .loop) { shared := g, pc := .write addr n i .done }
  | writeGiveUp {addr : Nat → Byte} {n : Int} {i : Nat}
      (hwhy : g.pipe.readopen = false ∨ killed = true) :
      Moves me killed g (.write addr n i .full)
        { shared := g, pc := .write addr n i (.release (-1)) }
  | writeStay {addr : Nat → Byte} {n : Int} {i : Nat} (hopen : g.pipe.readopen = true) :
      Moves me killed g (.write addr n i .full) { shared := g, pc := .write addr n i .wakeup }
  | writeWake {addr : Nat → Byte} {n : Int} {i : Nat} (hptable : g.ptable = none) :
      Moves me killed g (.write addr n i .wakeup)
        { shared := g, pc := .write addr n i .sleep, wake := some .nread }
  | writeSleep {addr : Nat → Byte} {n : Int} {i : Nat} (hptable : g.ptable = none) :
      Moves me killed g (.write addr n i .sleep)
        { shared := { g with ptable := some me, lock := none }, pc := .write addr n i .sched }
  | writeSched {addr : Nat → Byte} {n : Int} {i : Nat} :
      Moves me killed g (.write addr n i .sched)
        { shared := { g with ptable := none }, pc := .write addr n i .acquire
          sleep := some .nwrite }
  | writeDone {addr : Nat → Byte} {n : Int} {i : Nat} (hptable : g.ptable = none) :
      Moves me killed g (.write addr n i .done)
        { shared := g, pc := .write addr n i (.release n), wake := some .nread }
  | writeRelease {addr : Nat → Byte} {n : Int} {i : Nat} {r : Int} :
      Moves me killed g (.write addr n i (.release r))
        { shared := { g with lock := none }, pc := .returned r }
  | readAcquire {n : Int} {got : List Byte} (hlock : g.lock = none) (hfreed : g.freed = false) :
      Moves me killed g (.read n got .acquire)
        { shared := { g with lock := some me }, pc := .read n got .test }
  | readEmpty {n : Int} {got : List Byte} (hempty : g.pipe.empty)
      (hopen : g.pipe.writeopen = true) :
      Moves me killed g (.read n got .test) { shared := g, pc := .read n got .killed }
  | readReady {n : Int} {got : List Byte} (hready : ¬ (g.pipe.empty ∧ g.pipe.writeopen = true)) :
      Moves me killed g (.read n got .test) { shared := g, pc := .read n got .copy }
  | readKilled {n : Int} {got : List Byte} :
      Moves me killed g (.read n got .killed) { shared := g, pc := .read n got (.release (-1)) }
  | readStay {n : Int} {got : List Byte} :
      Moves me killed g (.read n got .killed) { shared := g, pc := .read n got .sleep }
  | readSleep {n : Int} {got : List Byte} (hptable : g.ptable = none) :
      Moves me killed g (.read n got .sleep)
        { shared := { g with ptable := some me, lock := none }, pc := .read n got .sched }
  | readSched {n : Int} {got : List Byte} : Moves me killed g (.read n got .sched)
        { shared := { g with ptable := none }, pc := .read n got .acquire, sleep := some .nread }
  | readFetch {n : Int} {got : List Byte} (hlen : (got.length : Int) < n)
      (hempty : ¬ g.pipe.empty) : Moves me killed g (.read n got .copy)
        { shared := { g with pipe := g.pipe.fetch }
          pc := .read n (got ++ [g.pipe.front]) .copy }
  | readEnd {n : Int} {got : List Byte} (hend : n ≤ (got.length : Int) ∨ g.pipe.empty) :
      Moves me killed g (.read n got .copy) { shared := g, pc := .read n got .wakeup }
  | readWake {n : Int} {got : List Byte} (hptable : g.ptable = none) :
      Moves me killed g (.read n got .wakeup)
        { shared := g, pc := .read n got (.release got.length), wake := some .nwrite }
  | readRelease {n : Int} {got : List Byte} {r : Int} :
      Moves me killed g (.read n got (.release r))
        { shared := { g with lock := none }, pc := .returned r }
  | closeWrite (hlock : g.lock = none) (hfreed : g.freed = false) :
      Moves me killed g (.close true .acquire)
        { shared := { g with lock := some me, pipe := { g.pipe with writeopen := false } }
          pc := .close true .wakeup }
  | closeRead (hlock : g.lock = none) (hfreed : g.freed = false) :
      Moves me killed g (.close false .acquire)
        { shared := { g with lock := some me, pipe := { g.pipe with readopen := false } }
          pc := .close false .wakeup }
  | closeWake {writable : Bool} (hptable : g.ptable = none) :
      Moves me killed g (.close writable .wakeup)
        { shared := g, pc := .close writable .release
          wake := some (if writable then .nread else .nwrite) }
  | closeRelease {writable : Bool} (freed : Bool) :
      Moves me killed g (.close writable .release)
        { shared := { g with lock := none, freed := freed }, pc := .returned 0 }
  | returned {r : Int} : Moves me killed g (.returned r) { shared := g, pc := .idle }

section Inversion

variable {me : P} {killed : Bool} {g : Shared P} {m : Move P}

theorem moves_pipewrite {addr : Nat → Byte} {i : Nat} {point : WriteAt}
    (h : pipewrite me killed g addr n i point = some m) :
    Moves me killed g (.write addr n i point) m := by
  cases point with
  | acquire =>
    simp only [pipewrite, acquireLock] at h
    split_ifs at h with hfree
    cases h
    exact .writeAcquire hfree.1 hfree.2
  | loop =>
    simp only [pipewrite] at h
    split_ifs at h with hi hfull
    · cases h
      exact .writeFull hi hfull
    · cases h
      exact .writeStore hi hfull
    · cases h
      exact .writeEnd (by omega)
  | full =>
    simp only [pipewrite] at h
    split_ifs at h with hwhy
    · cases h
      exact .writeGiveUp hwhy
    · cases h
      refine .writeStay ?_
      by_contra hcon
      exact hwhy (Or.inl (by simpa using hcon))
  | wakeup =>
    simp only [pipewrite, wakeup] at h
    split_ifs at h with hptable
    cases h
    exact .writeWake hptable
  | sleep =>
    simp only [pipewrite, sleepLock] at h
    split_ifs at h with hptable
    cases h
    exact .writeSleep hptable
  | sched =>
    cases h
    exact .writeSched
  | done =>
    simp only [pipewrite, wakeup] at h
    split_ifs at h with hptable
    cases h
    exact .writeDone hptable
  | release r =>
    cases h
    exact .writeRelease

theorem moves_piperead {got : List Byte} {point : ReadAt}
    (h : piperead me killed g n got point = some m) : Moves me killed g (.read n got point) m := by
  cases point with
  | acquire =>
    simp only [piperead, acquireLock] at h
    split_ifs at h with hfree
    cases h
    exact .readAcquire hfree.1 hfree.2
  | test =>
    simp only [piperead] at h
    split_ifs at h with hempty
    · cases h
      exact .readEmpty hempty.1 hempty.2
    · cases h
      exact .readReady hempty
  | killed =>
    simp only [piperead] at h
    split_ifs at h
    · cases h
      exact .readKilled
    · cases h
      exact .readStay
  | sleep =>
    simp only [piperead, sleepLock] at h
    split_ifs at h with hptable
    cases h
    exact .readSleep hptable
  | sched =>
    cases h
    exact .readSched
  | copy =>
    simp only [piperead] at h
    split_ifs at h with hcopy
    · cases h
      exact .readFetch hcopy.1 hcopy.2
    · cases h
      refine .readEnd ?_
      by_contra hcon
      simp only [not_or, not_le] at hcon
      exact hcopy hcon
  | wakeup =>
    simp only [piperead, wakeup] at h
    split_ifs at h with hptable
    cases h
    exact .readWake hptable
  | release r =>
    cases h
    exact .readRelease

theorem moves_pipeclose {writable : Bool} {point : CloseAt}
    (h : pipeclose me g writable point = some m) : Moves me killed g (.close writable point) m := by
  cases point with
  | acquire =>
    by_cases hfree : g.lock = none ∧ g.freed = false
    · simp only [pipeclose, acquireLock, if_pos hfree, Option.map_some, Option.some.injEq] at h
      subst h
      cases writable with
      | true => exact .closeWrite hfree.1 hfree.2
      | false => exact .closeRead hfree.1 hfree.2
    · simp [pipeclose, acquireLock, if_neg hfree] at h
  | wakeup =>
    by_cases hptable : g.ptable = none
    · simp only [pipeclose, wakeup, if_pos hptable, Option.some.injEq] at h
      subst h
      exact .closeWake hptable
    · simp [pipeclose, wakeup, if_neg hptable] at h
  | release =>
    simp only [pipeclose, releaseLock] at h
    split_ifs at h
    · cases h
      exact .closeRelease true
    · cases h
      exact .closeRelease g.freed

theorem moves_of_move {pc : Pc} (h : move me killed g pc = some m) : Moves me killed g pc m := by
  cases pc with
  | idle => cases h
  | write addr n i point => exact moves_pipewrite h
  | read n got point => exact moves_piperead h
  | close writable point => exact moves_pipeclose h
  | returned r =>
    cases h
    exact .returned

end Inversion

section Locks

variable {me : P} {killed : Bool} {g : Shared P} {pc : Pc} {m : Move P}

variable (h : Moves me killed g pc m)

include h

theorem Moves.lock (hlock : pc.critical = true → g.lock = some me) :
    m.pc.critical = true ∧ m.shared.lock = some me ∧ (g.lock = none ∨ g.lock = some me) ∨
    ¬ m.pc.critical = true ∧ (pc.critical = true ∧ m.shared.lock = none ∨
      ¬ pc.critical = true ∧ m.shared.lock = g.lock) := by
  cases h <;> simp_all [Pc.critical]

theorem Moves.ptable (hptable : pc.committed ≠ none → g.ptable = some me) :
    m.pc.committed ≠ none ∧ m.shared.ptable = some me ∧ (g.ptable = none ∨ g.ptable = some me) ∨
    ¬ m.pc.committed ≠ none ∧ (pc.committed ≠ none ∧ m.shared.ptable = none ∨
      ¬ pc.committed ≠ none ∧ m.shared.ptable = g.ptable) := by
  cases h <;> simp_all [Pc.committed]

theorem Moves.pipe (hlock : pc.critical = true → g.lock = some me) :
    m.shared.pipe = g.pipe ∨ g.lock = none ∨ g.lock = some me := by
  cases h <;> simp_all [Pc.critical]

theorem Moves.sleep (hsleep : m.sleep ≠ none) : m.pc.critical = false ∧ m.pc.committed = none := by
  cases h <;> simp_all [Pc.critical, Pc.committed]

end Locks

inductive Call where
  | pipewrite (addr : Nat → Byte) (n : Int)
  | piperead (n : Int)
  | pipeclose (writable : Bool)

def Call.entry : Call → Pc
  | .pipewrite addr n => .write addr n 0 .acquire
  | .piperead n => .read n [] .acquire
  | .pipeclose writable => .close writable .acquire

inductive Action (P : Type) where
  | start (p : P) (c : Call)
  | step (p : P)
  | kill (p : P)

/-- `wakeup1`: a process that sleeps on the channel is made runnable. -/
def Proc.wake (x : Proc) (chan : Option Chan) : Proc :=
  if x.sleeping ≠ none ∧ x.sleeping = chan then { x with sleeping := none } else x

variable [DecidableEq P]

/-- Process `p` makes the move `m`. -/
def State.apply (s : State P) (p : P) (m : Move P) : State P where
  toShared := m.shared
  procs := fun q =>
    if q = p then { s.procs p with pc := m.pc, sleeping := m.sleep } else (s.procs q).wake m.wake

def step (s : State P) : Action P → Outcome (State P) Unit
  | .start p c =>
    match (s.procs p).pc with
    | .idle => .ok () { s with procs := update s.procs p { s.procs p with pc := c.entry } }
    | _ => .blocked
  | .step p =>
    if (s.procs p).sleeping = none then
      match move p (s.procs p).killed s.toShared (s.procs p).pc with
      | some m => .ok () (s.apply p m)
      | none => .blocked
    else
      .blocked
  | .kill p =>
    if s.ptable = none then
      .ok () { s with
        procs := update s.procs p { s.procs p with killed := true, sleeping := none } }
    else
      .blocked

/-- After `pipealloc`, with any bytes in the buffer and any processes killed already. -/
def init (data : Nat → Byte) (killed : P → Bool) : State P where
  pipe := ⟨data, 0, 0, true, true⟩
  freed := false
  lock := none
  ptable := none
  procs := fun p => ⟨.idle, none, killed p⟩

theorem step_cases {s s' : State P} {a : Action P} (h : step s a = .ok () s') :
    (∃ p c, a = .start p c ∧ (s.procs p).pc = .idle ∧
      s' = { s with procs := update s.procs p { s.procs p with pc := c.entry } }) ∨
    (∃ p m, a = .step p ∧ (s.procs p).sleeping = none ∧
      move p (s.procs p).killed s.toShared (s.procs p).pc = some m ∧ s' = s.apply p m) ∨
    ∃ p, a = .kill p ∧ s.ptable = none ∧ s' = { s with
      procs := update s.procs p { s.procs p with killed := true, sleeping := none } } := by
  cases a with
  | start p c =>
    left
    simp only [step] at h
    split at h
    · rename_i hidle
      cases h
      exact ⟨p, c, rfl, hidle, rfl⟩
    · cases h
  | step p =>
    right
    left
    simp only [step] at h
    split_ifs at h with hawake
    split at h
    · rename_i m hm
      cases h
      exact ⟨p, m, rfl, hawake, hm, rfl⟩
    · cases h
  | kill p =>
    right
    right
    simp only [step] at h
    split_ifs at h with hfree
    cases h
    exact ⟨p, rfl, hfree, rfl⟩

/-- The locks belong to the processes at the points where the code holds them, and a
process that sleeps is at the point where it takes `p->lock` again. -/
structure Held (s : State P) : Prop where
  critical : ∀ p, (s.procs p).pc.critical = true ↔ s.lock = some p
  committed : ∀ p, (s.procs p).pc.committed ≠ none ↔ s.ptable = some p
  sleeping : ∀ p, (s.procs p).sleeping ≠ none →
    (s.procs p).pc.critical = false ∧ (s.procs p).pc.committed = none

theorem wake_pc (x : Proc) (chan : Option Chan) : (x.wake chan).pc = x.pc := by
  unfold Proc.wake
  split_ifs <;> rfl

theorem wake_sleeping {x : Proc} {chan : Option Chan} {c : Chan}
    (h : (x.wake chan).sleeping = some c) : x.sleeping = some c ∧ chan ≠ some c := by
  unfold Proc.wake at h
  split_ifs at h with hwake
  refine ⟨h, ?_⟩
  rintro rfl
  exact hwake ⟨by simp [h], h⟩

namespace State

variable {s : State P} {p q : P} {m : Move P}

theorem apply_self : (s.apply p m).procs p = { s.procs p with pc := m.pc, sleeping := m.sleep } :=
  if_pos rfl

theorem apply_of_ne (hq : q ≠ p) : (s.apply p m).procs q = (s.procs q).wake m.wake := if_neg hq

theorem apply_pc_of_ne (hq : q ≠ p) : ((s.apply p m).procs q).pc = (s.procs q).pc := by
  rw [apply_of_ne hq, wake_pc]

end State

theorem entry_free (c : Call) : c.entry.critical = false ∧ c.entry.committed = none := by
  cases c <;> exact ⟨rfl, rfl⟩

omit [DecidableEq P] in
theorem held_init (data : Nat → Byte) (killed : P → Bool) : Held (init data killed) := by
  refine ⟨?_, ?_, ?_⟩ <;> simp [init, Pc.critical, Pc.committed]

theorem owner_update {lock lock' : Option P} {holds holds' : P → Prop} {p : P}
    (h : ∀ q, holds q ↔ lock = some q) (hother : ∀ q, q ≠ p → (holds' q ↔ holds q))
    (hmove : holds' p ∧ lock' = some p ∧ (lock = none ∨ lock = some p) ∨
      ¬ holds' p ∧ (holds p ∧ lock' = none ∨ ¬ holds p ∧ lock' = lock)) (q : P) :
    holds' q ↔ lock' = some q := by
  by_cases hq : q = p
  · subst hq
    rcases hmove with ⟨hh, hl, -⟩ | ⟨hh, ⟨-, hl⟩ | ⟨hno, hl⟩⟩
    · exact iff_of_true hh hl
    · exact iff_of_false hh (by simp [hl])
    · rw [hl, ← h q]
      exact iff_of_false hh hno
  · rw [hother q hq, h q]
    have hpq : some p ≠ some q := by simpa using Ne.symm hq
    rcases hmove with ⟨-, hl, hwas⟩ | ⟨-, ⟨hyes, hl⟩ | ⟨-, hl⟩⟩
    · rw [hl]
      refine iff_of_false ?_ hpq
      rcases hwas with hwas | hwas
      · simp [hwas]
      · rwa [hwas]
    · rw [hl, (h p).mp hyes]
      exact iff_of_false hpq (by simp)
    · rw [hl]

theorem Held.apply {s : State P} (h : Held s) {p : P} {m : Move P}
    (hm : Moves p (s.procs p).killed s.toShared (s.procs p).pc m) : Held (s.apply p m) := by
  refine ⟨?_, ?_, ?_⟩
  · apply owner_update h.critical
    · intro q hq
      rw [State.apply_pc_of_ne hq]
    · rw [State.apply_self]
      exact hm.lock (h.critical p).mp
  · apply owner_update h.committed
    · intro q hq
      rw [State.apply_pc_of_ne hq]
    · rw [State.apply_self]
      exact hm.ptable (h.committed p).mp
  · intro q hsleep
    by_cases hq : q = p
    · subst hq
      rw [State.apply_self] at hsleep ⊢
      exact hm.sleep hsleep
    · rw [State.apply_pc_of_ne hq]
      apply h.sleeping q
      rw [State.apply_of_ne hq] at hsleep
      obtain ⟨c, hc⟩ := Option.ne_none_iff_exists'.mp hsleep
      rw [(wake_sleeping hc).1]
      simp

theorem Held.congr {s : State P} (h : Held s) {p : P} {x : Proc}
    (hcrit : x.pc.critical = (s.procs p).pc.critical)
    (hcomm : x.pc.committed = (s.procs p).pc.committed)
    (hsleep : x.sleeping = none ∨ x.sleeping = (s.procs p).sleeping) :
    Held { s with procs := update s.procs p x } := by
  refine ⟨?_, ?_, ?_⟩
  · intro q
    have hq := h.critical q
    simp only [update_apply]
    split_ifs with heq
    · rw [hcrit, ← heq]
      exact hq
    · exact hq
  · intro q
    have hq := h.committed q
    simp only [update_apply]
    split_ifs with heq
    · rw [hcomm, ← heq]
      exact hq
    · exact hq
  · intro q
    have hq := h.sleeping q
    simp only [update_apply]
    split_ifs with heq
    · rw [hcrit, hcomm, ← heq]
      rcases hsleep with hsleep | hsleep
      · simp [hsleep]
      · rw [hsleep, ← heq]
        exact hq
    · exact hq

theorem Held.step {s s' : State P} {a : Action P} (h : Held s) (hstep : step s a = .ok () s') :
    Held s' := by
  rcases step_cases hstep with ⟨p, c, -, hidle, rfl⟩ | ⟨p, m, -, -, hm, rfl⟩ | ⟨p, -, -, rfl⟩
  · apply h.congr
    · rw [hidle]
      exact (entry_free c).1
    · rw [hidle]
      exact (entry_free c).2
    · exact Or.inr rfl
  · exact h.apply (moves_of_move hm)
  · exact h.congr rfl rfl (Or.inl rfl)

end Xv6.Ipc
