import Xv6.Block
import Xv6.Lib.Monitor

/-!
# The disk driver

`iderw` and `ideintr` of ide.c, run by any number of processes and interrupt handlers, with
the disk beside them.  `idelock` is the lock of the monitor, and a buffer is its own sleep
channel.  A step of the model is one operation on a spin lock, one group of accesses between
two of them, or one round of a loop.
-/

namespace Xv6.Ide

open Lib Monitor Function

/-- The fields of `struct buf` that the driver reads and writes, apart from `qnext`. -/
structure Buf where
  dev : Nat
  blockno : Nat
  valid : Bool
  dirty : Bool
  data : Block
  deriving DecidableEq

/-- `(b->flags & (B_VALID|B_DIRTY)) == B_VALID`. -/
def Buf.ready (b : Buf) : Bool := b.valid && !b.dirty

def Buf.place (b : Buf) : Nat × Nat := (b.dev % 2, b.blockno)

/-- What `idestart` puts into the registers of the disk; a write brings its data. -/
structure Command where
  place : Nat × Nat
  write : Option Block

/-- The disk: its contents, the last command, whether it is at work on it, whether an
interrupt waits for its handler, and the status and data registers. -/
structure Device where
  disk : Nat × Nat → Block
  cmd : Command
  busy : Bool
  irq : Bool
  err : Bool
  reg : Block

def Device.finish (d : Device) : Device :=
  match d.cmd.write with
  | some data =>
    { d with
      disk := update d.disk d.cmd.place data, busy := false, irq := true, err := false }
  | none => { d with reg := d.disk d.cmd.place, busy := false, irq := true, err := false }

/-- The command fails; what a failed transfer leaves behind is arbitrary. -/
def Device.fail (d : Device) (junk : Block) : Device :=
  match d.cmd.write with
  | some _ =>
    { d with
      disk := update d.disk d.cmd.place junk, busy := false, irq := true, err := true }
  | none => { d with reg := junk, busy := false, irq := true, err := true }

/-- The buffers with the holders of their sleep-locks, the request queue and the disk. -/
structure Data (P B : Type) where
  bufs : B → Buf
  lock : B → Option P
  qnext : B → Option B
  idequeue : Option B
  havedisk1 : Bool
  device : Device

variable {P B : Type} [DecidableEq P] [DecidableEq B]

/-- A pointer to a link of the queue: `&idequeue`, or `&x->qnext`. -/
abbrev Link (B : Type) := Option B

def Data.load (d : Data P B) : Link B → Option B
  | none => d.idequeue
  | some x => d.qnext x

def Data.store (d : Data P B) (pp : Link B) (b : B) : Data P B :=
  match pp with
  | none => { d with idequeue := some b }
  | some x => { d with qnext := update d.qnext x (some b) }

def command (b : Buf) : Command := ⟨b.place, if b.dirty then some b.data else none⟩

/-- Start the request for `b`.  `idewait` spins while the disk is busy. -/
def idestart (d : Data P B) (b : B) : Outcome (Data P B) Unit :=
  if (d.bufs b).blockno ≥ FSSIZE then
    .panic "incorrect blockno"
  else if d.device.busy then
    .blocked
  else
    .ok () { d with device := { d.device with cmd := command (d.bufs b), busy := true } }

/-- The points of `iderw`; `sleep` is the part from `sleepTable` to `reacquire`. -/
inductive Rw (B : Type) where
  | acquire
  | append
  | walk (pp : Link B)
  | start
  | test
  | sleepTable
  | sleepRelease
  | sched
  /-- the scheduler takes `ptable.lock` and runs the process again -/
  | resume
  | tidy
  | reacquire
  | release

/-- The points of `ideintr`; `wakeup` is the part from `wakeTable` to `wakeRelease`. -/
inductive Intr (B : Type) where
  | acquire
  | take
  | wakeTable (b : B)
  | wakeup1 (b : B)
  | wakeRelease
  | start
  | release

/-- Where a thread is.  During and right after `iderw` it remembers the buffer as it was when
`iderw` was called. -/
inductive Pc (B : Type) where
  | idle
  | rw (b : B) (was : Buf) (pt : Rw B)
  | returned (b : B) (was : Buf)
  | intr (pt : Intr B)

/-- What a thread does next: go on, or, outside the driver, lock, fill or release a buffer,
call `iderw`, or take the interrupt. -/
inductive Call (B : Type) where
  | proceed
  | acquiresleep (b : B)
  | releasesleep (b : B)
  | fill (b : B) (buf : Buf)
  | iderw (b : B)
  | interrupt

abbrev DriverMove (P B : Type) := Move (Data P B) (Pc B) B

def rwNext (d : Data P B) (b : B) (was : Buf) : Rw B → Outcome (DriverMove P B) Unit
  | .acquire => .ok () ⟨.acquire, d, .rw b was .append⟩
  | .append =>
    .ok () ⟨.stay, { d with qnext := update d.qnext b none }, .rw b was (.walk none)⟩
  | .walk pp =>
    match d.load pp with
    | some x => .ok () ⟨.stay, d, .rw b was (.walk (some x))⟩
    | none => .ok () ⟨.stay, d.store pp b, .rw b was .start⟩
  | .start =>
    if d.idequeue = some b then
      match idestart d b with
      | .ok _ d' => .ok () ⟨.stay, d', .rw b was .test⟩
      | .blocked => .blocked
      | .panic msg => .panic msg
    else .ok () ⟨.stay, d, .rw b was .test⟩
  | .test => .ok () ⟨.stay, d, .rw b was (if (d.bufs b).ready then .release else .sleepTable)⟩
  | .sleepTable => .ok () ⟨.acquireTable, d, .rw b was .sleepRelease⟩
  | .sleepRelease => .ok () ⟨.release, d, .rw b was .sched⟩
  | .sched => .ok () ⟨.sched b, d, .rw b was .resume⟩
  | .resume => .ok () ⟨.acquireTable, d, .rw b was .tidy⟩
  | .tidy => .ok () ⟨.releaseTable, d, .rw b was .reacquire⟩
  | .reacquire => .ok () ⟨.acquire, d, .rw b was .test⟩
  | .release => .ok () ⟨.release, d, .returned b was⟩

/-- The buffer `b` leaves the queue: data is read if needed, `B_VALID` set, `B_DIRTY`
cleared. -/
def Data.take (d : Data P B) (b : B) : Data P B :=
  let buf := d.bufs b
  let data := if !buf.dirty && !d.device.err then d.device.reg else buf.data
  { d with
    idequeue := d.qnext b
    bufs := update d.bufs b { buf with data := data, valid := true, dirty := false } }

/-- The move of a thread inside `ideintr`. -/
def intrNext (d : Data P B) : Intr B → Outcome (DriverMove P B) Unit
  | .acquire => .ok () ⟨.acquire, d, .intr .take⟩
  | .take =>
    match d.idequeue with
    | none => .ok () ⟨.stay, d, .intr .release⟩
    | some b =>
      -- idewait(1) spins while the disk is busy
      if !(d.bufs b).dirty && d.device.busy then .blocked
      else .ok () ⟨.stay, d.take b, .intr (.wakeTable b)⟩
  | .wakeTable b => .ok () ⟨.acquireTable, d, .intr (.wakeup1 b)⟩
  | .wakeup1 b => .ok () ⟨.wakeup1 b, d, .intr .wakeRelease⟩
  | .wakeRelease => .ok () ⟨.releaseTable, d, .intr .start⟩
  | .start =>
    match d.idequeue with
    | none => .ok () ⟨.stay, d, .intr .release⟩
    | some b =>
      match idestart d b with
      | .ok _ d' => .ok () ⟨.stay, d', .intr .release⟩
      | .blocked => .blocked
      | .panic msg => .panic msg
  | .release => .ok () ⟨.release, d, .idle⟩

/-- The move of a thread outside the driver.  Only the holder of a buffer's sleep-lock
changes it, or anybody while it is not locked. -/
def idleNext (p : P) (d : Data P B) : Call B → Outcome (DriverMove P B) Unit
  | .proceed => .blocked
  | .acquiresleep b =>
    if d.lock b = none then
      .ok () ⟨.stay, { d with lock := update d.lock b (some p) }, .idle⟩
    else .blocked
  | .releasesleep b =>
    if d.lock b = some p then
      .ok () ⟨.stay, { d with lock := update d.lock b none }, .idle⟩
    else .blocked
  | .fill b buf =>
    if d.lock b = none ∨ d.lock b = some p then
      .ok () ⟨.stay, { d with bufs := update d.bufs b buf }, .idle⟩
    else .blocked
  | .iderw b =>
    if d.lock b ≠ some p then .panic "iderw: buf not locked"
    else if (d.bufs b).ready then .panic "iderw: nothing to do"
    else if (d.bufs b).dev ≠ 0 ∧ d.havedisk1 = false then .panic "iderw: ide disk 1 not present"
    else .ok () ⟨.stay, d, .rw b (d.bufs b) .acquire⟩
  | .interrupt =>
    if d.device.irq then
      .ok () ⟨.stay, { d with device := { d.device with irq := false } }, .intr .acquire⟩
    else .blocked

def next (p : P) (d : Data P B) : Call B → Pc B → Outcome (DriverMove P B) Unit
  | call, .idle => idleNext p d call
  | .proceed, .rw b was pt => rwNext d b was pt
  | .proceed, .returned _ _ => .ok () ⟨.stay, d, .idle⟩
  | .proceed, .intr pt => intrNext d pt
  | _, _ => .blocked

abbrev System (P B : Type) := State P (Data P B) (Pc B) B

inductive Act (P B : Type) where
  | run (p : P) (call : Call B)
  | finish
  | fail (junk : Block)
  /-- `kill` of some process, which makes a sleeper `RUNNABLE` -/
  | kill (p : P)

def step (s : System P B) : Act P B → Outcome (System P B) Unit
  | .run p call =>
    match next p s.data call (s.threads p).loc with
    | .ok _ m =>
      match s.apply p m with
      | some s' => .ok () s'
      | none => .blocked
    | .blocked => .blocked
    | .panic msg => .panic msg
  | .finish =>
    if s.data.device.busy then
      .ok () { s with data := { s.data with device := s.data.device.finish } }
    else .blocked
  | .fail junk =>
    if s.data.device.busy then
      .ok () { s with data := { s.data with device := s.data.device.fail junk } }
    else .blocked
  | .kill p => .ok () (s.kill p)

def boot (disk : Nat × Nat → Block) (havedisk1 : Bool) : System P B where
  data :=
    { bufs := fun _ => ⟨0, 0, false, false, 0⟩
      lock := fun _ => none
      qnext := fun _ => none
      idequeue := none
      havedisk1 := havedisk1
      device := ⟨disk, ⟨(0, 0), none⟩, false, false, false, 0⟩ }
  lock := none
  table := none
  threads := fun _ => ⟨.idle, none⟩

/-- The moves of a thread, one constructor for each path through the driver. -/
inductive Moves (p : P) (d : Data P B) : Call B → Pc B → DriverMove P B → Prop
  | acquiresleep (b : B) (hfree : d.lock b = none) : Moves p d (.acquiresleep b) .idle
      ⟨.stay, { d with lock := update d.lock b (some p) }, .idle⟩
  | releasesleep (b : B) (hlock : d.lock b = some p) : Moves p d (.releasesleep b) .idle
      ⟨.stay, { d with lock := update d.lock b none }, .idle⟩
  | fill (b : B) (buf : Buf) (hlock : d.lock b = none ∨ d.lock b = some p) :
      Moves p d (.fill b buf) .idle
        ⟨.stay, { d with bufs := update d.bufs b buf }, .idle⟩
  | iderw (b : B) (hlock : d.lock b = some p) (hready : (d.bufs b).ready = false) :
      Moves p d (.iderw b) .idle ⟨.stay, d, .rw b (d.bufs b) .acquire⟩
  | interrupt (hirq : d.device.irq = true) : Moves p d .interrupt .idle
      ⟨.stay, { d with device := { d.device with irq := false } }, .intr .acquire⟩
  | acquire (b was) : Moves p d .proceed (.rw b was .acquire) ⟨.acquire, d, .rw b was .append⟩
  | append (b was) : Moves p d .proceed (.rw b was .append)
      ⟨.stay, { d with qnext := update d.qnext b none }, .rw b was (.walk none)⟩
  | walk (b was pp x) (hload : d.load pp = some x) : Moves p d .proceed (.rw b was (.walk pp))
      ⟨.stay, d, .rw b was (.walk (some x))⟩
  | link (b was pp) (hload : d.load pp = none) : Moves p d .proceed (.rw b was (.walk pp))
      ⟨.stay, d.store pp b, .rw b was .start⟩
  | start (b was d') (hhead : d.idequeue = some b) (hstart : idestart d b = .ok () d') :
      Moves p d .proceed (.rw b was .start) ⟨.stay, d', .rw b was .test⟩
  | skip (b was) (hhead : d.idequeue ≠ some b) :
      Moves p d .proceed (.rw b was .start) ⟨.stay, d, .rw b was .test⟩
  | ready (b was) (hready : (d.bufs b).ready = true) :
      Moves p d .proceed (.rw b was .test) ⟨.stay, d, .rw b was .release⟩
  | wait (b was) (hready : (d.bufs b).ready = false) :
      Moves p d .proceed (.rw b was .test) ⟨.stay, d, .rw b was .sleepTable⟩
  | sleepTable (b was) :
      Moves p d .proceed (.rw b was .sleepTable) ⟨.acquireTable, d, .rw b was .sleepRelease⟩
  | sleepRelease (b was) :
      Moves p d .proceed (.rw b was .sleepRelease) ⟨.release, d, .rw b was .sched⟩
  | sched (b was) : Moves p d .proceed (.rw b was .sched) ⟨.sched b, d, .rw b was .resume⟩
  | resume (b was) : Moves p d .proceed (.rw b was .resume) ⟨.acquireTable, d, .rw b was .tidy⟩
  | tidy (b was) : Moves p d .proceed (.rw b was .tidy) ⟨.releaseTable, d, .rw b was .reacquire⟩
  | reacquire (b was) : Moves p d .proceed (.rw b was .reacquire) ⟨.acquire, d, .rw b was .test⟩
  | release (b was) : Moves p d .proceed (.rw b was .release) ⟨.release, d, .returned b was⟩
  | leave (b was) : Moves p d .proceed (.returned b was) ⟨.stay, d, .idle⟩
  | intrAcquire : Moves p d .proceed (.intr .acquire) ⟨.acquire, d, .intr .take⟩
  | spurious (hhead : d.idequeue = none) :
      Moves p d .proceed (.intr .take) ⟨.stay, d, .intr .release⟩
  | take (b : B) (hhead : d.idequeue = some b) :
      Moves p d .proceed (.intr .take) ⟨.stay, d.take b, .intr (.wakeTable b)⟩
  | wakeTable (b : B) :
      Moves p d .proceed (.intr (.wakeTable b)) ⟨.acquireTable, d, .intr (.wakeup1 b)⟩
  | wakeup1 (b : B) : Moves p d .proceed (.intr (.wakeup1 b)) ⟨.wakeup1 b, d, .intr .wakeRelease⟩
  | wakeRelease : Moves p d .proceed (.intr .wakeRelease) ⟨.releaseTable, d, .intr .start⟩
  | startNext (b : B) (d') (hhead : d.idequeue = some b) (hstart : idestart d b = .ok () d') :
      Moves p d .proceed (.intr .start) ⟨.stay, d', .intr .release⟩
  | startNone (hhead : d.idequeue = none) :
      Moves p d .proceed (.intr .start) ⟨.stay, d, .intr .release⟩
  | intrRelease : Moves p d .proceed (.intr .release) ⟨.release, d, .idle⟩

variable {p : P} {d d' : Data P B} {call : Call B} {l : Pc B} {m : DriverMove P B}

theorem moves_of_idleNext (h : idleNext p d call = .ok () m) : Moves p d call .idle m := by
  cases call with
  | proceed => cases h
  | acquiresleep b =>
    simp only [idleNext] at h
    split at h
    · case isTrue hfree =>
      cases h
      exact .acquiresleep b hfree
    · cases h
  | releasesleep b =>
    simp only [idleNext] at h
    split at h
    · case isTrue hlock =>
      cases h
      exact .releasesleep b hlock
    · cases h
  | fill b buf =>
    simp only [idleNext] at h
    split at h
    · case isTrue hlock =>
      cases h
      exact .fill b buf hlock
    · cases h
  | iderw b =>
    simp only [idleNext] at h
    split at h
    · cases h
    case isFalse hlock =>
    split at h
    · cases h
    case isFalse hready =>
    split at h
    · cases h
    · cases h
      exact .iderw b (not_not.mp hlock) (Bool.eq_false_iff.mpr hready)
  | interrupt =>
    simp only [idleNext] at h
    split at h
    · case isTrue hirq =>
      cases h
      exact .interrupt hirq
    · cases h

omit [DecidableEq P] in
theorem moves_of_rwNext {b : B} {was : Buf} {pt : Rw B} (h : rwNext d b was pt = .ok () m) :
    Moves p d .proceed (.rw b was pt) m := by
  cases pt with
  | walk pp =>
    simp only [rwNext] at h
    split at h
    · case h_1 x hx =>
      cases h
      exact .walk b was pp x hx
    · case h_2 hnone =>
      cases h
      exact .link b was pp hnone
  | start =>
    simp only [rwNext] at h
    split at h
    · case isTrue hhead =>
      split at h
      · case h_1 d' hstart =>
        cases h
        exact .start b was d' hhead hstart
      · cases h
      · cases h
    · case isFalse hhead =>
      cases h
      exact .skip b was hhead
  | test =>
    simp only [rwNext] at h
    cases h
    by_cases hready : (d.bufs b).ready = true
    · rw [if_pos hready]
      exact .ready b was hready
    · rw [if_neg hready]
      exact .wait b was (Bool.eq_false_iff.mpr hready)
  | _ =>
    cases h
    constructor

omit [DecidableEq P] in
theorem moves_of_intrNext {pt : Intr B} (h : intrNext d pt = .ok () m) :
    Moves p d .proceed (.intr pt) m := by
  cases pt with
  | take =>
    simp only [intrNext] at h
    split at h
    · case h_1 hhead =>
      cases h
      exact .spurious hhead
    · case h_2 b hhead =>
      split at h
      · cases h
      · cases h
        exact .take b hhead
  | start =>
    simp only [intrNext] at h
    split at h
    · case h_1 hhead =>
      cases h
      exact .startNone hhead
    · case h_2 b hhead =>
      split at h
      · case h_1 d' hstart =>
        cases h
        exact .startNext b d' hhead hstart
      · cases h
      · cases h
  | _ =>
    cases h
    constructor

theorem moves_of_next (h : next p d call l = .ok () m) : Moves p d call l m := by
  unfold next at h
  split at h
  · exact moves_of_idleNext h
  · exact moves_of_rwNext h
  · cases h
    exact .leave _ _
  · exact moves_of_intrNext h
  · cases h

omit [DecidableEq P] [DecidableEq B] in
theorem idestart_ok {b : B} (h : idestart d b = .ok () d') : d.device.busy = false ∧
    d' = { d with device := { d.device with cmd := command (d.bufs b), busy := true } } := by
  unfold idestart at h
  split at h
  · cases h
  split at h
  · cases h
  · case isFalse hbusy =>
    cases h
    exact ⟨Bool.eq_false_iff.mpr hbusy, rfl⟩

theorem step_run {s s' : System P B} (h : step s (.run p call) = .ok () s') :
    ∃ m, Moves p s.data call (s.threads p).loc m ∧ s.apply p m = some s' := by
  simp only [step] at h
  split at h
  · case h_1 m hm =>
    split at h
    · case h_1 t ht =>
      cases h
      exact ⟨m, moves_of_next hm, ht⟩
    · cases h
  · cases h
  · cases h

theorem disk_finish (d : Device) {x : Nat × Nat} (hx : d.cmd.place ≠ x ∨ d.cmd.write = none) :
    d.finish.disk x = d.disk x := by
  rw [Device.finish]
  split
  · rename_i data hwrite
    refine update_of_ne (fun heq => ?_) _ _
    rcases hx with hx | hx
    · exact hx heq.symm
    · rw [hwrite] at hx
      cases hx
  · rfl

end Xv6.Ide
