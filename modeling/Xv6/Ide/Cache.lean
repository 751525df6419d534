import Xv6.Ide.Transfer

/-!
# The buffer cache over the disk driver

`bread`, `bwrite` and `brelse` of bio.c for any number of processes, over the driver with its
queue and interrupts.  A step is one critical section of `bcache.lock`, one operation on the
sleep-lock of a buffer, one access to its flags and data, or one step of the driver.
-/

namespace Xv6.Ide

open Lib Monitor Function

inductive Stage where
  /-- `bget` has taken a reference and waits for the sleep-lock -/
  | locking
  | locked
  | reading
  | read
  | marked
  | writing
  | written
  /-- `brelse` has released the sleep-lock and not yet dropped the reference -/
  | released
  deriving DecidableEq

inductive Use (B : Type) where
  | out
  | using (stage : Stage) (b : B) (dev blockno : Nat)
  deriving DecidableEq

structure Cache (P B : Type) where
  ide : System P B
  refcnt : B → Nat
  /-- from the most recently used buffer to the least recently used one -/
  lru : List B
  uses : P → Use B

variable {P B : Type} [DecidableEq P] [DecidableEq B]

def Buf.caches (b : Buf) (dev blockno : Nat) : Bool := b.dev == dev && b.blockno == blockno

namespace Cache

def setUse (c : Cache P B) (p : P) (u : Use B) : Cache P B :=
  { c with uses := update c.uses p u }

def setRef (c : Cache P B) (b : B) (n : Nat) : Cache P B :=
  { c with refcnt := update c.refcnt b n }

def setBuf (c : Cache P B) (b : B) (buf : Buf) : Cache P B :=
  { c with ide := { c.ide with
      data := { c.ide.data with bufs := update c.ide.data.bufs b buf } } }

def scan (c : Cache P B) (dev blockno : Nat) : Outcome (Cache P B) B :=
  match c.lru.find? fun b => (c.ide.data.bufs b).caches dev blockno with
  | some b => .ok b (c.setRef b (c.refcnt b + 1))
  | none =>
    match c.lru.reverse.find? fun b => c.refcnt b == 0 && !(c.ide.data.bufs b).dirty with
    | some b =>
      .ok b ((c.setBuf b ⟨dev, blockno, false, false, (c.ide.data.bufs b).data⟩).setRef b 1)
    | none => .panic "bget: no buffers"

def unref (c : Cache P B) (b : B) : Cache P B :=
  let c := c.setRef b (c.refcnt b - 1)
  if c.refcnt b = 0 then { c with lru := b :: c.lru.erase b } else c

def drive (c : Cache P B) (a : Act P B) : Outcome (Cache P B) Unit :=
  match step c.ide a with
  | .ok _ s => .ok () { c with ide := s }
  | .blocked => .blocked
  | .panic msg => .panic msg

/-- A step of the driver, after which the process `p` is at another stage. -/
def advance (c : Cache P B) (p : P) (call : Call B) (u : Use B) : Outcome (Cache P B) Unit :=
  (c.setUse p u).drive (.run p call)

end Cache

inductive CacheAct (P B : Type) where
  | bget (p : P) (dev blockno : Nat)
  | acquiresleep (p : P)
  | test (p : P)
  /-- the caller of `bwrite` has put `data` into the buffer -/
  | bwrite (p : P) (data : Block)
  | iderw (p : P)
  | brelse (p : P)
  | unref (p : P)
  | proceed (p : P)
  | interrupt (p : P)
  | finish
  | fail (junk : Block)
  | kill (p : P)

/-- Where a process is after `iderw` has returned. -/
def Use.returns : Use B → Use B
  | .using .reading b dev blockno => .using .read b dev blockno
  | .using .writing b dev blockno => .using .written b dev blockno
  | u => u

def cacheStep (c : Cache P B) : CacheAct P B → Outcome (Cache P B) Unit
  | .bget p dev blockno =>
    match c.uses p with
    | .out =>
      match c.scan dev blockno with
      | .ok b c' => .ok () (c'.setUse p (.using .locking b dev blockno))
      | .blocked => .blocked
      | .panic msg => .panic msg
    | _ => .blocked
  | .acquiresleep p =>
    match c.uses p with
    | .using .locking b dev blockno => c.advance p (.acquiresleep b) (.using .locked b dev blockno)
    | _ => .blocked
  | .test p =>
    match c.uses p with
    | .using .locked b dev blockno =>
      if (c.ide.data.bufs b).valid then .ok () (c.setUse p (.using .read b dev blockno))
      else c.advance p (.iderw b) (.using .reading b dev blockno)
    | _ => .blocked
  | .bwrite p data =>
    match c.uses p with
    | .using .read b dev blockno | .using .written b dev blockno =>
      c.advance p (.fill b { c.ide.data.bufs b with data := data, dirty := true })
        (.using .marked b dev blockno)
    | _ => .blocked
  | .iderw p =>
    match c.uses p with
    | .using .marked b dev blockno => c.advance p (.iderw b) (.using .writing b dev blockno)
    | _ => .blocked
  | .brelse p =>
    match c.uses p with
    | .using .read b dev blockno | .using .written b dev blockno =>
      c.advance p (.releasesleep b) (.using .released b dev blockno)
    | _ => .blocked
  | .unref p =>
    match c.uses p with
    | .using .released b _ _ => .ok () ((c.unref b).setUse p .out)
    | _ => .blocked
  | .proceed p =>
    match (c.ide.threads p).loc with
    | .returned _ _ => c.advance p .proceed (c.uses p).returns
    | _ => c.drive (.run p .proceed)
  | .interrupt p => c.drive (.run p .interrupt)
  | .finish => c.drive .finish
  | .fail junk => c.drive (.fail junk)
  | .kill p => c.drive (.kill p)

/-- `binit` has linked the buffers; nothing is cached. -/
def cacheBoot (bufs : List B) (disk : Nat × Nat → Block) (havedisk1 : Bool) : Cache P B :=
  ⟨boot disk havedisk1, fun _ => 0, bufs, fun _ => .out⟩

def takenBy (c : Cache P B) : CacheAct P B → Option B
  | .proceed p => completedBy c.ide (.run p .proceed)
  | _ => none

def reported : List (Cache P B × CacheAct P B) → B → Bool
  | [], _ => false
  | (c, a) :: tr, b => if takenBy c a = some b then c.ide.data.device.err else reported tr b

/-- What `bread` has returned as valid is what the disk holds, and what `bwrite` has returned
as clean was not reported as failed. -/
def GoodData (tr : List (Cache P B × CacheAct P B)) (c : Cache P B) : Prop :=
  (∀ p b dev blockno, c.uses p = .using .read b dev blockno →
    (c.ide.data.bufs b).valid = true →
      (c.ide.data.bufs b).data = c.ide.data.device.disk (dev % 2, blockno)) ∧
  (∀ p b dev blockno, c.uses p = .using .written b dev blockno →
    (c.ide.data.bufs b).dirty = false → reported tr b = false)

/-- No command fails, and the blocks asked for are on disk 0 or disk 1. -/
def Sound : CacheAct P B → Prop
  | .fail _ => False
  | .bget _ dev _ => dev ≤ 1
  | _ => True

end Xv6.Ide
