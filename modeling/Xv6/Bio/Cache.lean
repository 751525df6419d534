import Xv6.Log.Control
import Xv6.Log.Header

/-!
# The buffer cache and its users

`bio.c` over the memory disk of `memide.c`, together with the parts of `log.c`
that go through the cache.  An operation of `CacheSig` is one critical section
of `bcache.lock`, `log.lock` or a sleep-lock, one transfer between a buffer and
the disk, or one access to the flags or the data of a buffer.  The functions of
`bio.c` are programs over these operations; the callers, `commit` among them,
are programs over the functions.
-/

namespace Xv6.Bio

open Lib Log.Control Function

/-- `struct buf`; `lock` is the process that holds the sleep-lock. -/
structure Buf (P : Type) where
  valid : Bool
  dirty : Bool
  dev : Nat
  blockno : Nat
  lock : Option P
  refcnt : Nat
  data : Block

/-- `bcache`, the memory disk and `log`.  The list runs from `head.next`, the
most recently used buffer, to `head.prev`. -/
structure Cache (P : Type) where
  bufs : Fin NBUF → Buf P
  lru : List (Fin NBUF)
  disk : Disk
  disksize : Nat
  log : LogState

variable {P : Type}

namespace Cache

def setBuf (c : Cache P) (i : Fin NBUF) (b : Buf P) : Cache P :=
  { c with bufs := update c.bufs i b }

end Cache

inductive CacheOp where
  | scan (dev blockno : Nat)
  | acquiresleep (i : Fin NBUF)
  | valid (i : Fin NBUF)
  | iderw (i : Fin NBUF)
  | setDirty (i : Fin NBUF)
  | releasesleep (i : Fin NBUF)
  | unref (i : Fin NBUF)
  | data (i : Fin NBUF)
  | setData (i : Fin NBUF) (data : Block)
  | beginOp
  | logTest
  | logAppend (i : Fin NBUF)
  | endOp
  | log
  | clear
  | commitDone

abbrev CacheOp.Ret : CacheOp → Type
  | .scan _ _ => Fin NBUF
  | .valid _ => Bool
  | .data _ => Block
  | .endOp => Bool
  | .log => LogState
  | _ => Unit

abbrev CacheSig : Sig := ⟨CacheOp, CacheOp.Ret⟩

abbrev CacheM := Prog CacheSig

variable [DecidableEq P]

/-- The critical section of `bget`: a buffer for the block, with one more
reference. -/
def scan (c : Cache P) (dev blockno : Nat) : Outcome (Cache P) (Fin NBUF) :=
  match c.lru.find? fun i => (c.bufs i).dev == dev && (c.bufs i).blockno == blockno with
  | some i => .ok i (c.setBuf i { c.bufs i with refcnt := (c.bufs i).refcnt + 1 })
  | none =>
    match c.lru.reverse.find? fun i => (c.bufs i).refcnt == 0 && !(c.bufs i).dirty with
    | some i =>
      .ok i (c.setBuf i { c.bufs i with
        dev := dev, blockno := blockno, valid := false, dirty := false, refcnt := 1 })
    | none => .panic "bget: no buffers"

def iderw (p : P) (c : Cache P) (i : Fin NBUF) : Outcome (Cache P) Unit :=
  let b := c.bufs i
  if b.lock ≠ some p then
    .panic "iderw: buf not locked"
  else if b.valid = true ∧ b.dirty = false then
    .panic "iderw: nothing to do"
  else if b.dev ≠ 1 then
    .panic "iderw: request not for disk 1"
  else if b.blockno ≥ c.disksize then
    .panic "iderw: block out of range"
  else if b.dirty then
    .ok () ({ c with disk := update c.disk b.blockno b.data }.setBuf i
      { b with dirty := false, valid := true })
  else
    .ok () (c.setBuf i { b with data := c.disk b.blockno, valid := true })

/-- The critical section of `brelse`: drop a reference, and make an unused buffer
the most recently used one. -/
def unref (c : Cache P) (i : Fin NBUF) : Cache P :=
  let c := c.setBuf i { c.bufs i with refcnt := (c.bufs i).refcnt - 1 }
  if (c.bufs i).refcnt = 0 then { c with lru := i :: c.lru.erase i } else c

/-- What each operation does when process `p` executes it. -/
def cache (p : P) : Handler CacheSig (Cache P)
  | .scan dev blockno, c => scan c dev blockno
  | .acquiresleep i, c =>
    match (c.bufs i).lock with
    | some _ => .blocked
    | none => .ok () (c.setBuf i { c.bufs i with lock := some p })
  | .valid i, c => .ok (c.bufs i).valid c
  | .iderw i, c => iderw p c i
  | .setDirty i, c =>
    if (c.bufs i).lock ≠ some p then
      .panic "bwrite"
    else
      .ok () (c.setBuf i { c.bufs i with dirty := true })
  | .releasesleep i, c =>
    if (c.bufs i).lock ≠ some p then
      .panic "brelse"
    else
      .ok () (c.setBuf i { c.bufs i with lock := none })
  | .unref i, c => .ok () (unref c i)
  | .data i, c => .ok (c.bufs i).data c
  | .setData i data, c => .ok () (c.setBuf i { c.bufs i with data := data })
  | .beginOp, c =>
    match c.log.beginOp with
    | none => .blocked
    | some log => .ok () { c with log := log }
  | .logTest, c =>
    match c.log.writeTest with
    | some msg => .panic msg
    | none => .ok () c
  | .logAppend i, c =>
    .ok () ({ c with log := c.log.append (c.bufs i).blockno }.setBuf i
      { c.bufs i with dirty := true })
  | .endOp, c =>
    match c.log.endOp with
    | .error msg => .panic msg
    | .ok (log, doCommit) => .ok doCommit { c with log := log }
  | .log, c => .ok c.log c
  | .clear, c => .ok () { c with log := { c.log with lh := [] } }
  | .commitDone, c => .ok () { c with log := { c.log with committing := false } }

def bget (dev blockno : Nat) : CacheM (Fin NBUF) := do
  let i ← Prog.ask (S := CacheSig) (CacheOp.scan dev blockno)
  Prog.ask (S := CacheSig) (CacheOp.acquiresleep i)
  return i

def bread (dev blockno : Nat) : CacheM (Fin NBUF) := do
  let i ← bget dev blockno
  let valid ← Prog.ask (S := CacheSig) (CacheOp.valid i)
  if !valid then
    Prog.ask (S := CacheSig) (CacheOp.iderw i)
  return i

def bwrite (i : Fin NBUF) : CacheM Unit := do
  Prog.ask (S := CacheSig) (CacheOp.setDirty i)
  Prog.ask (S := CacheSig) (CacheOp.iderw i)

def brelse (i : Fin NBUF) : CacheM Unit := do
  Prog.ask (S := CacheSig) (CacheOp.releasesleep i)
  Prog.ask (S := CacheSig) (CacheOp.unref i)

def logWrite (i : Fin NBUF) : CacheM Unit := do
  Prog.ask (S := CacheSig) CacheOp.logTest
  Prog.ask (S := CacheSig) (CacheOp.logAppend i)

/-- Who calls `bwrite`; the cache does not know it. -/
inductive Writer where
  | process
  | log
  | install

/-- What the code above the cache can call: the functions, the data of a buffer,
and, from `log.c`, the critical sections around `commit` and the log header. -/
inductive Call where
  | bread (dev blockno : Nat)
  | bwrite (w : Writer) (i : Fin NBUF)
  | brelse (i : Fin NBUF)
  | logWrite (i : Fin NBUF)
  | data (i : Fin NBUF)
  | setData (i : Fin NBUF) (data : Block)
  | beginOp
  | endOp
  | log
  | clear
  | commitDone

abbrev Call.Ret : Call → Type
  | .bread _ _ => Fin NBUF
  | .data _ => Block
  | .endOp => Bool
  | .log => LogState
  | _ => Unit

abbrev CallSig : Sig := ⟨Call, Call.Ret⟩

abbrev CallM := Prog CallSig

def body : (c : Call) → CacheM c.Ret
  | .bread dev blockno => bread dev blockno
  | .bwrite _ i => bwrite i
  | .brelse i => brelse i
  | .logWrite i => logWrite i
  | .data i => Prog.ask (S := CacheSig) (CacheOp.data i)
  | .setData i data => Prog.ask (S := CacheSig) (CacheOp.setData i data)
  | .beginOp => Prog.ask (S := CacheSig) CacheOp.beginOp
  | .endOp => Prog.ask (S := CacheSig) CacheOp.endOp
  | .log => Prog.ask (S := CacheSig) CacheOp.log
  | .clear => Prog.ask (S := CacheSig) CacheOp.clear
  | .commitDone => Prog.ask (S := CacheSig) CacheOp.commitDone

def call (c : Call) : CallM c.Ret := Prog.ask (S := CallSig) c

/-- `memmove(dst->data, src->data, BSIZE)`. -/
def memmove (dst src : Fin NBUF) : CallM Unit := do
  let data ← call (.data src)
  call (.setData dst data)

def writeLog : CallM Unit := do
  let log ← call .log
  (List.range log.lh.length).forM fun tail => do
    let dst ← call (.bread ROOTDEV (log.start + tail + 1))
    let src ← call (.bread ROOTDEV (log.lh.getD tail 0))
    memmove dst src
    call (.bwrite .log dst)
    call (.brelse src)
    call (.brelse dst)

def writeHead : CallM Unit := do
  let log ← call .log
  let buf ← call (.bread ROOTDEV log.start)
  let hb ← call (.data buf)
  call (.setData buf (Log.putHeader hb (log.lh.map (BitVec.ofNat 32))))
  call (.bwrite .log buf)
  call (.brelse buf)

def installTrans : CallM Unit := do
  let log ← call .log
  (List.range log.lh.length).forM fun tail => do
    let lbuf ← call (.bread ROOTDEV (log.start + tail + 1))
    let dbuf ← call (.bread ROOTDEV (log.lh.getD tail 0))
    memmove dbuf lbuf
    call (.bwrite .install dbuf)
    call (.brelse lbuf)
    call (.brelse dbuf)

def commit : CallM Unit := do
  let log ← call .log
  if 0 < log.lh.length then
    writeLog
    writeHead
    installTrans
    call .clear
    writeHead

def endOp : CallM Unit := do
  let doCommit ← call .endOp
  if doCommit then
    commit
    call .commitDone

/-- What a process may do with a buffer it has locked: hand it back or change it,
or, once it has changed it, store the change first. -/
inductive Use where
  | ready
  | modified

/-- Programs that keep to the discipline: `bread`, then changes of the data each
followed by `log_write` or `bwrite`, then `brelse`, and `log_write` only between
`begin_op` and `end_op`.  `inOp` says whether an operation is open and `held`
which buffers are locked. -/
inductive Client : Bool → (Fin NBUF → Option Use) → CallM Unit → Prop where
  | done {inOp : Bool} {held : Fin NBUF → Option Use} : Client inOp held (.ret ())
  | bread {inOp : Bool} {held : Fin NBUF → Option Use} {k : Fin NBUF → CallM Unit}
      (dev blockno : Nat)
      (hk : ∀ i, held i = none → Client inOp (update held i (some .ready)) (k i)) :
      Client inOp held (call (.bread dev blockno) >>= k)
  | data {inOp : Bool} {held : Fin NBUF → Option Use} {k : Block → CallM Unit} (i : Fin NBUF)
      (hheld : held i ≠ none) (hk : ∀ data, Client inOp held (k data)) :
      Client inOp held (call (.data i) >>= k)
  | setData {inOp : Bool} {held : Fin NBUF → Option Use} {k : Unit → CallM Unit}
      (i : Fin NBUF) (data : Block) (hheld : held i ≠ none)
      (hk : Client inOp (update held i (some .modified)) (k ())) :
      Client inOp held (call (.setData i data) >>= k)
  | logWrite {held : Fin NBUF → Option Use} {k : Unit → CallM Unit} (i : Fin NBUF)
      (hheld : held i ≠ none)
      (hk : Client true (update held i (some .ready)) (k ())) :
      Client true held (call (.logWrite i) >>= k)
  | bwrite {inOp : Bool} {held : Fin NBUF → Option Use} {k : Unit → CallM Unit}
      (i : Fin NBUF) (hheld : held i ≠ none)
      (hk : Client inOp (update held i (some .ready)) (k ())) :
      Client inOp held (call (.bwrite .process i) >>= k)
  | brelse {inOp : Bool} {held : Fin NBUF → Option Use} {k : Unit → CallM Unit}
      (i : Fin NBUF) (hheld : held i = some .ready)
      (hk : Client inOp (update held i none) (k ())) :
      Client inOp held (call (.brelse i) >>= k)
  | beginOp {held : Fin NBUF → Option Use} {k : Unit → CallM Unit}
      (hk : Client true held (k ())) : Client false held (call .beginOp >>= k)
  | endOp {held : Fin NBUF → Option Use} {k : Unit → CallM Unit}
      (hk : Client false held (k ())) : Client true held (endOp >>= k)

inductive Thread where
  | between (rest : CallM Unit)
  | inside (c : Call) (body : CacheM c.Ret) (rest : c.Ret → CallM Unit)

structure Sys (P : Type) where
  cache : Cache P
  threads : P → Thread

namespace Sys

def setThread (s : Sys P) (p : P) (th : Thread) : Sys P :=
  { s with threads := update s.threads p th }

end Sys

/-- One step of process `p`: enter a function, execute one operation of its body,
or return from it. -/
def step (s : Sys P) (p : P) : Outcome (Sys P) Unit :=
  match s.threads p with
  | .between (.ret _) => .blocked
  | .between (.op c k) => .ok () (s.setThread p (.inside c (body c) k))
  | .inside _ (.ret r) rest => .ok () (s.setThread p (.between (rest r)))
  | .inside c (.op o k) rest =>
    match cache p o s.cache with
    | .ok r cache => .ok () ({ s with cache := cache }.setThread p (.inside c (k r) rest))
    | .blocked => .blocked
    | .panic msg => .panic msg

/-- After `binit` and `initlog`, on a disk with an empty log. -/
def init (disk : Disk) (disksize start : Nat) (size : Int) (progs : P → CallM Unit) : Sys P where
  cache :=
    { bufs := fun _ => ⟨false, false, 0, 0, none, 0, 0⟩
      lru := (List.finRange NBUF).reverse
      disk := disk
      disksize := disksize
      log := ⟨start, size, 0, false, []⟩ }
  threads := fun p => .between (progs p)

end Xv6.Bio
