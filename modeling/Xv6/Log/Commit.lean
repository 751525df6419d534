import Xv6.Lib.Crash
import Xv6.Log.Header

/-!
# Commit and recovery

`write_log`, `write_head`, `install_trans`, `commit` and `recover_from_log` as
programs over the buffer cache interface.  `bread` returns the cached copy of a
block if there is one and the disk block otherwise; `bwrite` puts a buffer on
the disk; `modify` is the caller's change of a buffer that it then passes to
`log_write`, which pins the changed copy in the cache.  A crash keeps the disk
and loses the cache.
-/

namespace Xv6.Log

open Lib Function

/-- Where the superblock puts the log: `log.start` and `log.size`. -/
structure Area where
  start : Nat
  size : Nat
  size_pos : 0 < size

namespace Area

def Contains (lg : Area) (b : Nat) : Prop := lg.start ≤ b ∧ b < lg.start + lg.size

instance (lg : Area) (b : Nat) : Decidable (lg.Contains b) :=
  inferInstanceAs (Decidable (_ ∧ _))

end Area

inductive BioOp where
  | bread (b : Nat)
  | bwrite (b : Nat) (data : Block)
  | modify (b : Nat) (data : Block)

abbrev BioOp.Ret : BioOp → Type
  | .bread _ => Block
  | .bwrite _ _ => Unit
  | .modify _ _ => Unit

abbrev BioSig : Sig := ⟨BioOp, BioOp.Ret⟩

structure Machine where
  disk : Disk
  cache : Nat → Option Block

def boot (d : Disk) : Machine := ⟨d, fun _ => none⟩

def bio : Handler BioSig Machine
  | .bread b, m => .ok ((m.cache b).getD (m.disk b)) m
  | .bwrite b data, m =>
    .ok () ⟨update m.disk b data, update m.cache b none⟩
  | .modify b data, m => .ok () { m with cache := update m.cache b (some data) }

abbrev BioM := Prog BioSig

def bread (b : Nat) : BioM Block := Prog.ask (S := BioSig) (BioOp.bread b)

def bwrite (b : Nat) (data : Block) : BioM Unit := Prog.ask (S := BioSig) (BioOp.bwrite b data)

def modify (b : Nat) (data : Block) : BioM Unit := Prog.ask (S := BioSig) (BioOp.modify b data)

/-- `log.lh.block[tail]`, as the block number `bread` is given. -/
def homeBlock (lh : List (BitVec 32)) (tail : Nat) : Nat := (lh.getD tail 0).toNat

def writeLog (lg : Area) (lh : List (BitVec 32)) : BioM Unit :=
  (List.range lh.length).forM fun tail => do
    let _to ← bread (lg.start + tail + 1)
    let frm ← bread (homeBlock lh tail)
    bwrite (lg.start + tail + 1) frm

def writeHead (lg : Area) (lh : List (BitVec 32)) : BioM Unit := do
  let hb ← bread lg.start
  bwrite lg.start (putHeader hb lh)

def installTrans (lg : Area) (lh : List (BitVec 32)) : BioM Unit :=
  (List.range lh.length).forM fun tail => do
    let lbuf ← bread (lg.start + tail + 1)
    let _dbuf ← bread (homeBlock lh tail)
    bwrite (homeBlock lh tail) lbuf

def readHead (lg : Area) : BioM (List (BitVec 32)) := do
  let buf ← bread lg.start
  return getHeader buf

def recoverFromLog (lg : Area) : BioM Unit := do
  let lh ← readHead lg
  installTrans lg lh
  writeHead lg []

def commit (lg : Area) (lh : List (BitVec 32)) : BioM Unit := do
  if 0 < lh.length then
    writeLog lg lh
    writeHead lg lh
    installTrans lg lh
    writeHead lg []

/-- The blocks one transaction recorded with `log_write`, with the contents they
have in the cache when it commits. -/
structure Transaction (lg : Area) where
  writes : List (BitVec 32 × Block)
  distinct : (writes.map Prod.fst).Nodup
  length_le_logsize : writes.length ≤ LOGSIZE
  length_le_size : writes.length ≤ lg.size - 1
  outside : ∀ x ∈ writes, ¬ lg.Contains x.1.toNat

namespace Transaction

variable {lg : Area}

def blocks (tx : Transaction lg) : List (BitVec 32) := tx.writes.map Prod.fst

def prog (tx : Transaction lg) : BioM Unit := do
  tx.writes.forM fun x => modify x.1.toNat x.2
  commit lg tx.blocks

end Transaction

def runAll {lg : Area} (txs : List (Transaction lg)) : BioM Unit :=
  txs.forM Transaction.prog

/-- `Recovered lg d d'`: booting on disk `d`, with any number of crashes inside
`recover_from_log`, the recovery that completes leaves disk `d'`. -/
inductive Recovered (lg : Area) : Disk → Disk → Prop where
  | done {d : Disk} {tr : List (BioOp × Machine)} {m : Machine}
      (h : Runs bio (recoverFromLog lg) (boot d) tr () m) : Recovered lg d m.disk
  | crash {d d' : Disk} {tr : List (BioOp × Machine)} {q : BioM Unit} {m : Machine}
      (h : Exec bio (recoverFromLog lg) (boot d) tr q m) (hrest : Recovered lg m.disk d') :
      Recovered lg d d'

def store (d : Disk) (x : BitVec 32 × Block) : Disk := update d x.1.toNat x.2

def Transaction.apply {lg : Area} (d : Disk) (tx : Transaction lg) : Disk :=
  tx.writes.foldl store d

def applyAll {lg : Area} (d : Disk) (txs : List (Transaction lg)) : Disk :=
  txs.foldl Transaction.apply d

/-- The write of a header that lists at least one block: the first `write_head`
of a commit. -/
def isCommitRecord (lg : Area) : BioOp → Bool
  | .bwrite b data => b == lg.start && headerCount data != 0
  | _ => false

end Xv6.Log
