import Xv6.Lib.Threads
import Xv6.Names.Path

/-!
# Open files, pipes and inode references

The system calls that take and drop references: to `struct file`s from descriptors, to pipes
from files, and to entries of the inode cache from files, current directories and path lookups.
An operation is one critical section of `ftable.lock`, `icache.lock`, `p->lock` or
`ptable.lock`, or one access to fields that only the calling process uses.  What the disk holds
is left open: where the code reads it, `choose` returns a number the environment picked.  The
sleep locks of inodes only delay a process and are left out.
-/

namespace Xv6.Files

open Lib Fs Function

abbrev T_DIR : Nat := Fs.T_DIR.toNat
abbrev T_FILE : Nat := Fs.T_FILE.toNat
abbrev T_DEV : Nat := Fs.T_DEV.toNat

abbrev FileId := Fin NFILE

abbrev InodeId := Fin NINODE

/-- `type` of a `struct file`, with the pointer that belongs to it.  Pipes are numbered in the
order they are allocated in. -/
inductive FileType where
  | none
  | pipe (p : Nat)
  | inode (ip : InodeId)
  deriving DecidableEq

structure File where
  ref : Nat
  type : FileType
  readable : Bool
  writable : Bool

structure Pipe where
  readopen : Bool
  writeopen : Bool
  frees : Nat

def Pipe.isOpen (p : Pipe) (writable : Bool) : Bool := if writable then p.writeopen else p.readopen

structure Entry where
  dev : Nat
  inum : Nat
  ref : Nat

inductive ProcState where
  | unused
  | embryo
  | running
  | zombie
  deriving DecidableEq

structure State (n : Nat) where
  files : FileId → File
  pipes : Nat → Pipe
  npipes : Nat
  icache : InodeId → Entry
  procs : Fin n → ProcState
  ofile : Fin n → Fin NOFILE → Option FileId
  cwd : Fin n → Option InodeId
  initproc : Fin n
  begins : Fin n → Nat
  ends : Fin n → Nat
  env : Nat → Nat
  tick : Nat

inductive Op (n : Nat) where
  | enter
  | leave
  | choose
  | notInit
  | slot (fd : Fin NOFILE)
  | fdalloc (f : FileId)
  | clear (fd : Fin NOFILE)
  | filealloc
  | filedup (f : FileId)
  /-- the critical section of `fileclose`; returns `ff` if that was the last reference -/
  | fileclose (f : FileId)
  | setFile (f : FileId) (type : FileType) (readable writable : Bool)
  | kalloc
  /-- the critical section of `pipeclose`; returns whether both ends are closed -/
  | pipeclose (p : Nat) (writable : Bool)
  | kfree (p : Nat)
  | iget (dev inum : Nat)
  | dev (ip : InodeId)
  | ilock (ip : InodeId)
  | iunlock (ip : InodeId)
  | unref (ip : InodeId)
  | idupCwd
  | takeCwd
  | setCwd (ip : Option InodeId)
  | beginOp
  | endOp
  | allocproc
  | abandon (np : Fin n)
  | childSlot (np : Fin n) (fd : Fin NOFILE) (f : FileId)
  | childCwd (np : Fin n) (ip : InodeId)
  | runnable (np : Fin n)
  | zombie
  | reap (np : Fin n)
  | panic (msg : String)

abbrev FileSig (n : Nat) : Sig where
  Op := Op n
  Ret
    | .choose => Nat
    | .slot _ => Option FileId
    | .fdalloc _ => Option (Fin NOFILE)
    | .filealloc => Option FileId
    | .fileclose _ => Option File
    | .kalloc => Option Nat
    | .pipeclose _ _ => Bool
    | .iget _ _ => InodeId
    | .dev _ => Nat
    | .idupCwd => InodeId
    | .takeCwd => InodeId
    | .allocproc => Option (Fin n)
    | .panic _ => Empty
    | _ => Unit

abbrev FileM (n : Nat) (α : Type) : Type := Prog (FileSig n) α

variable {n : Nat}

abbrev ask (o : Op n) : FileM n ((FileSig n).Ret o) := Prog.ask (S := FileSig n) o

def panic {α : Type} (msg : String) : FileM n α := ask (.panic msg) >>= fun e : Empty => nomatch e

def choose : FileM n Nat := ask .choose

def iput (ip : InodeId) : FileM n Unit := ask (.unref ip)

def iunlockput (ip : InodeId) : FileM n Unit := do
  ask (.iunlock ip)
  iput ip

def pipeclose (p : Nat) (writable : Bool) : FileM n Unit := do
  if ← ask (.pipeclose p writable) then
    ask (.kfree p)

def fileclose (f : FileId) : FileM n Unit := do
  match ← ask (.fileclose f) with
  | none => return ()
  | some ff =>
    match ff.type with
    | .none => return ()
    | .pipe p => pipeclose p ff.writable
    | .inode ip =>
      ask .beginOp
      iput ip
      ask .endOp

def pipealloc : FileM n (Option (FileId × FileId)) := do
  match ← ask .filealloc with
  | none => return none
  | some f0 =>
    match ← ask .filealloc with
    | none =>
      fileclose f0
      return none
    | some f1 =>
      match ← ask .kalloc with
      | none =>
        fileclose f0
        fileclose f1
        return none
      | some p =>
        ask (.setFile f0 (.pipe p) true false)
        ask (.setFile f1 (.pipe p) false true)
        return some (f0, f1)

/-- `fd < 0 || fd >= NOFILE` is `none`. -/
def fdIndex (fd : Int) : Option (Fin NOFILE) :=
  if h : 0 ≤ fd ∧ fd.toNat < NOFILE then some ⟨fd.toNat, h.2⟩ else none

/-- The open descriptor `fd` of the process and its file. -/
def argfd (fd : Int) : FileM n (Option (Fin NOFILE × FileId)) :=
  match fdIndex fd with
  | none => return none
  | some fd => do
    match ← ask (.slot fd) with
    | none => return none
    | some f => return some (fd, f)

def sysDup (fd : Int) : FileM n Int := do
  match ← argfd fd with
  | none => return -1
  | some (_, f) =>
    match ← ask (.fdalloc f) with
    | none => return -1
    | some fd =>
      ask (.filedup f)
      return fd.val

def sysClose (fd : Int) : FileM n Int := do
  match ← argfd fd with
  | none => return -1
  | some (fd, f) =>
    ask (.clear fd)
    fileclose f
    return 0

/-- `argptr` is whether the argument is a valid pointer. -/
def sysPipe (argptr : Bool) : FileM n Int :=
  if argptr then do
    match ← pipealloc with
    | none => return -1
    | some (rf, wf) =>
      match ← ask (.fdalloc rf) with
      | none =>
        fileclose rf
        fileclose wf
        return -1
      | some fd0 =>
        match ← ask (.fdalloc wf) with
        | none =>
          ask (.clear fd0)
          fileclose rf
          fileclose wf
          return -1
        | some _ => return 0
  else
    return -1

/-- Look for a directory entry; the entry's inode, or `none`. -/
def dirlookup (dp : InodeId) : FileM n (Option InodeId) := do
  let found ← choose
  if found = 0 then
    return none
  else
    let dev ← ask (.dev dp)
    let inum ← choose
    let ip ← ask (.iget dev inum)
    return some ip

/-- Write a new directory entry; `false` is -1. -/
def dirlink (dp : InodeId) : FileM n Bool := do
  match ← dirlookup dp with
  | some ip =>
    iput ip
    return false
  | none =>
    let written ← choose
    if written = 0 then panic "dirlink" else return true

/-- The loop of `namex`. -/
def walk (parent : Bool) : InodeId → List Names.Name → FileM n (Option (InodeId × Names.Name))
  | ip, [] =>
    if parent then do
      iput ip
      return none
    else
      return some (ip, [])
  | ip, name :: rest => do
    ask (.ilock ip)
    let type ← choose
    if type ≠ T_DIR then
      iunlockput ip
      return none
    else if parent && rest.isEmpty then
      -- stop one level early
      ask (.iunlock ip)
      return some (ip, name)
    else
      match ← dirlookup ip with
      | none =>
        iunlockput ip
        return none
      | some next =>
        iunlockput ip
        walk parent next rest

def namex (path : List Byte) (parent : Bool) : FileM n (Option (InodeId × Names.Name)) := do
  if path.head? = some Names.slash then
    let ip ← ask (.iget ROOTDEV ROOTINO)
    walk parent ip (Names.elems path)
  else
    let ip ← ask .idupCwd
    walk parent ip (Names.elems path)

def namei (path : List Byte) : FileM n (Option InodeId) := do
  match ← namex path false with
  | none => return none
  | some (ip, _) => return some ip

def nameiparent (path : List Byte) : FileM n (Option (InodeId × Names.Name)) := namex path true

/-- `bad:` of `sys_link`. -/
def linkBad (ip : InodeId) : FileM n Int := do
  ask (.ilock ip)
  iunlockput ip
  ask .endOp
  return -1

/-- A path that `argstr` could not fetch is `none`. -/
def sysLink : Option (List Byte) → Option (List Byte) → FileM n Int
  | some old, some new => do
    ask .beginOp
    match ← namei old with
    | none =>
      ask .endOp
      return -1
    | some ip =>
      ask (.ilock ip)
      let type ← choose
      if type = T_DIR then
        iunlockput ip
        ask .endOp
        return -1
      else
        ask (.iunlock ip)
        match ← nameiparent new with
        | none => linkBad ip
        | some (dp, _) =>
          ask (.ilock dp)
          let devdp ← ask (.dev dp)
          let devip ← ask (.dev ip)
          if devdp ≠ devip then
            iunlockput dp
            linkBad ip
          else if ← dirlink dp then
            iunlockput dp
            iput ip
            ask .endOp
            return 0
          else
            iunlockput dp
            linkBad ip
  | _, _ => return -1

/-- `bad:` of `sys_unlink`. -/
def unlinkBad (dp : InodeId) : FileM n Int := do
  iunlockput dp
  ask .endOp
  return -1

def sysUnlink : Option (List Byte) → FileM n Int
  | some path => do
    ask .beginOp
    match ← nameiparent path with
    | none =>
      ask .endOp
      return -1
    | some (dp, name) =>
      ask (.ilock dp)
      if Names.isDots name then
        unlinkBad dp
      else
        match ← dirlookup dp with
        | none => unlinkBad dp
        | some ip =>
          ask (.ilock ip)
          let nlink ← choose
          if nlink < 1 then
            panic "unlink: nlink < 1"
          else
            -- a directory that is not empty
            let busy ← choose
            if busy ≠ 0 then
              iunlockput ip
              unlinkBad dp
            else
              let written ← choose
              if written = 0 then
                panic "unlink: writei"
              else
                iunlockput dp
                iunlockput ip
                ask .endOp
                return 0
  | none => return -1

def createDots (ip : InodeId) : FileM n Unit := do
  if ← dirlink ip then
    if ← dirlink ip then
      return ()
    else
      panic "create dots"
  else
    panic "create dots"

/-- `ialloc(dev, type)`. -/
def ialloc (dev : Nat) : FileM n InodeId := do
  let found ← choose
  if found = 0 then
    panic "ialloc: no inodes"
  else
    let inum ← choose
    ask (.iget dev inum)

/-- The part of `create` for a name that is not there. -/
def createNew (dp : InodeId) (type : Nat) : FileM n InodeId := do
  let dev ← ask (.dev dp)
  let ip ← ialloc dev
  ask (.ilock ip)
  if type = T_DIR then createDots ip
  if ← dirlink dp then
    iunlockput dp
    return ip
  else
    panic "create: dirlink"

def create (path : List Byte) (type : Nat) : FileM n (Option InodeId) := do
  match ← nameiparent path with
  | none => return none
  | some (dp, _) =>
    ask (.ilock dp)
    match ← dirlookup dp with
    | some ip =>
      iunlockput dp
      ask (.ilock ip)
      let itype ← choose
      if type = T_FILE ∧ itype = T_FILE then
        return some ip
      else
        iunlockput ip
        return none
    | none =>
      let ip ← createNew dp type
      return some ip

abbrev O_CREATE : BitVec 32 := 0x200

/-- The end of `sys_open`, with `ip` locked. -/
def openInode (ip : InodeId) (omode : BitVec 32) : FileM n Int := do
  match ← ask .filealloc with
  | none =>
    iunlockput ip
    ask .endOp
    return -1
  | some f =>
    match ← ask (.fdalloc f) with
    | none =>
      fileclose f
      iunlockput ip
      ask .endOp
      return -1
    | some fd =>
      ask (.iunlock ip)
      ask .endOp
      ask (.setFile f (.inode ip) (!(omode &&& 1 != 0)) (omode &&& 1 != 0 || omode &&& 2 != 0))
      return fd.val

def sysOpen (omode : BitVec 32) : Option (List Byte) → FileM n Int
  | some path => do
    ask .beginOp
    if omode &&& O_CREATE ≠ 0 then
      match ← create path T_FILE with
      | none =>
        ask .endOp
        return -1
      | some ip => openInode ip omode
    else
      match ← namei path with
      | none =>
        ask .endOp
        return -1
      | some ip =>
        ask (.ilock ip)
        let type ← choose
        if type = T_DIR ∧ omode ≠ 0 then
          iunlockput ip
          ask .endOp
          return -1
        else
          openInode ip omode
  | none => return -1

/-- `sys_mkdir` and `sys_mknod`: the arguments are fetched inside the operation. -/
def sysMake (type : Nat) : Option (List Byte) → FileM n Int
  | some path => do
    ask .beginOp
    match ← create path type with
    | none =>
      ask .endOp
      return -1
    | some ip =>
      iunlockput ip
      ask .endOp
      return 0
  | none => do
    ask .beginOp
    ask .endOp
    return -1

def sysMkdir : Option (List Byte) → FileM n Int := sysMake T_DIR

def sysMknod : Option (List Byte) → FileM n Int := sysMake T_DEV

def sysChdir : Option (List Byte) → FileM n Int
  | some path => do
    ask .beginOp
    match ← namei path with
    | none =>
      ask .endOp
      return -1
    | some ip =>
      ask (.ilock ip)
      let type ← choose
      if type ≠ T_DIR then
        iunlockput ip
        ask .endOp
        return -1
      else
        ask (.iunlock ip)
        let cwd ← ask .takeCwd
        iput cwd
        ask .endOp
        ask (.setCwd (some ip))
        return 0
  | none => do
    ask .beginOp
    ask .endOp
    return -1

/-- `exec` as far as it takes references: `bad` is reached with `ip` set or cleared. -/
def exec (path : List Byte) : FileM n Int := do
  ask .beginOp
  match ← namei path with
  | none =>
    ask .endOp
    return -1
  | some ip =>
    ask (.ilock ip)
    let loaded ← choose
    iunlockput ip
    ask .endOp
    if loaded = 0 then
      return -1
    else
      let stack ← choose
      if stack = 0 then return -1 else return 0

/-- Give the child the descriptor `i` of its parent. -/
def copySlot (np : Fin n) (i : Fin NOFILE) : FileM n Unit := do
  match ← ask (.slot i) with
  | none => return ()
  | some f =>
    ask (.filedup f)
    ask (.childSlot np i f)

def fork : FileM n Int := do
  match ← ask .allocproc with
  | none => return -1
  | some np =>
    let copied ← choose
    if copied = 0 then
      ask (.abandon np)
      return -1
    else
      (List.finRange NOFILE).forM (copySlot np)
      let ip ← ask .idupCwd
      ask (.childCwd np ip)
      ask (.runnable np)
      return np.val

def closeSlot (fd : Fin NOFILE) : FileM n Unit := do
  match ← ask (.slot fd) with
  | none => return ()
  | some f =>
    fileclose f
    ask (.clear fd)

def exit : FileM n Unit := do
  ask .notInit
  (List.finRange NOFILE).forM closeSlot
  ask .beginOp
  let cwd ← ask .takeCwd
  iput cwd
  ask .endOp
  ask (.setCwd none)
  ask .zombie

inductive Call (n : Nat) where
  | dup (fd : Int)
  | close (fd : Int)
  | pipe (argptr : Bool)
  | link (old new : Option (List Byte))
  | unlink (path : Option (List Byte))
  | open (path : Option (List Byte)) (omode : BitVec 32)
  | mkdir (path : Option (List Byte))
  | mknod (path : Option (List Byte))
  | chdir (path : Option (List Byte))
  | exec (path : List Byte)
  | fork
  | exit
  | wait (np : Fin n)

def syscall : Call n → FileM n Int
  | .dup fd => sysDup fd
  | .close fd => sysClose fd
  | .pipe argptr => sysPipe argptr
  | .link old new => sysLink old new
  | .unlink path => sysUnlink path
  | .open path omode => sysOpen omode path
  | .mkdir path => sysMkdir path
  | .mknod path => sysMknod path
  | .chdir path => sysChdir path
  | .exec path => exec path
  | .fork => fork
  | .exit => return 0
  | .wait np => do
    ask (.reap np)
    return 0

def body : Call n → FileM n Unit
  | .exit => do
    ask .enter
    exit
  | call => do
    ask .enter
    let _ ← syscall call
    ask .leave

namespace State

def setFile (s : State n) (f : FileId) (file : File) : State n :=
  { s with files := update s.files f file }

def setSlot (s : State n) (p : Fin n) (fd : Fin NOFILE) (x : Option FileId) : State n :=
  { s with ofile := update s.ofile p (update (s.ofile p) fd x) }

def setPipe (s : State n) (p : Nat) (pipe : Pipe) : State n :=
  { s with pipes := update s.pipes p pipe }

def setEntry (s : State n) (ip : InodeId) (e : Entry) : State n :=
  { s with icache := update s.icache ip e }

def setCwd (s : State n) (p : Fin n) (ip : Option InodeId) : State n :=
  { s with cwd := update s.cwd p ip }

def setProc (s : State n) (p : Fin n) (st : ProcState) : State n :=
  { s with procs := update s.procs p st }

def filealloc (s : State n) : Option FileId :=
  (List.finRange NFILE).find? fun f => (s.files f).ref == 0

def fdalloc (s : State n) (p : Fin n) : Option (Fin NOFILE) :=
  (List.finRange NOFILE).find? fun fd => (s.ofile p fd).isNone

def fileclose (s : State n) (f : FileId) : Outcome (State n) (Option File) :=
  let file := s.files f
  if file.ref < 1 then
    .panic "fileclose"
  else if 0 < file.ref - 1 then
    .ok none (s.setFile f { file with ref := file.ref - 1 })
  else
    .ok (some file) (s.setFile f { file with ref := 0, type := .none })

def pipeclose (s : State n) (p : Nat) (writable : Bool) : Bool × State n :=
  let pipe := if writable then { s.pipes p with writeopen := false }
    else { s.pipes p with readopen := false }
  (!pipe.readopen && !pipe.writeopen, s.setPipe p pipe)

def iget (s : State n) (dev inum : Nat) : Outcome (State n) InodeId :=
  let hit := fun ip : InodeId =>
    0 < (s.icache ip).ref && (s.icache ip).dev == dev && (s.icache ip).inum == inum
  match (List.finRange NINODE).find? hit with
  | some ip => .ok ip (s.setEntry ip { s.icache ip with ref := (s.icache ip).ref + 1 })
  | none =>
    match (List.finRange NINODE).find? fun ip => (s.icache ip).ref == 0 with
    | some ip => .ok ip (s.setEntry ip ⟨dev, inum, 1⟩)
    | none => .panic "iget: no inodes"

def allocproc (s : State n) : Option (Fin n) :=
  (List.finRange n).find? fun q => s.procs q == .unused

end State

/-- What the operations do when process `p` executes them. -/
def handler (p : Fin n) : Handler (FileSig n) (State n)
  | .enter, s => if s.procs p = .running then .ok () s else .blocked
  | .leave, s => .ok () s
  | .choose, s => .ok (s.env s.tick) { s with tick := s.tick + 1 }
  | .notInit, s => if p = s.initproc then .panic "init exiting" else .ok () s
  | .slot fd, s => .ok (s.ofile p fd) s
  | .fdalloc f, s =>
    match s.fdalloc p with
    | some fd => .ok (some fd) (s.setSlot p fd (some f))
    | none => .ok none s
  | .clear fd, s => .ok () (s.setSlot p fd none)
  | .filealloc, s =>
    match s.filealloc with
    | some f => .ok (some f) (s.setFile f { s.files f with ref := 1 })
    | none => .ok none s
  | .filedup f, s =>
    if (s.files f).ref < 1 then .panic "filedup"
    else .ok () (s.setFile f { s.files f with ref := (s.files f).ref + 1 })
  | .fileclose f, s => s.fileclose f
  | .setFile f type readable writable, s =>
    .ok () (s.setFile f
      { s.files f with type := type, readable := readable, writable := writable })
  | .kalloc, s =>
    -- memory may be full
    if s.env s.tick = 0 then .ok none { s with tick := s.tick + 1 }
    else .ok (some s.npipes) { s.setPipe s.npipes ⟨true, true, 0⟩ with
      npipes := s.npipes + 1, tick := s.tick + 1 }
  | .pipeclose x writable, s => .ok (s.pipeclose x writable).1 (s.pipeclose x writable).2
  | .kfree x, s => .ok () (s.setPipe x { s.pipes x with frees := (s.pipes x).frees + 1 })
  | .iget dev inum, s => s.iget dev inum
  | .dev ip, s => .ok (s.icache ip).dev s
  | .ilock ip, s => if (s.icache ip).ref < 1 then .panic "ilock" else .ok () s
  | .iunlock ip, s => if (s.icache ip).ref < 1 then .panic "iunlock" else .ok () s
  | .unref ip, s => .ok () (s.setEntry ip { s.icache ip with ref := (s.icache ip).ref - 1 })
  | .idupCwd, s =>
    match s.cwd p with
    | some ip => .ok ip (s.setEntry ip { s.icache ip with ref := (s.icache ip).ref + 1 })
    | none => .panic "null cwd"
  | .takeCwd, s =>
    match s.cwd p with
    | some ip => .ok ip s
    | none => .panic "null cwd"
  | .setCwd ip, s => .ok () (s.setCwd p ip)
  | .beginOp, s => .ok () { s with begins := update s.begins p (s.begins p + 1) }
  | .endOp, s => .ok () { s with ends := update s.ends p (s.ends p + 1) }
  | .allocproc, s =>
    match s.allocproc with
    | some np => .ok (some np) (s.setProc np .embryo)
    | none => .ok none s
  | .abandon np, s => .ok () (s.setProc np .unused)
  | .childSlot np fd f, s => .ok () (s.setSlot np fd (some f))
  | .childCwd np ip, s => .ok () (s.setCwd np (some ip))
  | .runnable np, s => .ok () (s.setProc np .running)
  | .zombie, s => .ok () (s.setProc p .zombie)
  | .reap np, s => if s.procs np = .zombie then .ok () (s.setProc np .unused) else .ok () s
  | .panic msg, _ => .panic msg

abbrev Sys (n : Nat) := Threads (FileSig n) (State n) Unit (Fin n)

abbrev Sys.step (s : Sys n) (a : Action (Fin n) (Call n)) : Outcome (Sys n) Unit :=
  Threads.step handler body s a

/-- After `userinit`: one process, in the root directory, without open files. -/
def boot (init : Fin n) (env : Nat → Nat) : State n where
  files := fun _ => ⟨0, .none, false, false⟩
  pipes := fun _ => ⟨false, false, 0⟩
  npipes := 0
  icache := fun ip => if ip = 0 then ⟨ROOTDEV, ROOTINO, 1⟩ else ⟨0, 0, 0⟩
  procs := fun p => if p = init then .running else .unused
  ofile := fun _ _ => none
  cwd := fun p => if p = init then some 0 else none
  initproc := init
  begins := fun _ => 0
  ends := fun _ => 0
  env := env
  tick := 0

def Sys.boot (init : Fin n) (env : Nat → Nat) : Sys n := ⟨Files.boot init env, fun _ => none⟩

end Xv6.Files
