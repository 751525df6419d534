import Mathlib.Logic.Function.Basic
import Xv6.Block
import Xv6.Lib.Transition
import Xv6.Shell.Tree

/-!
# Running a command tree

`runcmd` of sh.c in the process that starts it and in all processes it forks, each with its
own descriptor table, in any interleaving.  A step is one system call of one process.  Every
process also carries its place in the tree, as the nodes from its own up to the root.
-/

namespace Xv6.Shell

open Lib Function

variable {W : Type}

/-- What a descriptor is open on: one of the files the shell was started with, a file opened
by a redirection, or an end of a pipe. -/
inductive File (W : Type) where
  | inherited (fd : Nat)
  | opened (name : W) (mode : Nat)
  | readEnd (id : Nat)
  | writeEnd (id : Nat)
  deriving DecidableEq

abbrev Table (W : Type) := Nat → Option (File W)

def fdalloc (t : Table W) : Option Nat := (List.range NOFILE).find? fun fd => (t fd).isNone

/-- `close(fd)`. -/
def close (t : Table W) (fd : Nat) : Table W := update t fd none

/-- `dup(fd)`; without a free descriptor, or for a closed one, nothing happens. -/
def dup (t : Table W) (fd : Nat) : Table W :=
  match t fd, fdalloc t with
  | some f, some fd' => update t fd' (some f)
  | _, _ => t

/-- A node on the way from a process's command to the root, with what hangs off it on the
other side.  The nodes of a pipe carry the pipe. -/
inductive Frame (W : Type) where
  | redir (file : W) (mode : Nat) (fd : Std)
  | pipeLeft (id : Nat) (right : Cmd W)
  | pipeRight (id : Nat) (left : Cmd W)
  | listLeft (right : Cmd W)
  | listRight (left : Cmd W)
  | back

def fill : List (Frame W) → Cmd W → Cmd W
  | [], c => c
  | .redir file mode fd :: ctx, c => fill ctx (.redir c file mode fd)
  | .pipeLeft _ right :: ctx, c => fill ctx (.pipe c right)
  | .pipeRight _ left :: ctx, c => fill ctx (.pipe left c)
  | .listLeft right :: ctx, c => fill ctx (.list c right)
  | .listRight left :: ctx, c => fill ctx (.list left c)
  | .back :: ctx, c => fill ctx (.back c)

/-- Descriptor 0: the nearest pipe with the place on its right, or input redirection. -/
def stdin : List (Frame W) → File W
  | [] => .inherited 0
  | .pipeRight id _ :: _ => .readEnd id
  | .redir file mode .input :: _ => .opened file mode
  | _ :: ctx => stdin ctx

/-- Descriptor 1: the nearest pipe with the place on its left, or output redirection. -/
def stdout : List (Frame W) → File W
  | [] => .inherited 1
  | .pipeLeft id _ :: _ => .writeEnd id
  | .redir file mode .output :: _ => .opened file mode
  | _ :: ctx => stdout ctx

def standard (i o : File W) : Table W
  | 0 => some i
  | 1 => some o
  | 2 => some (.inherited 2)
  | _ => none

def wiring (ctx : List (Frame W)) : Table W := standard (stdin ctx) (stdout ctx)

inductive SetUp where
  | close (fd : Nat)
  | dup (fd : Nat)
  deriving DecidableEq

def SetUp.run (t : Table W) : SetUp → Table W
  | .close fd => Shell.close t fd
  | .dup fd => Shell.dup t fd

inductive Pc (W : Type) where
  | run (c : Cmd W)
  | reopen (c : Cmd W) (file : W) (mode : Nat) (fd : Std)
  | listWait (left right : Cmd W)
  | forkLeft (left right : Cmd W) (id p0 p1 : Nat)
  | forkRight (left right : Cmd W) (id p0 p1 : Nat)
  | setUp (ops : List SetUp) (c : Cmd W)
  | closing (ops : List SetUp)
  | waits (n : Nat)
  | execd (argv : List W)
  | exited
  deriving DecidableEq

structure Proc (W : Type) where
  pc : Pc W
  fds : Table W
  parent : Nat
  ctx : List (Frame W)

structure System (W : Type) where
  procs : Nat → Option (Proc W)
  nextpid : Nat
  pipes : Nat

def System.set (s : System W) (pid : Nat) (pr : Proc W) : System W :=
  { s with procs := update s.procs pid (some pr) }

/-- `exit()` closes every descriptor. -/
def Proc.exit (pr : Proc W) : Proc W := { pr with pc := .exited, fds := fun _ => none }

/-- `fork1`: the child starts with a copy of the table. -/
def System.fork (s : System W) (pid : Nat) (pr : Proc W) (parentPc childPc : Pc W)
    (childCtx : List (Frame W)) : System W :=
  let s := s.set pid { pr with pc := parentPc }
  { s.set s.nextpid ⟨childPc, pr.fds, pid, childCtx⟩ with nextpid := s.nextpid + 1 }

/-- `runcmd(c)`, up to its first system call; `ok` says whether `exec`, `fork` or `pipe`
succeeds. -/
def runcmd (s : System W) (pid : Nat) (pr : Proc W) (ok : Bool) : Cmd W → System W
  | .exec argv =>
    match argv, ok with
    | [], _ => s.set pid pr.exit
    | _ :: _, true => s.set pid { pr with pc := .execd argv }
    | _ :: _, false => s.set pid pr.exit
  | .redir c file mode fd =>
    s.set pid { pr with pc := .reopen c file mode fd, fds := close pr.fds fd.fd }
  | .list left right =>
    if ok then s.fork pid pr (.listWait left right) (.run left) (.listLeft right :: pr.ctx)
    else s.set pid pr.exit
  | .pipe left right =>
    match ok, fdalloc pr.fds with
    | true, some p0 =>
      let fds := update pr.fds p0 (some (.readEnd s.pipes))
      match fdalloc fds with
      | some p1 =>
        { s.set pid { pr with
            pc := .forkLeft left right s.pipes p0 p1
            fds := update fds p1 (some (.writeEnd s.pipes)) } with
          pipes := s.pipes + 1 }
      | none => s.set pid pr.exit
    | _, _ => s.set pid pr.exit
  | .back c =>
    if ok then s.fork pid pr (.waits 0) (.run c) (.back :: pr.ctx)
    else s.set pid pr.exit

inductive Act where
  | run (pid : Nat) (ok : Bool)
  | reap (pid child : Nat)

def step (s : System W) : Act → Outcome (System W) Unit
  | .run pid ok =>
    match s.procs pid with
    | none => .blocked
    | some pr =>
      match pr.pc with
      | .run c => .ok () (runcmd s pid pr ok c)
      | .reopen c file mode fd =>
        match ok, fdalloc pr.fds with
        | true, some fd' =>
          .ok () (s.set pid { pr with
            pc := .run c
            fds := update pr.fds fd' (some (.opened file mode))
            ctx := .redir file mode fd :: pr.ctx })
        | _, _ => .ok () (s.set pid pr.exit)
      | .forkLeft left right id p0 p1 =>
        if ok then
          .ok () (s.fork pid pr (.forkRight left right id p0 p1)
            (.setUp [.close 1, .dup p1, .close p0, .close p1] left) (.pipeLeft id right :: pr.ctx))
        else .ok () (s.set pid pr.exit)
      | .forkRight left right id p0 p1 =>
        if ok then
          .ok () (s.fork pid pr (.closing [.close p0, .close p1])
            (.setUp [.close 0, .dup p0, .close p0, .close p1] right) (.pipeRight id left :: pr.ctx))
        else .ok () (s.set pid pr.exit)
      | .setUp [] c => .ok () (s.set pid { pr with pc := .run c })
      | .setUp (op :: ops) c =>
        .ok () (s.set pid { pr with pc := .setUp ops c, fds := op.run pr.fds })
      | .closing [] => .ok () (s.set pid { pr with pc := .waits 2 })
      | .closing (op :: ops) =>
        .ok () (s.set pid { pr with pc := .closing ops, fds := op.run pr.fds })
      | .waits 0 => .ok () (s.set pid pr.exit)
      | .waits (_ + 1) => .blocked
      | .listWait _ _ => .blocked
      | .execd _ => .ok () (s.set pid pr.exit)
      | .exited => .blocked
  | .reap pid child =>
    match s.procs pid, s.procs child with
    | some pr, some ch =>
      match ch.pc, pr.pc with
      | .exited, .listWait left right =>
        if ch.parent = pid then
          .ok () ({ s with procs := update s.procs child none }.set pid
            { pr with pc := .run right, ctx := .listRight left :: pr.ctx })
        else .blocked
      | .exited, .waits (n + 1) =>
        if ch.parent = pid then
          .ok () ({ s with procs := update s.procs child none }.set pid
            { pr with pc := .waits n })
        else .blocked
      | _, _ => .blocked
    | _, _ => .blocked

def start (root : Cmd W) : System W :=
  ⟨update (fun _ => none) 1 (some ⟨.run root, wiring [], 0, []⟩), 2, 0⟩

end Xv6.Shell
