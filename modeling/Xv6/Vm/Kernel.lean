import Mathlib.Data.List.FinRange
import Xv6.Block
import Xv6.Vm.Exec

/-!
# The owners of pages

The kernel as far as pages go: the processes with their stacks and address spaces, the pipes,
the directories and pages that other parts of the kernel hold, and the calls that hand pages
from one to another.  A call is one step.  What a process that runs does to its own memory is
the step `store`; closing the files of a process that exits is one `pipeclose` for each end of
a pipe.
-/

namespace Xv6.Vm

open Lib

abbrev Slot : Type := Fin NPROC

/-- `UNUSED`, `ZOMBIE`, and the states between. -/
inductive Stage where
  | unused
  | live
  | zombie
  deriving DecidableEq

structure Proc where
  stage : Stage
  kstack : Nat
  space : Space
  parent : Option Slot

structure Pipe where
  page : Nat
  readopen : Bool
  writeopen : Bool

structure Kernel where
  mem : Mem
  procs : Slot → Proc
  initproc : Slot
  pipes : List Pipe
  /-- page directories outside processes, the kernel's own among them -/
  dirs : List Pgdir
  pages : List Nat

abbrev KernelM := Act Kernel

def vm {α : Type} (f : VmM α) : KernelM α := Act.zoom Kernel.mem (fun s m => { s with mem := m }) f

namespace Kernel

def setProc (s : Kernel) (i : Slot) (x : Proc) : Kernel :=
  { s with procs := Function.update s.procs i x }

def addDir (s : Kernel) (d : Pgdir) : Kernel := { s with dirs := d :: s.dirs }

def setDir (s : Kernel) (i : Nat) (d : Pgdir) : Kernel := { s with dirs := s.dirs.set i d }

def find (s : Kernel) (test : Proc → Bool) : Option Slot :=
  (List.finRange NPROC).find? fun i => test (s.procs i)

end Kernel

/-- `kinit1`, `kvmalloc` and `kinit2`; the first hands over the first four megabytes. -/
def boot (L : Layout) : VmM (Option Pgdir) := do
  freerange L L.kend 1024
  let kpgdir ← setupkvm L
  freerange L 1024 (PHYSTOP / PGSIZE)
  pure kpgdir

def Kernel.idle (m : Mem) (dirs : List Pgdir) (i : Slot) : Kernel where
  mem := m
  procs := fun _ => ⟨.unused, 0, ⟨.new 0, 0⟩, none⟩
  initproc := i
  pipes := []
  dirs := dirs
  pages := []

def fork (L : Layout) (p : Slot) : KernelM Unit := do
  let s ← Act.get
  match s.find fun x => x.stage = .unused with
  | none => pure ()
  | some np =>
    match ← vm kalloc with
    | none => pure ()
    | some kstack =>
      let sz := (s.procs p).space.sz
      match ← vm (copyuvm L (s.procs p).space.pgdir sz) with
      | none => vm (kfree L kstack)
      | some d => Act.modify fun s => s.setProc np ⟨.live, kstack, ⟨d, sz⟩, some p⟩

def execProc (L : Layout) (p : Slot) (ip : Inode) (argv : List (List UInt8)) : KernelM Unit := do
  let s ← Act.get
  match ← vm (exec L ip argv (s.procs p).space.pgdir) with
  | none => pure ()
  | some img => Act.modify fun s => s.setProc p { s.procs p with space := img.space }

def sbrkProc (L : Layout) (p : Slot) (n : Int) : KernelM Unit := do
  let s ← Act.get
  let r ← vm (sbrk L (s.procs p).space n)
  Act.modify fun s => s.setProc p { s.procs p with space := r.2 }

/-- The children of `p` go to `initproc`, and `p` is a zombie. -/
def Kernel.bury (s : Kernel) (p : Slot) : Kernel where
  __ := s
  procs i :=
    let x := s.procs i
    { x with
      stage := if i = p then .zombie else x.stage
      parent := if x.parent = some p then some s.initproc else x.parent }

def exit (p : Slot) : KernelM Unit := do
  let s ← Act.get
  if p = s.initproc then Act.panic "init exiting"
  else Act.modify fun s => s.bury p

def wait (L : Layout) (p : Slot) : KernelM Unit := do
  let s ← Act.get
  match s.find fun x => x.parent = some p ∧ x.stage = .zombie with
  | none => pure ()
  | some i => do
    vm (kfree L (s.procs i).kstack)
    vm (freevm L (s.procs i).space.pgdir)
    Act.modify fun s =>
      s.setProc i { s.procs i with stage := .unused, kstack := 0, parent := none }

def store (p : Slot) (j : Nat) (bytes : Nat → UInt8) : KernelM Unit := do
  let s ← Act.get
  match (s.procs p).space.pgdir.pte j with
  | some x => if x.user ∧ j < KERNBASE / PGSIZE then vm (fillPage x.frame bytes) else pure ()
  | none => pure ()

/-- `pipealloc`, when the file table has `files` free entries. -/
def pipealloc (files : Nat) : KernelM Unit :=
  if files < 2 then pure ()
  else do
    match ← vm kalloc with
    | none => pure ()
    | some f => Act.modify fun s => { s with pipes := ⟨f, true, true⟩ :: s.pipes }

def pipeclose (L : Layout) (i : Nat) (p : Pipe) (writable : Bool) : KernelM Unit := do
  let p := if writable then { p with writeopen := false } else { p with readopen := false }
  if p.readopen = false ∧ p.writeopen = false then do
    vm (kfree L p.page)
    Act.modify fun s => { s with pipes := s.pipes.eraseIdx i }
  else Act.modify fun s => { s with pipes := s.pipes.set i p }

inductive Op where
  | kalloc
  | kfree (i : Nat)
  | setupkvm
  | allocuvm (i oldsz newsz : Nat)
  | deallocuvm (i oldsz newsz : Nat)
  | copyuvm (i sz : Nat)
  | freevm (i : Nat)
  | fork (p : Slot)
  | exec (p : Slot) (ip : Inode) (argv : List (List UInt8))
  | sbrk (p : Slot) (n : Int)
  | exit (p : Slot)
  | wait (p : Slot)
  | pipealloc (files : Nat)
  | pipeclose (i : Nat) (writable : Bool)
  | store (p : Slot) (j : Nat) (bytes : Nat → UInt8)

def byProc (p : Slot) (f : KernelM Unit) : KernelM Unit := fun s =>
  if (s.procs p).stage = .live then f s else .blocked

def onEntry {α : Type} (list : Kernel → List α) (i : Nat) (f : α → KernelM Unit) : KernelM Unit :=
  fun s =>
    match (list s)[i]? with
    | none => .blocked
    | some a => f a s

def inUser (sz : Nat) (f : KernelM Unit) : KernelM Unit := fun s =>
  if sz ≤ KERNBASE then f s else .blocked

def step (L : Layout) (s : Kernel) (op : Op) : Outcome Kernel Unit :=
  match op with
  | .kalloc => (do
    match ← vm Vm.kalloc with
    | none => pure ()
    | some f => Act.modify fun s => { s with pages := f :: s.pages } : KernelM Unit) s
  | .kfree i => onEntry Kernel.pages i (fun f => do
    vm (Vm.kfree L f)
    Act.modify fun s => { s with pages := s.pages.eraseIdx i }) s
  | .setupkvm => (do
    match ← vm (Vm.setupkvm L) with
    | none => pure ()
    | some d => Act.modify fun s => s.addDir d : KernelM Unit) s
  | .allocuvm i oldsz newsz => onEntry Kernel.dirs i (fun d => do
    let r ← vm (Vm.allocuvm L d oldsz newsz)
    Act.modify fun s => s.setDir i r.2) s
  | .deallocuvm i oldsz newsz => inUser oldsz (onEntry Kernel.dirs i fun d => do
    let r ← vm (Vm.deallocuvm L d oldsz newsz)
    Act.modify fun s => s.setDir i r.2) s
  | .copyuvm i sz => inUser sz (onEntry Kernel.dirs i fun d => do
    match ← vm (Vm.copyuvm L d sz) with
    | none => pure ()
    | some d => Act.modify fun s => s.addDir d) s
  | .freevm i => onEntry Kernel.dirs i (fun d => do
    vm (Vm.freevm L d)
    Act.modify fun s => { s with dirs := s.dirs.eraseIdx i }) s
  | .fork p => byProc p (Vm.fork L p) s
  | .exec p ip argv => byProc p (execProc L p ip argv) s
  | .sbrk p n => byProc p (sbrkProc L p n) s
  | .exit p => byProc p (Vm.exit p) s
  | .wait p => byProc p (Vm.wait L p) s
  | .pipealloc files => Vm.pipealloc files s
  | .pipeclose i writable => onEntry Kernel.pipes i (fun p => Vm.pipeclose L i p writable) s
  | .store p j bytes => byProc p (Vm.store p j bytes) s

end Xv6.Vm
