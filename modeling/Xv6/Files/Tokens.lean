import Mathlib.Algebra.Order.BigOperators.Group.Finset
import Mathlib.Tactic.Abel
import Xv6.Files.Code
import Xv6.Lib.Ledger

/-!
# What a process holds inside a system call

A token is one reference: to an inode, to a file, to an open end of a pipe, or the duty to free
a pipe's page.  The view of a process says which tokens it has beyond those that its descriptors
and its current directory stand for; the number is negative while a descriptor is there whose
reference has been given up, or has not been taken yet.
-/

namespace Xv6.Files

open Lib Fs Function List Protocol

inductive Token where
  | inode (ip : InodeId)
  | file (f : FileId)
  | pend (p : Nat) (writable : Bool)
  | page (p : Nat)
  deriving DecidableEq

def tok (t : Token) : Token → Int := fun u => if u = t then 1 else 0

theorem tok_nonneg (t u : Token) : 0 ≤ tok t u := by
  simp only [tok]
  split <;> decide

@[simp] theorem tok_self (t : Token) : tok t t = 1 := if_pos rfl

def FileType.weight (type : FileType) (writable : Bool) : Token → Int :=
  match type with
  | .none => 0
  | .pipe p => tok (.pend p writable)
  | .inode ip => tok (.inode ip)

def leftOver : Option File → Token → Int
  | none => 0
  | some ff => ff.type.weight ff.writable

/-- A child that `fork` is making: the descriptors that are still empty, and whether the
current directory is. -/
structure Child (n : Nat) where
  np : Fin n
  slots : Fin NOFILE → Bool
  cwd : Bool

@[ext] structure View (n : Nat) where
  active : Bool
  inOp : Bool
  held : Token → Int
  known : Fin NOFILE → Option (Option FileId)
  cwd : Option (Option InodeId)
  fresh : FileId → Bool
  child : Option (Child n)

namespace View

variable {n : Nat} (v : View n) {Q : Unit → View n → Prop} {path : Option (List Byte)} {α : Type}

def idle : View n := ⟨false, false, 0, fun _ => none, none, fun _ => false, none⟩

def add (d : Token → Int) : View n := { v with held := v.held + d }

/-- The references to `f` the process is known to have. -/
def ownFile (f : FileId) : Int :=
  (∑ fd, if v.known fd = some (some f) then 1 else 0) + v.held (.file f)

def ownInode (ip : InodeId) : Int :=
  (if v.cwd = some (some ip) then 1 else 0) + v.held (.inode ip)

def closed (f : FileId) : View n :=
  { v with held := v.held - tok (.file f), fresh := update v.fresh f false }

structure At (inOp : Bool) : Prop where
  active : v.active = true
  held : v.held = 0
  inOp : v.inOp = inOp
  fresh : v.fresh = fun _ => false
  child : v.child = none

def Requires : Op n → Prop
  | .leave => v.At false
  | .clear fd => ∃ f, v.known fd = some (some f)
  | .filedup f => 1 ≤ v.ownFile f
  | .fileclose f => 1 ≤ v.ownFile f
  | .setFile f type _ writable => v.fresh f = true ∧
      match type with
      | .none => True
      | .pipe p => 1 ≤ v.held (.pend p writable)
      | .inode ip => 1 ≤ v.ownInode ip
  | .pipeclose p writable => 1 ≤ v.held (.pend p writable)
  | .kfree p => 1 ≤ v.held (.page p)
  | .idupCwd => ∀ ip, 0 ≤ v.held (.inode ip)
  | .unref ip => 1 ≤ v.ownInode ip
  | .setCwd _ => ∃ ip, v.cwd = some (some ip)
  | .beginOp => v.inOp = false
  | .endOp => v.inOp = true
  | .allocproc => v.child = none
  | .abandon np => v.child = some ⟨np, fun _ => true, true⟩
  | .childSlot np fd f => 1 ≤ v.held (.file f) ∧ v.fresh f = false ∧
      ∃ slots cwd, v.child = some ⟨np, slots, cwd⟩ ∧ slots fd = true
  | .childCwd np ip => 1 ≤ v.ownInode ip ∧ ∃ slots, v.child = some ⟨np, slots, true⟩
  | .runnable np => ∃ slots cwd, v.child = some ⟨np, slots, cwd⟩
  | .zombie => v.At false ∧ (∀ fd, v.known fd = some none) ∧ v.cwd = some none
  | _ => True

end View

variable {n : Nat}

def fileProtocol (n : Nat) : Protocol (FileSig n) (View n) where
  pre
    | .enter, v => v = .idle
    | .panic msg, _ => msg ≠ "filedup" ∧ msg ≠ "fileclose"
    | o, v => v.active = true ∧ v.Requires o
  post
    | .enter, _, _, v' => v' = { View.idle with active := true }
    | .leave, _, _, v' => v' = .idle
    | .slot fd, v, r, v' => v' = { v with known := update v.known fd (some r) }
    | .fdalloc f, v, r, v' =>
      match r with
      | none => v' = v
      | some fd => (∀ g, v.known fd ≠ some (some g)) ∧
          v' = { v.add (-tok (.file f)) with
            known := update v.known fd (some (some f)) }
    | .clear fd, v, _, v' => ∃ f, v.known fd = some (some f) ∧
        v' = { v.add (tok (.file f)) with known := update v.known fd (some none) }
    | .filealloc, v, r, v' =>
      match r with
      | none => v' = v
      | some f => v.fresh f = false ∧
          v' = { v.add (tok (.file f)) with fresh := update v.fresh f true }
    | .filedup f, v, _, v' => v' = v.add (tok (.file f))
    | .fileclose f, v, r, v' =>
      (v.fresh f = true → ∀ ff, r = some ff → ff.type = .none) ∧
      v' = (v.closed f).add (leftOver r)
    | .setFile f type _ writable, v, _, v' =>
      v' = { v.add (-type.weight writable) with fresh := update v.fresh f false }
    | .kalloc, v, r, v' =>
      match r with
      | none => v' = v
      | some p => v' = v.add (tok (.pend p false) + tok (.pend p true))
    | .pipeclose p writable, v, r, v' =>
      v' = v.add (-tok (.pend p writable) + if r then tok (.page p) else 0)
    | .kfree p, v, _, v' => v' = v.add (-tok (.page p))
    | .iget _ _, v, ip, v' => v' = v.add (tok (.inode ip))
    | .idupCwd, v, ip, v' => v' = v.add (tok (.inode ip))
    | .unref ip, v, _, v' => v' = v.add (-tok (.inode ip))
    | .takeCwd, v, ip, v' => v' = { v with cwd := some (some ip) }
    | .setCwd x, v, _, v' => ∃ ip, v.cwd = some (some ip) ∧
        v' = { v.add (tok (.inode ip) - match x with
          | none => 0
          | some new => tok (.inode new)) with cwd := some x }
    | .beginOp, v, _, v' => v' = { v with inOp := true }
    | .endOp, v, _, v' => v' = { v with inOp := false }
    | .allocproc, v, r, v' =>
      match r with
      | none => v' = v
      | some np => v' = { v with child := some ⟨np, fun _ => true, true⟩ }
    | .abandon _, v, _, v' => v' = { v with child := none }
    | .childSlot np fd f, v, _, v' => ∃ slots cwd, v.child = some ⟨np, slots, cwd⟩ ∧
        v' = { v.add (-tok (.file f)) with
          child := some ⟨np, update slots fd false, cwd⟩ }
    | .childCwd np ip, v, _, v' => ∃ slots, v.child = some ⟨np, slots, true⟩ ∧
        v' = { v.add (-tok (.inode ip)) with child := some ⟨np, slots, false⟩ }
    | .runnable _, v, _, v' => v' = { v with child := none }
    | .zombie, _, _, v' => v' = .idle
    | .panic _, _, r, _ => nomatch r
    | _, v, _, v' => v' = v

namespace View

variable {v : View n} {f : FileId} {ip : InodeId}

@[simp] theorem add_add (d e : Token → Int) : (v.add d).add e = v.add (d + e) := by
  simp only [add, add_assoc]

@[simp] theorem add_zero : v.add 0 = v := by
  simp [add]

def Solvent (v : View n) : Prop := ∀ t, 0 ≤ v.held t

theorem Solvent.add (h : v.Solvent) (t : Token) : (v.add (tok t)).Solvent := fun u =>
  Int.add_nonneg (h u) (tok_nonneg t u)

theorem one_le_ownInode (h : 1 ≤ v.held (.inode ip)) : 1 ≤ v.ownInode ip := by
  simp only [ownInode]
  split <;> omega

theorem Solvent.ownInode (h : v.Solvent) : 1 ≤ (v.add (tok (.inode ip))).ownInode ip := by
  refine one_le_ownInode ?_
  have hip := h (.inode ip)
  simp only [View.add, Pi.add_apply, tok_self]
  omega

theorem At.solvent {b : Bool} (h : v.At b) : v.Solvent := fun t => by
  rw [h.held]
  exact Int.le_refl 0

end View

section Functions

variable {v : View n} {f : FileId} {ip dp : InodeId}

theorem wp_panic {msg : String} {Q : α → View n → Prop}
    (hmsg : msg ≠ "filedup" ∧ msg ≠ "fileclose") : (fileProtocol n).wp (panic msg) Q v :=
  ⟨hmsg, fun r => nomatch r⟩

variable (ha : v.active = true)

include ha

theorem wp_choose {k : Nat → FileM n α} {Q : α → View n → Prop}
    (hk : ∀ r, (fileProtocol n).wp (k r) Q v) : (fileProtocol n).wp (choose >>= k) Q v := by
  refine wp_ask ⟨ha, trivial⟩ ?_
  rintro r _ rfl
  exact hk r

theorem wp_iput (hown : 1 ≤ v.ownInode ip)
    (hQ : Q () (v.add (-tok (.inode ip)))) : (fileProtocol n).wp (iput ip) Q v := by
  refine ⟨⟨ha, hown⟩, fun r v' hv => ?_⟩
  subst hv
  exact hQ

theorem wp_iunlockput (hown : 1 ≤ v.ownInode ip)
    (hQ : Q () (v.add (-tok (.inode ip)))) : (fileProtocol n).wp (iunlockput ip) Q v := by
  refine wp_ask ⟨ha, trivial⟩ ?_
  rintro r _ rfl
  exact wp_iput ha hown hQ

theorem wp_dirlookup {Q : Option InodeId → View n → Prop} (hnone : Q none v)
    (hsome : ∀ ip, Q (some ip) (v.add (tok (.inode ip)))) :
    (fileProtocol n).wp (dirlookup dp) Q v := by
  refine wp_choose ha fun found => ?_
  split
  · exact hnone
  · refine wp_ask ⟨ha, trivial⟩ ?_
    rintro dev _ rfl
    refine wp_choose ha fun inum => ?_
    refine wp_ask ⟨ha, trivial⟩ ?_
    rintro ip _ rfl
    exact hsome ip

section

variable (hs : v.Solvent)

include hs

theorem wp_put_taken (hQ : Q () v) : (fileProtocol n).wp (iput ip) Q (v.add (tok (.inode ip))) := by
  refine wp_iput (v := v.add (tok (.inode ip))) ha hs.ownInode ?_
  rwa [View.add_add, add_neg_cancel, View.add_zero]

theorem wp_unlock_taken (hQ : Q () v) :
    (fileProtocol n).wp (iunlockput ip) Q (v.add (tok (.inode ip))) := by
  refine wp_iunlockput (v := v.add (tok (.inode ip))) ha hs.ownInode ?_
  rwa [View.add_add, add_neg_cancel, View.add_zero]

theorem wp_dirlink {Q : Bool → View n → Prop} (hQ : ∀ b, Q b v) :
    (fileProtocol n).wp (dirlink dp) Q v := by
  refine wp_bind (wp_dirlookup ha ?_ fun ip => ?_)
  · refine wp_choose ha fun written => ?_
    split
    · exact wp_panic (by decide)
    · exact hQ true
  · exact wp_bind (wp_put_taken ha hs (hQ false))

theorem wp_unlock_first (hQ : Q () (v.add (tok (.inode ip)))) :
    (fileProtocol n).wp (iunlockput dp) Q ((v.add (tok (.inode dp))).add (tok (.inode ip))) := by
  have hswap : (v.add (tok (.inode dp))).add (tok (.inode ip))
      = (v.add (tok (.inode ip))).add (tok (.inode dp)) := by
    rw [View.add_add, View.add_add, add_comm]
  rw [hswap]
  have hactive : (v.add (tok (.inode ip))).active = true := ha
  exact wp_unlock_taken hactive (hs.add _) hQ

theorem wp_walk {parent : Bool} {Q : Option (InodeId × Names.Name) → View n → Prop}
    (names : List Names.Name) (ip : InodeId) (hnone : Q none v)
    (hsome : ∀ ip name, Q (some (ip, name)) (v.add (tok (.inode ip)))) :
    (fileProtocol n).wp (walk parent ip names) Q (v.add (tok (.inode ip))) := by
  induction names generalizing ip with
  | nil =>
    rw [walk]
    split
    · exact wp_bind (wp_put_taken ha hs hnone)
    · exact hsome ip []
  | cons name rest ih =>
    have hactive : (v.add (tok (.inode ip))).active = true := ha
    rw [walk]
    refine wp_ask ⟨ha, trivial⟩ ?_
    rintro _ _ rfl
    refine wp_choose hactive fun type => ?_
    split
    · exact wp_bind (wp_unlock_taken ha hs hnone)
    · split
      · refine wp_ask ⟨ha, trivial⟩ ?_
        rintro _ _ rfl
        exact hsome ip name
      · refine wp_bind (wp_dirlookup hactive ?_ fun next => ?_)
        · exact wp_bind (wp_unlock_taken ha hs hnone)
        · exact wp_bind (wp_unlock_first ha hs (ih next))

theorem wp_namex {path : List Byte} {parent : Bool}
    {Q : Option (InodeId × Names.Name) → View n → Prop} (hnone : Q none v)
    (hsome : ∀ ip name, Q (some (ip, name)) (v.add (tok (.inode ip)))) :
    (fileProtocol n).wp (namex path parent) Q v := by
  rw [namex]
  split
  · refine wp_ask ⟨ha, trivial⟩ ?_
    rintro ip _ rfl
    exact wp_walk ha hs _ ip hnone hsome
  · refine wp_ask ⟨ha, fun _ => hs _⟩ ?_
    rintro ip _ rfl
    exact wp_walk ha hs _ ip hnone hsome

theorem wp_namei {path : List Byte} {Q : Option InodeId → View n → Prop}
    (hnone : Q none v) (hsome : ∀ ip, Q (some ip) (v.add (tok (.inode ip)))) :
    (fileProtocol n).wp (namei path) Q v :=
  wp_bind (wp_namex ha hs hnone fun ip _ => hsome ip)

theorem wp_createNew {type : Nat} {Q : InodeId → View n → Prop}
    (hQ : ∀ ip, Q ip (v.add (tok (.inode ip)))) :
    (fileProtocol n).wp (createNew dp type) Q (v.add (tok (.inode dp))) := by
  have hactive : (v.add (tok (.inode dp))).active = true := ha
  refine wp_ask ⟨ha, trivial⟩ ?_
  rintro dev _ rfl
  refine wp_bind (wp_choose hactive fun found => ?_)
  split
  · exact wp_panic (by decide)
  refine wp_choose hactive fun inum => ⟨⟨hactive, trivial⟩, fun ip v' hv => ?_⟩
  subst hv
  have hboth : ((v.add (tok (.inode dp))).add (tok (.inode ip))).active = true := ha
  have hsolvent := (hs.add (.inode dp)).add (.inode ip)
  refine wp_ask ⟨ha, trivial⟩ ?_
  rintro _ _ rfl
  have hlink : (fileProtocol n).wp (dirlink dp >>= fun linked =>
      if linked = true then iunlockput dp >>= fun _ => Prog.ret ip else panic "create: dirlink")
      Q ((v.add (tok (.inode dp))).add (tok (.inode ip))) := by
    refine wp_bind (wp_dirlink hboth hsolvent fun linked => ?_)
    split
    · exact wp_bind (wp_unlock_first ha hs (hQ ip))
    · exact wp_panic (by decide)
  split
  · refine wp_bind (wp_bind (wp_dirlink hboth hsolvent fun linked => ?_))
    split
    · refine wp_bind (wp_dirlink hboth hsolvent fun linked => ?_)
      split
      · exact hlink
      · exact wp_panic (by decide)
    · exact wp_panic (by decide)
  · exact hlink

theorem wp_create {path : List Byte} {type : Nat} {Q : Option InodeId → View n → Prop}
    (hnone : Q none v) (hsome : ∀ ip, Q (some ip) (v.add (tok (.inode ip)))) :
    (fileProtocol n).wp (create path type) Q v := by
  refine wp_bind (wp_namex ha hs hnone fun dp name => ?_)
  have hactive : (v.add (tok (.inode dp))).active = true := ha
  refine wp_ask ⟨ha, trivial⟩ ?_
  rintro _ _ rfl
  refine wp_bind (wp_dirlookup hactive ?_ fun ip => ?_)
  · exact wp_bind (wp_createNew ha hs hsome)
  · refine wp_bind (wp_unlock_first ha hs ?_)
    have hactive : (v.add (tok (.inode ip))).active = true := ha
    refine wp_ask ⟨ha, trivial⟩ ?_
    rintro _ _ rfl
    refine wp_choose hactive fun itype => ?_
    split
    · exact hsome ip
    · exact wp_bind (wp_unlock_taken ha hs hnone)

end

/-- All of `fileclose`; only a file without type may be closed inside an operation. -/
theorem wp_fileclose (hs : ∀ t, t ≠ .file f → 0 ≤ v.held t)
    (hown : 1 ≤ v.ownFile f) (hop : v.inOp = false ∨ v.fresh f = true) (hQ : Q () (v.closed f)) :
    (fileProtocol n).wp (fileclose f) Q v := by
  have hactive : (v.closed f).active = true := ha
  have hheld : ∀ t, t ≠ .file f → 1 ≤ ((v.closed f).add (tok t)).held t := fun t ht => by
    have hnonneg := hs t ht
    simp only [View.add, View.closed, Pi.add_apply, Pi.sub_apply, tok_self]
    rw [tok, if_neg ht]
    omega
  refine wp_ask ⟨ha, hown⟩ fun r v' hv => ?_
  obtain ⟨hfresh, rfl⟩ := hv
  match r with
  | none =>
    simp only [leftOver, View.add_zero]
    exact hQ
  | some ff =>
    match htype : ff.type with
    | .none =>
      simp only [leftOver, FileType.weight, htype, View.add_zero]
      exact hQ
    | .pipe p =>
      simp only [leftOver, FileType.weight, htype]
      refine wp_ask ⟨ha, hheld _ (by simp)⟩ ?_
      rintro last _ rfl
      cases last with
      | false =>
        simp only [View.add_add, Bool.false_eq_true, if_false, add_zero, add_neg_cancel,
          View.add_zero]
        exact hQ
      | true =>
        simp only [View.add_add, if_true, add_neg_cancel_left]
        refine ⟨⟨ha, hheld _ (by simp)⟩, fun _ v' hv => ?_⟩
        subst hv
        rw [View.add_add, add_neg_cancel, View.add_zero]
        exact hQ
    | .inode ip =>
      have hout : v.inOp = false := hop.resolve_right fun hf => by
        have hnone := hfresh hf ff rfl
        rw [htype] at hnone
        cases hnone
      simp only [leftOver, FileType.weight, htype]
      refine wp_ask ⟨ha, hout⟩ ?_
      rintro _ _ rfl
      have hown : 1 ≤ ({ (v.closed f).add (tok (.inode ip)) with inOp := true } :
          View n).ownInode ip := View.one_le_ownInode (hheld (.inode ip) (by simp))
      refine wp_bind (wp_iput (v := { (v.closed f).add (tok (.inode ip)) with
        inOp := true }) ha hown ?_)
      refine ⟨⟨ha, rfl⟩, fun _ v' hv => ?_⟩
      subst hv
      have hback : ({ (({ (v.closed f).add (tok (.inode ip)) with inOp := true } : View n).add
          (-tok (.inode ip))) with inOp := false } : View n) = v.closed f := by
        simp only [View.add, add_neg_cancel_right]
        ext <;> simp [View.closed, hout]
      rw [hback]
      exact hQ

end Functions

section Calls

variable {v : View n} {f : FileId} {ip : InodeId}

abbrev Returns {α : Type} (_ : α) (v : View n) : Prop := v.At false

theorem View.At.begin (h : v.At false) : ({ v with inOp := true } : View n).At true :=
  ⟨h.active, h.held, rfl, h.fresh, h.child⟩

theorem wp_beginOp {k : Unit → FileM n α} {Q : α → View n → Prop} (h : v.At false)
    (hk : ∀ u : View n, u.At true → (fileProtocol n).wp (k ()) Q u) :
    (fileProtocol n).wp (ask .beginOp >>= k) Q v := by
  refine wp_ask ⟨h.active, h.inOp⟩ ?_
  rintro _ _ rfl
  exact hk _ h.begin

theorem wp_endOp {r : Int} (h : v.At true) :
    (fileProtocol n).wp (ask .endOp >>= fun _ => Prog.ret r) Returns v := by
  refine wp_ask ⟨h.active, h.inOp⟩ ?_
  rintro _ _ rfl
  exact ⟨h.active, h.held, rfl, h.fresh, h.child⟩

/-- `ilock(ip)`, and the call fails if the type is not the one it needs. -/
theorem wp_typed {k : Nat → FileM n Int} {bad : Nat → Prop} [DecidablePred bad] (h : v.At true)
    (hk : ∀ type, (fileProtocol n).wp (k type) Returns (v.add (tok (.inode ip)))) :
    (fileProtocol n).wp (ask (.ilock ip) >>= fun _ => choose >>= fun type =>
      if bad type then iunlockput ip >>= fun _ => ask .endOp >>= fun _ => Prog.ret (-1)
      else k type) Returns (v.add (tok (.inode ip))) := by
  refine wp_ask ⟨h.active, trivial⟩ ?_
  rintro _ _ rfl
  refine wp_choose (v := v.add (tok (.inode ip))) h.active fun type => ?_
  split
  · exact wp_bind (wp_unlock_taken h.active h.solvent (wp_endOp h))
  · exact hk type

theorem wp_sysChdir (h : v.At false) : (fileProtocol n).wp (sysChdir path) Returns v := by
  cases path with
  | none => exact wp_beginOp h fun u hu => wp_endOp hu
  | some path =>
    refine wp_beginOp h fun u hu => ?_
    refine wp_bind (wp_namei hu.active hu.solvent (wp_endOp hu) fun ip => wp_typed hu fun _ => ?_)
    refine wp_ask ⟨hu.active, trivial⟩ ?_
    rintro _ _ rfl
    refine wp_ask ⟨hu.active, trivial⟩ ?_
    rintro cwd _ rfl
    -- the reference of `cwd` is dropped before the field is changed
    have hown : 1 ≤ ({ u.add (tok (.inode ip)) with cwd := some (some cwd) } :
        View n).ownInode cwd := by
      have hnonneg := (hu.solvent.add (.inode ip)) (.inode cwd)
      simp only [View.ownInode, if_true]
      omega
    refine wp_bind (wp_iput (v := { u.add (tok (.inode ip)) with
      cwd := some (some cwd) }) hu.active hown ?_)
    refine wp_ask ⟨hu.active, hu.inOp⟩ ?_
    rintro _ _ rfl
    refine wp_ask ⟨hu.active, ⟨cwd, rfl⟩⟩ fun _ v' hv => ?_
    obtain ⟨old, hold, rfl⟩ := hv
    cases hold
    refine ⟨hu.active, ?_, rfl, hu.fresh, hu.child⟩
    simp only [View.add, hu.held]
    abel

theorem wp_exec {path : List Byte} (h : v.At false) :
    (fileProtocol n).wp (exec path) Returns v := by
  refine wp_beginOp h fun u hu => ?_
  refine wp_bind (wp_namei hu.active hu.solvent (wp_endOp hu) fun ip => ?_)
  refine wp_ask ⟨hu.active, trivial⟩ ?_
  rintro _ _ rfl
  refine wp_choose (v := u.add (tok (.inode ip))) hu.active fun loaded => ?_
  refine wp_bind (wp_unlock_taken hu.active hu.solvent ?_)
  refine wp_ask ⟨hu.active, hu.inOp⟩ ?_
  rintro _ _ rfl
  have hend : ({ u with inOp := false } : View n).At false :=
    ⟨hu.active, hu.held, rfl, hu.fresh, hu.child⟩
  split
  · exact hend
  · refine wp_choose (v := { u with inOp := false }) hu.active fun stack => ?_
    split
    · exact hend
    · exact hend

theorem wp_linkBad (h : v.At true) :
    (fileProtocol n).wp (linkBad ip) Returns (v.add (tok (.inode ip))) := by
  refine wp_ask ⟨h.active, trivial⟩ ?_
  rintro _ _ rfl
  exact wp_bind (wp_unlock_taken h.active h.solvent (wp_endOp h))

theorem wp_sysLink {old new : Option (List Byte)} (h : v.At false) :
    (fileProtocol n).wp (sysLink old new) Returns v := by
  match old, new with
  | none, _ => exact h
  | some _, none => exact h
  | some old, some new =>
    refine wp_beginOp h fun u hu => ?_
    refine wp_bind (wp_namei hu.active hu.solvent (wp_endOp hu) fun ip => wp_typed hu fun _ => ?_)
    refine wp_ask ⟨hu.active, trivial⟩ ?_
    rintro _ _ rfl
    have hactive : (u.add (tok (.inode ip))).active = true := hu.active
    have hsolvent := hu.solvent.add (.inode ip)
    refine wp_bind (wp_namex hactive hsolvent (wp_linkBad hu) fun dp name => ?_)
    have hbad : (fileProtocol n).wp (iunlockput dp >>= fun _ => linkBad ip) Returns
        ((u.add (tok (.inode ip))).add (tok (.inode dp))) :=
      wp_bind (wp_unlock_taken hactive hsolvent (wp_linkBad hu))
    refine wp_ask ⟨hu.active, trivial⟩ ?_
    rintro _ _ rfl
    refine wp_ask ⟨hu.active, trivial⟩ ?_
    rintro devdp _ rfl
    refine wp_ask ⟨hu.active, trivial⟩ ?_
    rintro devip _ rfl
    split
    · exact hbad
    · refine wp_bind (wp_dirlink (v := (u.add (tok (.inode ip))).add (tok (.inode dp)))
        hactive (hsolvent.add (.inode dp)) fun linked => ?_)
      split
      · refine wp_bind (wp_unlock_taken hactive hsolvent ?_)
        exact wp_bind (wp_put_taken hu.active hu.solvent (wp_endOp hu))
      · exact hbad

theorem wp_unlinkBad (h : v.At true) :
    (fileProtocol n).wp (unlinkBad ip) Returns (v.add (tok (.inode ip))) :=
  wp_bind (wp_unlock_taken h.active h.solvent (wp_endOp h))

theorem wp_sysUnlink (h : v.At false) : (fileProtocol n).wp (sysUnlink path) Returns v := by
  cases path with
  | none => exact h
  | some path =>
    refine wp_beginOp h fun u hu => ?_
    refine wp_bind (wp_namex hu.active hu.solvent (wp_endOp hu) fun dp name => ?_)
    have hactive : (u.add (tok (.inode dp))).active = true := hu.active
    refine wp_ask ⟨hu.active, trivial⟩ ?_
    rintro _ _ rfl
    split
    · exact wp_unlinkBad hu
    refine wp_bind (wp_dirlookup hactive (wp_unlinkBad hu) fun ip => ?_)
    have hboth : ((u.add (tok (.inode dp))).add (tok (.inode ip))).active = true := hu.active
    refine wp_ask ⟨hu.active, trivial⟩ ?_
    rintro _ _ rfl
    refine wp_choose hboth fun nlink => ?_
    split
    · exact wp_panic (by decide)
    refine wp_choose hboth fun busy => ?_
    split
    · refine wp_bind (wp_unlock_taken hactive (hu.solvent.add _) ?_)
      exact wp_unlinkBad hu
    · refine wp_choose hboth fun written => ?_
      split
      · exact wp_panic (by decide)
      · refine wp_bind (wp_unlock_first hu.active hu.solvent ?_)
        exact wp_bind (wp_unlock_taken hu.active hu.solvent (wp_endOp hu))

theorem wp_sysMake {type : Nat} (h : v.At false) :
    (fileProtocol n).wp (sysMake type path) Returns v := by
  cases path with
  | none => exact wp_beginOp h fun u hu => wp_endOp hu
  | some path =>
    refine wp_beginOp h fun u hu => ?_
    refine wp_bind (wp_create hu.active hu.solvent (wp_endOp hu) fun ip => ?_)
    exact wp_bind (wp_unlock_taken hu.active hu.solvent (wp_endOp hu))

theorem View.known_nonneg (v : View n) (f : FileId) :
    0 ≤ ∑ fd, if v.known fd = some (some f) then (1 : Int) else 0 :=
  Finset.sum_nonneg fun fd _ => by split <;> decide

theorem View.one_le_ownFile (h : 1 ≤ v.held (.file f)) : 1 ≤ v.ownFile f := by
  have hnonneg := v.known_nonneg f
  simp only [ownFile]
  omega

theorem View.one_le_known {fd : Fin NOFILE} (h : v.known fd = some (some f)) :
    1 ≤ ∑ fd, if v.known fd = some (some f) then (1 : Int) else 0 := by
  refine le_trans ?_ (Finset.single_le_sum (f := fun fd =>
    if v.known fd = some (some f) then (1 : Int) else 0)
    (fun fd _ => by split <;> decide) (Finset.mem_univ fd))
  rw [if_pos h]

theorem View.ownFile_of_known {i : Fin NOFILE} (h : v.known i = some (some f))
    (hheld : 0 ≤ v.held (.file f)) : 1 ≤ v.ownFile f := by
  have hknown := View.one_le_known h
  simp only [ownFile]
  omega

theorem wp_argfd {fd : Int} {Q : Option (Fin NOFILE × FileId) → View n → Prop} (h : v.At false)
    (hnone : ∀ u : View n, u.At false → Q none u)
    (hsome : ∀ (u : View n) i f, u.At false → u.known i = some (some f) → Q (some (i, f)) u) :
    (fileProtocol n).wp (argfd fd) Q v := by
  rw [argfd]
  split
  · exact hnone v h
  · case _ i _ =>
    refine wp_ask ⟨h.active, trivial⟩ ?_
    rintro r _ rfl
    have hat : ({ v with known := update v.known i (some r) } : View n).At false :=
      ⟨h.active, h.held, h.inOp, h.fresh, h.child⟩
    cases r with
    | none => exact hnone _ hat
    | some f => exact hsome _ i f hat (update_self ..)

theorem wp_sysDup {fd : Int} (h : v.At false) : (fileProtocol n).wp (sysDup fd) Returns v := by
  refine wp_bind (wp_argfd h (fun u hu => hu) fun u i f hu hknown => ?_)
  refine wp_ask ⟨hu.active, trivial⟩ fun r v' hv => ?_
  cases r with
  | none =>
    obtain rfl : v' = u := hv
    exact hu
  | some fd =>
    obtain ⟨hempty, rfl⟩ := hv
    -- the new descriptor is there before the reference is counted
    have hown : 1 ≤ ({ u.add (-tok (.file f)) with
        known := update u.known fd (some (some f)) } : View n).ownFile f := by
      obtain ⟨rest, hsum, hupdate⟩ := sum_slot
        (fun x => if x = some (some f) then (1 : Int) else 0) u.known fd
      have hone := View.one_le_known hknown
      rw [hsum, if_neg (hempty f)] at hone
      rw [View.ownFile, hupdate, if_pos rfl]
      simp only [View.add, hu.held, Pi.add_apply, Pi.neg_apply, Pi.zero_apply, tok_self]
      omega
    refine wp_ask ⟨hu.active, hown⟩ ?_
    rintro _ _ rfl
    refine ⟨hu.active, ?_, hu.inOp, hu.fresh, hu.child⟩
    simp only [View.add, hu.held]
    abel

theorem wp_close_held {d : Token → Int} (ha : v.active = true) (hheld : v.held = d + tok (.file f))
    (hd : ∀ t, 0 ≤ d t) (hop : v.inOp = false ∨ v.fresh f = true)
    (hQ : Q () { v with held := d, fresh := update v.fresh f false }) :
    (fileProtocol n).wp (fileclose f) Q v := by
  refine wp_fileclose ha (fun t _ => ?_) (View.one_le_ownFile ?_) hop ?_
  · rw [hheld]
    exact Int.add_nonneg (hd t) (tok_nonneg _ t)
  · have hfile := hd (.file f)
    rw [hheld, Pi.add_apply, tok_self]
    omega
  · have hclosed : v.closed f = { v with held := d, fresh := update v.fresh f false } := by
      simp only [View.closed, hheld, add_sub_cancel_right]
    rw [hclosed]
    exact hQ

theorem update_fresh {fresh : FileId → Bool} (h : fresh = fun _ => false) (f : FileId) :
    update fresh f false = fun _ => false := by
  subst h
  exact update_eq_self f fun _ => false

theorem wp_sysClose {fd : Int} (h : v.At false) : (fileProtocol n).wp (sysClose fd) Returns v := by
  refine wp_bind (wp_argfd h (fun u hu => hu) fun u i f hu hknown => ?_)
  refine wp_ask ⟨hu.active, ⟨f, hknown⟩⟩ fun _ v' hv => ?_
  obtain ⟨g, hg, rfl⟩ := hv
  rw [hknown] at hg
  cases hg
  refine wp_bind (wp_close_held (d := 0) hu.active ?_ (fun _ => Int.le_refl 0) (.inl hu.inOp) ?_)
  · simp only [View.add, hu.held]
  · exact ⟨hu.active, rfl, hu.inOp, update_fresh hu.fresh f, hu.child⟩

theorem wp_openInode {omode : BitVec 32} (h : v.At true) :
    (fileProtocol n).wp (openInode ip omode) Returns (v.add (tok (.inode ip))) := by
  refine wp_ask ⟨h.active, trivial⟩ fun r v' hv => ?_
  cases r with
  | none =>
    obtain rfl : v' = v.add (tok (.inode ip)) := hv
    exact wp_bind (wp_unlock_taken h.active h.solvent (wp_endOp h))
  | some f =>
    obtain ⟨-, rfl⟩ := hv
    have hfresh : update (update v.fresh f true) f false = v.fresh := by
      rw [update_idem, update_fresh h.fresh, h.fresh]
    refine wp_ask ⟨h.active, trivial⟩ fun r v' hv => ?_
    cases r with
    | none =>
      obtain rfl := hv
      refine wp_bind (wp_close_held (d := v.held + tok (.inode ip)) h.active rfl
        (h.solvent.add _) (.inr (update_self ..)) ?_)
      simp only [View.add, hfresh]
      exact wp_bind (wp_unlock_taken h.active h.solvent (wp_endOp h))
    | some fd =>
      obtain ⟨-, rfl⟩ := hv
      refine wp_ask ⟨h.active, trivial⟩ ?_
      rintro _ _ rfl
      refine wp_ask ⟨h.active, h.inOp⟩ ?_
      rintro _ _ rfl
      refine wp_ask ⟨h.active, update_self .., ?_⟩ fun _ v' hv => ?_
      · refine View.one_le_ownInode ?_
        simp [View.add, h.held, tok]
      · subst hv
        refine ⟨h.active, ?_, rfl, hfresh.trans h.fresh, h.child⟩
        simp only [View.add, h.held, FileType.weight]
        abel

theorem wp_sysOpen {omode : BitVec 32} (h : v.At false) :
    (fileProtocol n).wp (sysOpen omode path) Returns v := by
  cases path with
  | none => exact h
  | some path =>
    refine wp_beginOp h fun u hu => ?_
    split
    · refine wp_bind (wp_create hu.active hu.solvent (wp_endOp hu) fun ip => ?_)
      exact wp_openInode hu
    · refine wp_bind (wp_namei hu.active hu.solvent (wp_endOp hu) fun ip => ?_)
      exact wp_typed hu fun _ => wp_openInode hu

theorem wp_close_both {rf wf : FileId} {r : α} {Q : α → View n → Prop}
    (ha : v.active = true) (hheld : v.held = tok (.file rf) + tok (.file wf))
    (hop : v.inOp = false)
    (hQ : ∀ u : View n, u.active = true → u.held = 0 → u.inOp = false → u.child = v.child →
      u.fresh = update (update v.fresh rf false) wf false → Q r u) :
    (fileProtocol n).wp (fileclose rf >>= fun _ => fileclose wf >>= fun _ => Prog.ret r) Q v := by
  refine wp_bind (wp_close_held (d := tok (.file wf)) ha ?_ (tok_nonneg _) (.inl hop) ?_)
  · rw [hheld, add_comm]
  · refine wp_bind (wp_close_held (d := 0) ha (zero_add _).symm
      (fun _ => Int.le_refl 0) (.inl hop) ?_)
    exact hQ _ ha rfl hop rfl rfl

theorem wp_pipealloc {Q : Option (FileId × FileId) → View n → Prop} (h : v.At false)
    (hnone : ∀ u : View n, u.At false → Q none u)
    (hsome : ∀ (u : View n) rf wf, u.active = true → u.inOp = false → u.child = none →
      u.fresh = (fun _ => false) → u.held = tok (.file rf) + tok (.file wf) →
      Q (some (rf, wf)) u) : (fileProtocol n).wp pipealloc Q v := by
  refine wp_ask ⟨h.active, trivial⟩ fun r v' hv => ?_
  cases r with
  | none =>
    obtain rfl : v' = v := hv
    exact hnone v' h
  | some f0 =>
    obtain ⟨-, rfl⟩ := hv
    refine wp_ask ⟨h.active, trivial⟩ fun r v' hv => ?_
    cases r with
    | none =>
      obtain rfl := hv
      refine wp_bind (wp_close_held (d := 0) h.active ?_ (fun _ => Int.le_refl 0) (.inl h.inOp) ?_)
      · simp only [View.add, h.held]
      · refine hnone _ ⟨h.active, rfl, h.inOp, ?_, h.child⟩
        simp only [update_idem]
        exact update_fresh h.fresh f0
    | some f1 =>
      obtain ⟨hnew, rfl⟩ := hv
      have hne : f1 ≠ f0 := by
        rintro rfl
        simp at hnew
      refine wp_ask ⟨h.active, trivial⟩ fun r v' hv => ?_
      cases r with
      | none =>
        obtain rfl := hv
        refine wp_close_both h.active ?_ h.inOp fun u hactive hheld hinOp hchild hfresh => ?_
        · simp only [View.add, h.held, zero_add]
        · refine hnone u ⟨hactive, hheld, hinOp, ?_, hchild.trans h.child⟩
          funext f
          simp only [hfresh, h.fresh, update_apply]
          split <;> simp_all
      | some p =>
        obtain rfl := hv
        refine wp_ask ⟨h.active, ?_, ?_⟩ fun _ v' hv => ?_
        · simp [View.add, update_of_ne hne.symm]
        · simp [View.add, h.held, tok]
        subst hv
        refine wp_ask ⟨h.active, ?_, ?_⟩ fun _ v' hv => ?_
        · simp [View.add, update_of_ne hne]
        · simp [View.add, h.held, tok, FileType.weight]
        subst hv
        refine hsome _ f0 f1 h.active h.inOp h.child ?_ ?_
        · funext f
          simp only [View.add, h.fresh, update_apply]
          split <;> simp_all
        · simp only [View.add, h.held, FileType.weight]
          abel

theorem wp_sysPipe {argptr : Bool} (h : v.At false) :
    (fileProtocol n).wp (sysPipe argptr) Returns v := by
  rw [sysPipe]
  split
  · refine wp_bind (wp_pipealloc h (fun u hu => hu)
      fun u rf wf ha hop hchild hfresh hheld => ?_)
    have hclear : ∀ fresh : FileId → Bool, fresh = (fun _ => false) →
        update (update fresh rf false) wf false = fun _ => false :=
      fun fresh hf => by rw [update_fresh hf rf, update_fresh rfl wf]
    refine wp_ask ⟨ha, trivial⟩ fun r v' hv => ?_
    cases r with
    | none =>
      obtain rfl : v' = u := hv
      exact wp_close_both ha hheld hop fun w hactive hheld' hinOp hchild' hfresh' =>
        ⟨hactive, hheld', hinOp, hfresh'.trans (hclear _ hfresh), hchild'.trans hchild⟩
    | some fd0 =>
      obtain ⟨-, rfl⟩ := hv
      refine wp_ask ⟨ha, trivial⟩ fun r v' hv => ?_
      cases r with
      | none =>
        obtain rfl := hv
        refine wp_ask ⟨ha, ⟨rf, update_self ..⟩⟩ fun _ v' hv => ?_
        obtain ⟨g, hg, rfl⟩ := hv
        simp only [update_self, Option.some.injEq] at hg
        subst hg
        refine wp_close_both ha ?_ hop fun w hactive hheld' hinOp hchild' hfresh' =>
          ⟨hactive, hheld', hinOp, hfresh'.trans (hclear _ hfresh), hchild'.trans hchild⟩
        simp only [View.add, hheld]
        abel
      | some fd1 =>
        obtain ⟨-, rfl⟩ := hv
        refine ⟨ha, ?_, hop, hfresh, hchild⟩
        simp only [View.add, hheld]
        abel
  · exact h

theorem wp_copySlots {np : Fin n} {l : List (Fin NOFILE)} {slots : Fin NOFILE → Bool}
    (hl : l.Nodup) (hslots : ∀ i ∈ l, slots i = true) (ha : v.active = true) (hheld : v.held = 0)
    (hop : v.inOp = false) (hfresh : v.fresh = fun _ => false)
    (hchild : v.child = some ⟨np, slots, true⟩)
    (hQ : ∀ (u : View n) slots, u.active = true → u.held = 0 → u.inOp = false →
      u.fresh = (fun _ => false) → u.child = some ⟨np, slots, true⟩ → Q () u) :
    (fileProtocol n).wp (l.forM (copySlot np)) Q v := by
  induction l generalizing v slots with
  | nil => exact hQ v slots ha hheld hop hfresh hchild
  | cons i l ih =>
    change (fileProtocol n).wp (copySlot np i >>= fun _ => l.forM (copySlot np)) Q v
    have hrest : ∀ j ∈ l, slots j = true := fun j hj => hslots j (mem_cons_of_mem i hj)
    obtain ⟨hil, hl⟩ := nodup_cons.mp hl
    refine wp_bind (wp_ask ⟨ha, trivial⟩ ?_)
    rintro r _ rfl
    cases r with
    | none => exact ih hl hrest ha hheld hop hfresh hchild
    | some f =>
      have hnonneg : 0 ≤ v.held (.file f) := by rw [hheld]; exact Int.le_refl 0
      refine wp_ask ⟨ha, View.ownFile_of_known (i := i) (update_self ..) hnonneg⟩ ?_
      rintro _ _ rfl
      refine ⟨⟨ha, ?_, ?_, slots, true, hchild, hslots i mem_cons_self⟩, fun _ v' hv => ?_⟩
      · simp [View.add, hheld]
      · simp [View.add, hfresh]
      · obtain ⟨slots', cwd, hchild', rfl⟩ := hv
        have hsame := hchild.symm.trans hchild'
        cases hsame
        refine ih hl (fun j hj => ?_) ha ?_ hop hfresh rfl
        · have hji : j ≠ i := fun heq => hil (heq ▸ hj)
          rw [update_of_ne hji]
          exact hrest j hj
        · simp only [View.add, hheld]
          abel

theorem wp_fork (h : v.At false) : (fileProtocol n).wp fork Returns v := by
  refine wp_ask ⟨h.active, h.child⟩ fun r v' hv => ?_
  cases r with
  | none =>
    obtain rfl : v' = v := hv
    exact h
  | some np =>
    obtain rfl := hv
    refine wp_choose (v := { v with child := some ⟨np, fun _ => true, true⟩ }) h.active
      fun copied => ?_
    split
    · refine wp_ask ⟨h.active, rfl⟩ ?_
      rintro _ _ rfl
      exact ⟨h.active, h.held, h.inOp, h.fresh, rfl⟩
    · refine wp_bind (wp_copySlots
        (v := { v with child := some ⟨np, fun _ => true, true⟩ }) (nodup_finRange NOFILE)
        (fun _ _ => rfl) h.active h.held h.inOp h.fresh rfl fun u slots ha hheld hop hfresh
        hchild => ?_)
      have hzero : ∀ ip, 0 ≤ u.held (.inode ip) := fun ip => by rw [hheld]; exact Int.le_refl 0
      refine wp_ask ⟨ha, hzero⟩ ?_
      rintro ip _ rfl
      refine wp_ask ⟨ha, ?_, slots, hchild⟩ fun _ v' hv => ?_
      · refine View.one_le_ownInode ?_
        simp [View.add, hheld]
      · obtain ⟨slots', -, rfl⟩ := hv
        refine wp_ask ⟨ha, slots', false, rfl⟩ ?_
        rintro _ _ rfl
        refine ⟨ha, ?_, hop, hfresh, rfl⟩
        simp only [View.add, hheld]
        abel

theorem wp_closeSlots {l : List (Fin NOFILE)} (h : v.At false) (hQ : ∀ u : View n, u.At false →
      (∀ i, i ∈ l ∨ v.known i = some none → u.known i = some none) → Q () u) :
    (fileProtocol n).wp (l.forM closeSlot) Q v := by
  induction l generalizing v with
  | nil => exact hQ v h fun i hi => hi.resolve_left (by simp)
  | cons i l ih =>
    change (fileProtocol n).wp (closeSlot i >>= fun _ => l.forM closeSlot) Q v
    -- after this round `i` is known to be empty
    have hround : ∀ u : View n, u.At false → u.known = update v.known i (some none) →
        (fileProtocol n).wp (l.forM closeSlot) Q u := fun u hu hknown => by
      refine ih hu fun w hw hall => hQ w hw fun j hj => hall j ?_
      rw [hknown, update_apply, mem_cons] at *
      split <;> simp_all
    refine wp_bind (wp_ask ⟨h.active, trivial⟩ ?_)
    rintro r _ rfl
    cases r with
    | none => exact hround _ ⟨h.active, h.held, h.inOp, h.fresh, h.child⟩ rfl
    | some f =>
      have hown : 1 ≤ ({ v with known := update v.known i (some (some f)) } : View n).ownFile f :=
        View.ownFile_of_known (i := i) (update_self ..) (h.solvent _)
      refine wp_bind (wp_fileclose
        (v := { v with known := update v.known i (some (some f)) }) h.active
        (fun t _ => h.solvent t) hown (.inl h.inOp) ?_)
      refine ⟨⟨h.active, ⟨f, update_self ..⟩⟩, fun _ v' hv => ?_⟩
      obtain ⟨g, hg, rfl⟩ := hv
      simp only [View.closed, update_self, Option.some.injEq] at hg
      subst hg
      refine hround _ ⟨h.active, ?_, h.inOp, update_fresh h.fresh f, h.child⟩ ?_
      · simp only [View.add, View.closed, h.held]
        abel
      · simp only [View.closed, update_idem]

theorem wp_exit (h : v.At false) : (fileProtocol n).wp exit (fun _ u => u = .idle) v := by
  refine wp_ask ⟨h.active, trivial⟩ ?_
  rintro _ _ rfl
  refine wp_bind (wp_closeSlots h fun u hu hall => ?_)
  refine wp_ask ⟨hu.active, hu.inOp⟩ ?_
  rintro _ _ rfl
  refine wp_ask ⟨hu.active, trivial⟩ ?_
  rintro cwd _ rfl
  have hown : 1 ≤ ({ u with inOp := true, cwd := some (some cwd) } : View n).ownInode cwd := by
    have hnonneg := hu.solvent (.inode cwd)
    simp only [View.ownInode, if_true]
    omega
  refine wp_bind (wp_iput (v := { u with inOp := true, cwd := some (some cwd) }) hu.active hown ?_)
  refine wp_ask ⟨hu.active, rfl⟩ ?_
  rintro _ _ rfl
  refine wp_ask ⟨hu.active, ⟨cwd, rfl⟩⟩ fun _ v' hv => ?_
  obtain ⟨old, hold, rfl⟩ := hv
  cases hold
  refine ⟨⟨hu.active, ⟨hu.active, ?_, rfl, hu.fresh, hu.child⟩, fun fd => ?_, rfl⟩, ?_⟩
  · simp only [View.add, hu.held]
    abel
  · exact hall fd (.inl (mem_finRange fd))
  · exact fun _ v' hv => hv

theorem wp_body (c : Call n) : (fileProtocol n).wp (body c) (fun _ v => v = .idle) .idle := by
  have hentered : ({ View.idle with active := true } : View n).At false :=
    ⟨rfl, rfl, rfl, rfl, rfl⟩
  -- every call but `exit` ends with `leave`
  have hcall : ∀ p : FileM n Int, (∀ v : View n, v.At false → (fileProtocol n).wp p Returns v) →
      (fileProtocol n).wp (ask .enter >>= fun _ => p >>= fun _ => ask .leave)
        (fun _ v => v = .idle) .idle := fun p hp => by
    refine wp_ask rfl ?_
    rintro _ _ rfl
    refine wp_bind (wp_mono (hp _ hentered) fun _ u hu => ?_)
    exact ⟨⟨hu.active, hu⟩, fun _ v' hv => hv⟩
  cases c with
  | exit =>
    refine wp_ask rfl ?_
    rintro _ _ rfl
    exact wp_exit hentered
  | dup fd => exact hcall _ fun v h => wp_sysDup h
  | close fd => exact hcall _ fun v h => wp_sysClose h
  | pipe argptr => exact hcall _ fun v h => wp_sysPipe h
  | link old new => exact hcall _ fun v h => wp_sysLink h
  | unlink path => exact hcall _ fun v h => wp_sysUnlink h
  | «open» path omode => exact hcall _ fun v h => wp_sysOpen h
  | mkdir path | mknod path => exact hcall _ fun v h => wp_sysMake h
  | chdir path => exact hcall _ fun v h => wp_sysChdir h
  | exec path => exact hcall _ fun v h => wp_exec h
  | fork => exact hcall _ fun v h => wp_fork h
  | wait np =>
    refine hcall _ fun v h => wp_ask ⟨h.active, trivial⟩ ?_
    rintro _ _ rfl
    exact h

end Calls

end Xv6.Files
