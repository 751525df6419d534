import Xv6.Vm.Leak

/-!
# What a failing `exec` leaves behind

`exec` with what its caller has: the fields of the process, the trap frame at the top of the
kernel stack, the inode that is looked up and the transaction around its use.  `namei` is
given by what it finds; the references and locks it takes on the way are its own.
-/

namespace Xv6.Vm

open Lib Lib.Act List

/-- `sizeof(struct trapframe)` -/
abbrev TRAPFRAME : Nat := 76

/-- The fields of `struct proc` that `exec` could change. -/
structure Caller where
  space : Space
  kstack : Nat
  name : List UInt8
  ofile : Nat → Option Nat

/-- A process in `exec`: the references and locks on inodes that it holds, and how many of
its `begin_op`s are still without `end_op`. -/
structure Task where
  mem : Mem
  proc : Caller
  refs : List Nat
  locks : List Nat
  ops : Nat

abbrev TaskM := Act Task

namespace Task

def vm {α : Type} (f : VmM α) : TaskM α := Act.zoom Task.mem (fun t m => { t with mem := m }) f

def beginOp : TaskM Unit := Act.modify fun t => { t with ops := t.ops + 1 }

def endOp : TaskM Unit := Act.modify fun t => { t with ops := t.ops - 1 }

/-- `namei` of a path that names the inode. -/
def namei (inum : Nat) : TaskM Unit := Act.modify fun t => { t with refs := inum :: t.refs }

def ilock (inum : Nat) : TaskM Unit := Act.modify fun t => { t with locks := inum :: t.locks }

def iunlockput (inum : Nat) : TaskM Unit :=
  Act.modify fun t => { t with locks := t.locks.erase inum, refs := t.refs.erase inum }

/-- The part of a path after its last `/`. -/
def lastName : List UInt8 → List UInt8 → List UInt8
  | last, [] => last
  | last, c :: s => lastName (if c = 47 then s else last) s

/-- `exec` gives the process its name and the new address space. -/
def commit (path : List UInt8) (space : Space) : TaskM Unit := Act.modify fun t =>
  { t with proc := { t.proc with name := (lastName path path).take 15, space := space } }

/-- `tf->eip` and `tf->esp` are set. -/
def setTrap (kstack eip esp : Nat) : VmM Unit := do
  let m ← Act.get
  let p := copyInto (m.bytes kstack) (PGSIZE - 20) (wordBytes [eip]) 4
  fillPage kstack (copyInto p (PGSIZE - 8) (wordBytes [esp]) 4)

/-- `exec` up to `iunlockput`: the header and the program headers. -/
def execLoad (L : Layout) (ip : Inode) : VmM (Option (Nat × Pgdir)) :=
  if ip.readi 0 ELFHDR ≠ some ELFHDR then pure none
  else if ip.magic ≠ ELF_MAGIC then pure none
  else do
    match ← setupkvm L with
    | none => pure none
    | some d => do
      let r ← loadSegments L ip ip.phnum ip.phoff 0 d
      match r.1 with
      | none => do
        freevm L r.2
        pure none
      | some sz => pure (some (sz, r.2))

def execRest (L : Layout) (ip : Inode) (path : List UInt8) (argv : List (List UInt8))
    (sz : Nat) (d : Pgdir) : TaskM Int := do
  match ← vm (execArgs d sz argv) with
  | none => do
    vm (freevm L d)
    pure (-1)
  | some sp => do
    let t ← Act.get
    commit path ⟨d, sz⟩
    vm (setTrap t.proc.kstack ip.entry sp)
    vm (freevm L t.proc.space.pgdir)
    pure 0

/-- `exec`; the file system is given by the file that a path names. -/
def exec (L : Layout) (files : List UInt8 → Option (Nat × Inode)) (path : List UInt8)
    (argv : List (List UInt8)) : TaskM Int := do
  beginOp
  match files path with
  | none => do
    endOp
    pure (-1)
  | some (inum, ip) => do
    namei inum
    ilock inum
    match ← vm (execLoad L ip) with
    | none => do
      iunlockput inum
      endOp
      pure (-1)
    | some (sz, d) => do
      iunlockput inum
      endOp
      match ← vm (execStack L sz d) with
      | none => pure (-1)
      | some (sz, d) => execRest L ip path argv sz d

structure Clean {L : Layout} (A : Pages L) (rest : Multiset Nat) (t t' : Task) : Prop where
  proc : t'.proc = t.proc
  trapframe : ∀ i, PGSIZE - TRAPFRAME ≤ i → i < PGSIZE →
    t'.mem.bytes t.proc.kstack i = t.mem.bytes t.proc.kstack i
  memory : ∀ f ∈ t.proc.space.pgdir.frames, t'.mem.bytes f = t.mem.bytes f
  pages : Owns A t'.mem (t.proc.space.pgdir.frames + ({t.proc.kstack} + rest))
  refs : t'.refs = t.refs
  locks : t'.locks = t.locks
  ops : t'.ops = t.ops

/-- The pages of the old address space are on the free list, once each, and the process has
those of the new one. -/
def Exchanged {L : Layout} (A : Pages L) (rest : Multiset Nat) (t t' : Task) : Prop :=
  ∃ free : List Nat, Chain t'.mem.next t'.mem.freelist free ∧
    (free : Multiset Nat) + (t'.proc.space.pgdir.frames + ({t.proc.kstack} + rest)) = A.all ∧
    t.proc.space.pgdir.frames ≤ free

def Promised {L : Layout} (A : Pages L) (rest : Multiset Nat) (t : Task) (r : Int) (t' : Task) :
    Prop := r = -1 ∧ Clean A rest t t' ∨ r = 0 ∧ Exchanged A rest t t'

variable {L : Layout} {A : Pages L} {E : String → Prop} {rest : Multiset Nat} {t t' : Task}
  {files : List UInt8 → Option (Nat × Inode)} {path : List UInt8} {argv : List (List UInt8)}
  {ip : Inode} {sz : Nat} {d : Pgdir}

theorem wp_vm {α : Type} {f : VmM α} {Q : α → Task → Prop} :
    wp E (vm f) Q t ↔ wp E f (fun a m => Q a { t with mem := m }) t.mem := wp_zoom

theorem wp_execLoad {Q : Option (Nat × Pgdir) → Mem → Prop} {m : Mem}
    (h : wp E (execImage L ip) Q m) :
    wp E (execLoad L ip) (fun r m => match r with
      | none => Q none m
      | some (sz, d) => wp E (execStack L sz d) Q m) m := by
  unfold execImage at h
  unfold execLoad
  split_ifs at h ⊢ with hread hmagic
  · rw [wp_pure] at h ⊢
    exact h
  · rw [wp_pure] at h ⊢
    exact h
  rw [wp_bind] at h ⊢
  refine wp_mono h fun r m1 hr => ?_
  cases r with
  | none =>
    rw [wp_pure] at hr ⊢
    exact hr
  | some d =>
    simp only at hr ⊢
    rw [wp_bind] at hr ⊢
    refine wp_mono hr fun r m2 hr => ?_
    cases hsz : r.1 with
    | none =>
      simp only [hsz] at hr ⊢
      rw [wp_bind] at hr ⊢
      refine wp_mono hr fun _ m' hm' => ?_
      rw [wp_pure] at hm' ⊢
      exact hm'
    | some sz =>
      simp only [hsz] at hr ⊢
      rw [wp_pure]
      exact hr

/-- The inode and the transaction are given back on the way: what `exec` does is what it
does to memory before the arguments, and what it does from there on. -/
theorem wp_exec {inum : Nat} {Q : Int → Task → Prop} (hfile : files path = some (inum, ip))
    (h : wp E (execImage L ip) (fun r m => match r with
      | none => Q (-1) { t with mem := m }
      | some (sz, d) => wp E (execRest L ip path argv sz d) Q { t with mem := m }) t.mem) :
    wp E (exec L files path argv) Q t := by
  unfold exec beginOp
  rw [wp_bind, wp_modify, hfile]
  simp only [namei, ilock]
  rw [wp_bind, wp_modify, wp_bind, wp_modify, wp_bind, wp_vm]
  refine wp_mono (wp_execLoad h) fun r m hr => ?_
  cases r with
  | none =>
    simp only [iunlockput, endOp]
    rw [wp_bind, wp_modify, wp_bind, wp_modify, wp_pure]
    simpa using hr
  | some r =>
    simp only [iunlockput, endOp]
    rw [wp_bind, wp_modify, wp_bind, wp_modify, wp_bind, wp_vm]
    simp only [erase_cons_head, Nat.add_sub_cancel]
    refine wp_mono hr fun r m' hr' => ?_
    cases r with
    | none =>
      rw [wp_pure]
      exact hr'
    | some r => exact hr'

theorem wp_execRest_fits {m1 : Mem} (hfit : ArgsFit sz (argv.take MAXARG) sz)
    (hstacked : Stacked sz d)
    (hloads : Loads A (t.proc.space.pgdir.frames + ({t.proc.kstack} + rest)) t.mem m1)
    (h : Owns A m1 (d.frames + (t.proc.space.pgdir.frames + ({t.proc.kstack} + rest)))) :
    wp E (execRest L ip path argv sz d) (Promised A rest t) { t with mem := m1 } := by
  unfold execRest
  rw [wp_bind, wp_vm]
  refine wp_mono (wp_execArgs hstacked hfit) ?_
  intro r m2 hcopies
  have howns2 := h.copies hcopies fun j x hx hu => hstacked.user_below hx hu
  cases r with
  | none =>
    simp only
    rw [wp_bind, wp_vm]
    refine wp_mono (wp_freevm howns2) ?_
    rintro - m' ⟨hsame, howns'⟩
    rw [wp_pure]
    have hbytes : ∀ f ∈ t.proc.space.pgdir.frames + ({t.proc.kstack} + rest),
        m'.bytes f = t.mem.bytes f := by
      intro f hf
      rw [hsame.bytes f hf, hcopies.bytes, hloads.bytes f hf]
      rintro j x hx hu rfl
      have hmem := Pgdir.frame_mem_frames (hstacked.user_below hx hu) hx
      obtain ⟨free, -, heq⟩ := h
      have hnodup := (Multiset.nodup_add.mp (heq ▸ A.nodup)).2.1
      exact Multiset.disjoint_left.mp (Multiset.nodup_add.mp hnodup).2.2 hmem hf
    refine Or.inl ⟨rfl, rfl, fun i _ _ => ?_, fun f hf => ?_, howns', rfl, rfl, rfl⟩
    · rw [hbytes]
      simp
    · exact hbytes f (Multiset.mem_add.mpr (Or.inl hf))
  | some sp =>
    simp only [commit]
    rw [wp_bind, wp_get, wp_bind, wp_modify, wp_bind, wp_vm]
    unfold setTrap fillPage
    rw [wp_bind, wp_get, wp_modify, wp_bind, wp_vm]
    rw [add_left_comm] at howns2
    have hstack : t.proc.kstack ∈
        t.proc.space.pgdir.frames + (d.frames + ({t.proc.kstack} + rest)) := by simp
    refine wp_mono (wp_freevm (howns2.setPage hstack _)) ?_
    rintro - m' ⟨-, free, hchain, hfree⟩
    rw [wp_pure]
    refine Or.inr ⟨rfl, free, hchain, hfree, ?_⟩
    obtain ⟨free2, -, hfree2⟩ := howns2
    have heq : (free : Multiset Nat) = free2 + t.proc.space.pgdir.frames :=
      add_right_cancel (hfree.trans (by rw [add_assoc]; exact hfree2.symm))
    rw [heq]
    exact Multiset.le_add_left _ _

/-- With a word at address 0 that names the kernel stack its page is overwritten. -/
theorem wp_execRest_null {m1 : Mem} (hstacked : Stacked sz d) (hwithin : d.Within L)
    (hk : t.proc.kstack ∉ d.frames)
    (hlen : ∀ s ∈ argv, s.length < PHYSTOP) (hfit : ¬ ArgsFit sz (argv.take MAXARG) sz)
    (hnull : ∀ i, m1.null i = some ⟨t.proc.kstack, true, true⟩) :
    wp E (execRest L ip path argv sz d) (fun r t' => r = -1 ∧
      Overwritten argv (t'.mem.bytes t.proc.kstack)) { t with mem := m1 } := by
  unfold execRest
  rw [wp_bind, wp_vm]
  refine wp_mono (wp_execArgs_null hstacked hlen hfit hnull rfl) ?_
  rintro r m2 ⟨rfl, hover⟩
  simp only
  rw [wp_bind, wp_vm]
  refine wp_mono (wp_freevm_within hwithin) ?_
  intro _ m' hfrees
  rw [wp_pure, hfrees.bytes _ hk]
  exact ⟨rfl, hover⟩

def Built (L : Layout) (ip : Inode) (m : Mem) : Prop :=
  ∃ r m1, execImage L ip m = .ok (some r) m1

theorem Built.congr {m m' : Mem} (h : Built L ip m) (heq : m.withNull none = m'.withNull none) :
    Built L ip m' := by
  obtain ⟨r, m1, hrun⟩ := h
  have hrun' : (execImage L ip m').mapState (Mem.withNull none) =
      .ok (some r) (m1.withNull none) := by
    rw [← blind_execImage, ← heq, blind_execImage, hrun]
    rfl
  cases hout : execImage L ip m' with
  | ok a m2 =>
    rw [hout] at hrun'
    obtain ⟨rfl, -⟩ := Outcome.ok.inj hrun'
    exact ⟨r, m2, hout⟩
  | blocked | panic msg =>
    rw [hout] at hrun'
    cases hrun'

theorem wp_exec_null {inum : Nat} {r : Nat × Pgdir} {m1 : Mem}
    (howns : Owns A t.mem (t.proc.space.pgdir.frames + ({t.proc.kstack} + rest)))
    (hfile : files path = some (inum, ip)) (hrun : execImage L ip t.mem = .ok (some r) m1)
    (hlen : ∀ s ∈ argv, s.length < PHYSTOP)
    (hfit : ¬ ArgsFit (imageSize ip) (argv.take MAXARG) (imageSize ip)) :
    wp E (exec L files path argv) (fun r t' => r = -1 ∧
      Overwritten argv (t'.mem.bytes t.proc.kstack))
      { t with mem := t.mem.withNull (some ⟨t.proc.kstack, true, true⟩) } := by
  obtain ⟨sz, d⟩ := r
  have hpost := wp_ok (wp_execImage (E := fun _ => False) howns) hrun
  obtain ⟨howns1, hstacked, rfl⟩ := hpost.2.2.1 sz d rfl
  have hk : t.proc.kstack ∉ d.frames := by
    obtain ⟨free, -, heq⟩ := howns1
    have hnodup := (Multiset.nodup_add.mp (heq ▸ A.nodup)).2.1
    intro hmem
    exact Multiset.disjoint_left.mp (Multiset.nodup_add.mp hnodup).2.2 hmem (by simp)
  have hrun' : execImage L ip (t.mem.withNull (some ⟨t.proc.kstack, true, true⟩)) =
      .ok (some (imageSize ip, d)) (m1.withNull (some ⟨t.proc.kstack, true, true⟩)) := by
    rw [blind_execImage, hrun]
    rfl
  refine wp_exec hfile (wp_of_ok hrun' ?_)
  exact wp_execRest_null hstacked (howns1.within (Multiset.le_add_right _ _)) hk hlen hfit
    fun _ => rfl

theorem not_promised (hss : t.mem.bytes t.proc.kstack (PGSIZE - 1) = 0) (hnul : ∀ s ∈ argv, 0 ∉ s)
    (hover : Overwritten argv (t'.mem.bytes t.proc.kstack)) : ¬ Promised A rest t (-1) t' := by
  rintro (⟨-, hclean⟩ | ⟨hzero, -⟩)
  · obtain ⟨s, hs, o, ho, hbytes⟩ := hover
    have hbyte := hbytes (PGSIZE - 1) (by decide) (by omega)
    rw [hclean.trapframe _ (by decide) (by decide), hss] at hbyte
    exact hnul s hs hbyte
  · exact absurd hzero (by decide)

/-- For a process whose trap frame ends in the high byte of `ss`: whatever a null pointer
shows, `exec` keeps its promises exactly if the strings fit, or the arguments are never
reached. -/
theorem exec_fails_cleanly_iff
    (howns : Owns A t.mem (t.proc.space.pgdir.frames + ({t.proc.kstack} + rest)))
    (hss : t.mem.bytes t.proc.kstack (PGSIZE - 1) = 0)
    (hlen : ∀ s ∈ argv, s.length < PHYSTOP) (hnul : ∀ s ∈ argv, 0 ∉ s) :
    (∀ m, m.withNull none = t.mem.withNull none → ∃ r t',
      exec L files path argv { t with mem := m } = .ok r t' ∧
      Promised A rest { t with mem := m } r t') ↔
    ∀ inum ip, files path = some (inum, ip) → Built L ip t.mem →
      ArgsFit (imageSize ip) (argv.take MAXARG) (imageSize ip) := by
  constructor
  · rintro h inum ip hfile ⟨r, m1, hrun⟩
    by_contra hfit
    obtain ⟨r, t', hexec, hpromised⟩ :=
      h (t.mem.withNull (some ⟨t.proc.kstack, true, true⟩)) rfl
    have hnull : wp (fun _ => False) (exec L files path argv) _ _ :=
      wp_exec_null howns hfile hrun hlen hfit
    obtain ⟨rfl, hover⟩ := wp_ok hnull hexec
    refine not_promised ?_ hnul ?_ hpromised
    · exact hss
    · exact hover
  · intro hfits m hm
    have hbytes : (m.withNull none).bytes = (t.mem.withNull none).bytes := by rw [hm]
    have hlist : (m.withNull none).freelist = (t.mem.withNull none).freelist := by rw [hm]
    have howns' : Owns A m (t.proc.space.pgdir.frames + ({t.proc.kstack} + rest)) :=
      howns.ghost hbytes hlist
    apply wp_returns
    cases hfile : files path with
    | none =>
      unfold exec beginOp
      rw [wp_bind, wp_modify, hfile]
      simp only [endOp]
      rw [wp_bind, wp_modify, wp_pure]
      exact Or.inl ⟨rfl, rfl, fun _ _ _ => rfl, fun _ _ => rfl, howns', rfl, rfl, rfl⟩
    | some file =>
      obtain ⟨inum, ip⟩ := file
      have himage : wp (fun _ => False) (execImage L ip) _ m := wp_execImage howns'
      obtain ⟨r, m1, hrun, hloads, hnone, hsome, -⟩ := wp_returns himage
      refine wp_exec hfile (wp_of_ok hrun ?_)
      cases r with
      | none =>
        refine Or.inl ⟨rfl, rfl, fun i _ _ => ?_, fun f hf => ?_, hnone rfl, rfl, rfl, rfl⟩
        · exact congrFun (hloads.bytes _ (by simp)) i
        · exact hloads.bytes f (Multiset.mem_add.mpr (Or.inl hf))
      | some r =>
        obtain ⟨sz, d⟩ := r
        obtain ⟨howns1, hstacked, rfl⟩ := hsome sz d rfl
        have hfit := hfits inum ip hfile (Built.congr ⟨_, m1, hrun⟩ hm)
        exact wp_execRest_fits (t := { t with mem := m }) hfit hstacked hloads howns1

theorem exists_task : ∃ t : Task, Owns (bootPages someLayout) t.mem
      (t.proc.space.pgdir.frames + ({t.proc.kstack} + 0)) ∧
    t.mem.bytes t.proc.kstack (PGSIZE - 1) = 0 ∧ t.proc.space.sz = 0x3000000 ∧
    Built someLayout bareElf t.mem := by
  obtain ⟨m, d, k, howns, hnever, hsmall⟩ := exists_process
  have hzero : Owns (bootPages someLayout) (m.setPage k fun _ => 0) (d.frames + {k}) :=
    howns.setPage (by simp) _
  have hroomy : Roomy (bootPages someLayout) (d.frames + {k}) (m.setPage k fun _ => 0) := by
    refine ⟨hnever, ?_⟩
    have hcard := card_someLayout
    omega
  have himage : wp (fun _ => False) (execImage someLayout bareElf) _ _ := wp_execImage hzero
  obtain ⟨r, m1, hrun, -, -, -, hroom⟩ := wp_returns himage
  obtain ⟨e, rfl⟩ := hroom (by decide) (by decide) (by decide) hroomy
  refine ⟨⟨m.setPage k fun _ => 0, ⟨⟨d, 0x3000000⟩, k, [], fun _ => none⟩, [], [], 0⟩, ?_, ?_, rfl,
    _, m1, hrun⟩
  · rw [add_zero]
    exact hzero
  · simp only [Mem.setPage, Function.update_self]

theorem exec_fails_cleanly_hi : ∃ t : Task, ∃ r t',
    exec someLayout (fun _ => some (1, bareElf)) [47, 97] [[104, 105]] t = .ok r t' ∧
    Promised (bootPages someLayout) 0 t r t' := by
  obtain ⟨t, howns, hss, -, -⟩ := exists_task
  refine ⟨t, (exec_fails_cleanly_iff howns hss ?_ ?_).mpr ?_ t.mem rfl⟩
  · simp [PHYSTOP]
  · simp
  · rintro inum ip hfile -
    cases hfile
    exact ⟨by decide, fun _ => trivial⟩

/-- `exec` with a string that the process has in its memory fails, with the trap frame of
the process overwritten. -/
theorem exec_overwrites_trapframe : ∃ t t' : Task, Owns (bootPages someLayout) t.mem
      (t.proc.space.pgdir.frames + ({t.proc.kstack} + 0)) ∧
    overString.length < t.proc.space.sz ∧
    exec someLayout (fun _ => some (1, bareElf)) [47, 97] [overString] t = .ok (-1) t' ∧
    t'.mem.bytes t.proc.kstack (PGSIZE - 1) ≠ t.mem.bytes t.proc.kstack (PGSIZE - 1) ∧
    ¬ Promised (bootPages someLayout) 0 t (-1) t' := by
  obtain ⟨t, howns, hss, hsz, ⟨r, m1, hrun⟩⟩ := exists_task
  have hlen : ∀ s ∈ [overString], s.length < PHYSTOP := by
    intro s hs
    rw [mem_singleton.mp hs, length_overString]
    decide
  have hfit : ¬ ArgsFit (imageSize bareElf) ([overString].take MAXARG) (imageSize bareElf) := by
    intro hfit
    have hle := hfit.1
    rw [length_overString] at hle
    exact absurd hle (by decide)
  have hnul : ∀ s ∈ [overString], 0 ∉ s := by
    intro s hs hmem
    rw [mem_singleton.mp hs] at hmem
    exact absurd (eq_of_mem_replicate hmem) (by decide)
  have hexec : wp (fun _ => False)
      (exec someLayout (fun _ => some (1, bareElf)) [47, 97] [overString]) _ _ :=
    wp_exec_null howns rfl hrun hlen hfit
  obtain ⟨r, t', hexec, rfl, hover⟩ := wp_returns hexec
  refine ⟨{ t with mem := t.mem.withNull (some ⟨t.proc.kstack, true, true⟩) }, t',
    howns.ghost rfl rfl, ?_, hexec, ?_, not_promised ?_ hnul ?_⟩
  · change overString.length < t.proc.space.sz
    rw [length_overString, hsz]
    decide
  · change _ ≠ t.mem.bytes t.proc.kstack (PGSIZE - 1)
    obtain ⟨s, hs, o, ho, hbytes⟩ := hover
    rw [hss]
    intro hbyte
    have hmem := hbytes (PGSIZE - 1) (by decide) (by omega)
    rw [hbyte] at hmem
    exact hnul s hs hmem
  · exact hss
  · exact hover

end Task

end Xv6.Vm
