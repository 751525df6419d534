import Mathlib.Tactic.Abel
import Xv6.Lib.Ledger
import Xv6.Lib.Transition
import Xv6.Vm.Conserve
import Xv6.Vm.Kernel

/-!
# Pages are conserved

In every run each page that was handed to the allocator at boot is in one place: in the free
list, or once with the owner that got it.  A call keeps that whichever of its allocations
fails; the exception is an `exec` whose arguments make `copyout` follow a null pointer.
So each process has its memory for itself.
-/

namespace Xv6.Vm

open Lib Lib.Act List

def Proc.frames (x : Proc) : Multiset Nat :=
  if x.stage = .unused then 0 else x.kstack ::ₘ x.space.pgdir.frames

namespace Kernel

def owned (s : Kernel) : Multiset Nat :=
  ∑ i, (s.procs i).frames + (s.dirs.map Pgdir.frames).sum +
    (s.pipes.map fun p => ({p.page} : Multiset Nat)).sum +
    (s.pages.map fun f => ({f} : Multiset Nat)).sum

/-- Every page from boot is in the free list or owned, and that once. -/
def Conserved (L : Layout) (s : Kernel) : Prop :=
  ∃ free : List Nat, Chain s.mem.next s.mem.freelist free ∧
    ∀ f, ((free : Multiset Nat) + s.owned).count f = if f ∈ (bootPages L).all then 1 else 0

def Sized (s : Kernel) : Prop := ∀ p, (s.procs p).space.sz ≤ KERNBASE

end Kernel

structure Accounted {L : Layout} (A : Pages L) (s : Kernel) : Prop where
  owns : Owns A s.mem s.owned
  sized : s.Sized

variable {L : Layout} {A : Pages L} {E : String → Prop} {s s' : Kernel} {m : Mem} {p : Slot}
  {rest : Multiset Nat} {i : Nat} {f : KernelM Unit}

theorem Kernel.conserved_iff : s.Conserved L ↔ Owns (bootPages L) s.mem s.owned := by
  have hcount : ∀ own : Multiset Nat, own = (bootPages L).all ↔
      ∀ f, own.count f = if f ∈ (bootPages L).all then 1 else 0 := by
    intro own
    rw [Multiset.ext]
    simp only [Multiset.count_eq_of_nodup (bootPages L).nodup]
  unfold Kernel.Conserved Owns
  simp only [hcount]

namespace Kernel

theorem owned_proc (s : Kernel) (i : Slot) : ∃ rest, s.owned = (s.procs i).frames + rest ∧
    ∀ x, (s.setProc i x).owned = x.frames + rest := by
  obtain ⟨r, htotal, hset⟩ := sum_slot Proc.frames s.procs i
  refine ⟨r + (s.dirs.map Pgdir.frames).sum + (s.pipes.map fun p => ({p.page} : Multiset Nat)).sum +
    (s.pages.map fun f => ({f} : Multiset Nat)).sum, ?_, ?_⟩
  · rw [owned, htotal]
    abel
  · intro x
    change ∑ j, (Function.update s.procs i x j).frames + _ + _ + _ = _
    rw [hset]
    abel

theorem owned_dir {d : Pgdir} (h : s.dirs[i]? = some d) : ∃ rest,
    s.owned = d.frames + rest ∧ (∀ d', (s.setDir i d').owned = d'.frames + rest) ∧
    { s with dirs := s.dirs.eraseIdx i }.owned = rest := by
  obtain ⟨r, htotal, hset, herase⟩ := sum_entry Pgdir.frames h
  refine ⟨∑ i, (s.procs i).frames + r + (s.pipes.map fun p => ({p.page} : Multiset Nat)).sum +
    (s.pages.map fun f => ({f} : Multiset Nat)).sum, ?_, ?_, ?_⟩
  · rw [owned, htotal]
    abel
  · intro d'
    rw [owned, setDir]
    simp only [hset]
    abel
  · rw [owned]
    simp only [herase]

theorem owned_pipe {x : Pipe} (h : s.pipes[i]? = some x) : ∃ rest, s.owned = x.page ::ₘ rest ∧
    (∀ y : Pipe, { s with pipes := s.pipes.set i y }.owned = y.page ::ₘ rest) ∧
    { s with pipes := s.pipes.eraseIdx i }.owned = rest := by
  obtain ⟨r, htotal, hset, herase⟩ := sum_entry (fun p : Pipe => ({p.page} : Multiset Nat)) h
  refine ⟨∑ i, (s.procs i).frames + (s.dirs.map Pgdir.frames).sum + r +
    (s.pages.map fun f => ({f} : Multiset Nat)).sum, ?_, ?_, ?_⟩
  · rw [owned, htotal, ← Multiset.singleton_add]
    abel
  · intro y
    rw [owned]
    simp only [hset]
    rw [← Multiset.singleton_add]
    abel
  · rw [owned]
    simp only [herase]

theorem owned_page {i f : Nat} (h : s.pages[i]? = some f) : ∃ rest,
    s.owned = f ::ₘ rest ∧ { s with pages := s.pages.eraseIdx i }.owned = rest := by
  obtain ⟨r, htotal, -, herase⟩ := sum_entry (fun f : Nat => ({f} : Multiset Nat)) h
  refine ⟨∑ i, (s.procs i).frames + (s.dirs.map Pgdir.frames).sum +
    (s.pipes.map fun p => ({p.page} : Multiset Nat)).sum + r, ?_, ?_⟩
  · rw [owned, htotal, ← Multiset.singleton_add]
    abel
  · rw [owned]
    simp only [herase]

theorem owned_addDir (d : Pgdir) : (s.addDir d).owned = d.frames + s.owned := by
  simp only [owned, addDir, map_cons, sum_cons]
  abel

theorem owned_addPipe (x : Pipe) : { s with pipes := x :: s.pipes }.owned = x.page ::ₘ s.owned := by
  simp only [owned, map_cons, sum_cons, ← Multiset.singleton_add]
  abel

theorem owned_addPage (f : Nat) : { s with pages := f :: s.pages }.owned = f ::ₘ s.owned := by
  simp only [owned, map_cons, sum_cons, ← Multiset.singleton_add]
  abel

end Kernel

theorem wp_vm {α : Type} {f : VmM α} {Q : α → Kernel → Prop} :
    wp E (vm f) Q s ↔ wp E f (fun a m => Q a { s with mem := m }) s.mem := wp_zoom

theorem Proc.frames_used {x : Proc} (h : x.stage ≠ .unused) :
    x.frames = x.kstack ::ₘ x.space.pgdir.frames := if_neg h

theorem Kernel.Sized.setProc (h : s.Sized) {x : Proc} (hx : x.space.sz ≤ KERNBASE) :
    (s.setProc p x).Sized := by
  intro q
  unfold Kernel.setProc
  by_cases hq : q = p
  · subst hq
    simpa using hx
  · simpa [hq] using h q

section

variable (h : Accounted A s)

include h

theorem Accounted.withMem (howns : Owns A m s.owned) :
    Accounted A { s with mem := m } := ⟨howns, h.sized⟩

theorem Accounted.fork (hE : ∀ msg, E msg) : wp E (fork L p) (fun _ s' => Accounted A s') s := by
  unfold Vm.fork
  rw [wp_bind, wp_get]
  cases hfind : s.find fun x => x.stage = .unused with
  | none =>
    rw [wp_pure]
    exact h
  | some np =>
    have hunused : (s.procs np).stage = .unused := by simpa using List.find?_some hfind
    obtain ⟨rest, howned, hset⟩ := s.owned_proc np
    have hrest : s.owned = rest := by
      rw [howned, Proc.frames, if_pos hunused, zero_add]
    simp only
    rw [wp_bind, wp_vm]
    refine wp_mono (wp_kalloc h.owns) ?_
    rintro r m1 ⟨-, hnone, hsome, -⟩
    cases r with
    | none =>
      rw [wp_pure]
      exact h.withMem (hnone rfl)
    | some k =>
      have howns1 := hsome k rfl
      simp only
      rw [wp_bind, wp_vm]
      refine wp_mono (wp_copyuvm_owns hE (h.sized p) howns1) ?_
      rintro r m2 ⟨hnone2, hsome2⟩
      cases r with
      | none =>
        simp only
        rw [wp_vm]
        refine wp_mono (wp_kfree (hnone2 rfl)) ?_
        rintro - m' ⟨-, howns'⟩
        exact h.withMem howns'
      | some d =>
        simp only
        rw [wp_modify]
        refine ⟨?_, Kernel.Sized.setProc h.sized (h.sized p)⟩
        have heq := hset ⟨.live, k, ⟨d, (s.procs p).space.sz⟩, some p⟩
        refine (hsome2 d rfl).congr (heq.trans ?_)
        rw [Proc.frames_used (by simp), hrest, Multiset.add_cons, Multiset.cons_add]

theorem Accounted.setSpace {sp : Space} (hlive : (s.procs p).stage = .live)
    (hset : ∀ x, (s.setProc p x).owned = x.frames + rest)
    (howns : Owns A m (sp.pgdir.frames + ((s.procs p).kstack ::ₘ rest))) (hsz : sp.sz ≤ KERNBASE) :
    Accounted A ({ s with mem := m }.setProc p { s.procs p with space := sp }) := by
  refine ⟨?_, Kernel.Sized.setProc h.sized hsz⟩
  refine howns.congr ((hset { s.procs p with space := sp }).trans ?_)
  rw [Proc.frames_used (by simp [hlive]), Multiset.add_cons, Multiset.cons_add]

theorem Accounted.owns_space (hlive : (s.procs p).stage = .live)
    (howned : s.owned = (s.procs p).frames + rest) :
    Owns A s.mem ((s.procs p).space.pgdir.frames + ((s.procs p).kstack ::ₘ rest)) := by
  refine h.owns.congr ?_
  rw [howned, Proc.frames_used (by simp [hlive]), Multiset.add_cons, Multiset.cons_add]

theorem Accounted.exec {ip : Inode} {argv : List (List UInt8)}
    (hfit : ArgsFit (imageSize ip) argv (imageSize ip)) (hlive : (s.procs p).stage = .live) :
    wp E (execProc L p ip argv) (fun _ s' => Accounted A s') s := by
  obtain ⟨rest, howned, hset⟩ := s.owned_proc p
  unfold execProc
  rw [wp_bind, wp_get, wp_bind, wp_vm]
  refine wp_mono (wp_exec_owns hfit (h.owns_space hlive howned)) ?_
  rintro r m' ⟨hnone, hsome⟩
  cases r with
  | none =>
    rw [wp_pure]
    refine h.withMem ((hnone rfl).congr ?_)
    rw [howned, Proc.frames_used (by simp [hlive]), Multiset.add_cons, Multiset.cons_add]
  | some img =>
    simp only
    rw [wp_modify]
    obtain ⟨howns, hsz⟩ := hsome img rfl
    exact h.setSpace hlive hset howns hsz

theorem Accounted.sbrk {n : Int} (hE : ∀ msg, E msg)
    (hlive : (s.procs p).stage = .live) : wp E (sbrkProc L p n) (fun _ s' => Accounted A s') s := by
  obtain ⟨rest, howned, hset⟩ := s.owned_proc p
  unfold sbrkProc
  rw [wp_bind, wp_get, wp_bind, wp_vm]
  refine wp_mono (wp_sbrk_owns hE (h.sized p) (h.owns_space hlive howned)) ?_
  rintro r m' ⟨howns, hsz⟩
  rw [wp_modify]
  exact h.setSpace hlive hset howns hsz

end

theorem Kernel.owned_bury (s : Kernel) (hlive : (s.procs p).stage = .live) :
    (s.bury p).owned = s.owned := by
  have hframes : ∀ i, ((s.bury p).procs i).frames = (s.procs i).frames := by
    intro i
    unfold Proc.frames Kernel.bury
    by_cases hi : i = p
    · subst hi
      simp [hlive]
    · simp [hi]
  unfold Kernel.owned
  simp only [hframes]
  rfl

section

variable (h : Accounted A s)

include h

theorem Accounted.exit (hE : ∀ msg, E msg) (hlive : (s.procs p).stage = .live) :
    wp E (exit p) (fun _ s' => Accounted A s') s := by
  unfold Vm.exit
  rw [wp_bind, wp_get]
  split
  · exact wp_panic.mpr (hE _)
  · rw [wp_modify]
    exact ⟨h.owns.congr (s.owned_bury hlive), h.sized⟩

theorem Accounted.wait : wp E (wait L p) (fun _ s' => Accounted A s') s := by
  unfold Vm.wait
  rw [wp_bind, wp_get]
  cases hfind : s.find fun x => x.parent = some p ∧ x.stage = .zombie with
  | none =>
    rw [wp_pure]
    exact h
  | some i =>
    have hzombie : (s.procs i).stage = .zombie := by
      have htest := List.find?_some hfind
      simp only [decide_eq_true_eq] at htest
      exact htest.2
    obtain ⟨rest, howned, hset⟩ := s.owned_proc i
    have howns := h.owns
    rw [howned, Proc.frames_used (by simp [hzombie]), Multiset.cons_add] at howns
    simp only
    rw [wp_bind, wp_vm]
    refine wp_mono (wp_kfree howns) ?_
    rintro - m1 ⟨-, howns1⟩
    rw [wp_bind, wp_vm]
    refine wp_mono (wp_freevm howns1) ?_
    rintro - m' ⟨-, howns'⟩
    rw [wp_modify]
    refine ⟨?_, Kernel.Sized.setProc h.sized (h.sized i)⟩
    refine howns'.congr
      ((hset { s.procs i with stage := .unused, kstack := 0, parent := none }).trans ?_)
    rw [Proc.frames, if_pos rfl, zero_add]

theorem Accounted.store {j : Nat} {bytes : Nat → UInt8} (hlive : (s.procs p).stage = .live) :
    wp E (store p j bytes) (fun _ s' => Accounted A s') s := by
  unfold Vm.store
  rw [wp_bind, wp_get]
  cases hx : (s.procs p).space.pgdir.pte j with
  | none =>
    rw [wp_pure]
    exact h
  | some x =>
    simp only
    split_ifs with huser
    · obtain ⟨rest, howned, -⟩ := s.owned_proc p
      have hmem : x.frame ∈ s.owned := by
        rw [howned, Proc.frames_used (by simp [hlive])]
        refine Multiset.mem_add.mpr (Or.inl (Multiset.mem_cons_of_mem ?_))
        exact Pgdir.frame_mem_frames huser.2 hx
      rw [wp_vm]
      refine wp_mono (wp_fillPage h.owns hmem) ?_
      rintro - m' ⟨-, howns', -⟩
      exact h.withMem howns'
    · rw [wp_pure]
      exact h

theorem Accounted.pipealloc {files : Nat} :
    wp E (pipealloc files) (fun _ s' => Accounted A s') s := by
  unfold Vm.pipealloc
  split_ifs
  · rw [wp_pure]
    exact h
  · rw [wp_bind, wp_vm]
    refine wp_mono (wp_kalloc h.owns) ?_
    rintro r m' ⟨-, hnone, hsome, -⟩
    cases r with
    | none =>
      rw [wp_pure]
      exact h.withMem (hnone rfl)
    | some f =>
      simp only
      rw [wp_modify]
      exact ⟨(hsome f rfl).congr (s.owned_addPipe ⟨f, true, true⟩), h.sized⟩

theorem Accounted.pipeclose {x : Pipe} {writable : Bool} (hx : s.pipes[i]? = some x) :
    wp E (pipeclose L i x writable) (fun _ s' => Accounted A s') s := by
  obtain ⟨rest, howned, hset, herase⟩ := s.owned_pipe hx
  obtain ⟨y, hy⟩ : ∃ y, y = if writable then { x with writeopen := false }
    else { x with readopen := false } := ⟨_, rfl⟩
  have hpage : y.page = x.page := by
    rw [hy]
    split_ifs <;> rfl
  have howns := h.owns
  rw [howned, ← hpage] at howns
  unfold Vm.pipeclose
  simp only
  rw [← hy]
  split_ifs
  · rw [wp_bind, wp_vm]
    refine wp_mono (wp_kfree howns) ?_
    rintro - m' ⟨-, howns'⟩
    rw [wp_modify]
    exact ⟨howns'.congr herase, h.sized⟩
  · rw [wp_modify]
    exact ⟨howns.congr (hset y), h.sized⟩

end

def Op.Fits : Op → Prop
  | .exec _ ip argv => ArgsFit (imageSize ip) argv (imageSize ip)
  | _ => True

theorem byProc_ok (h : byProc p f s = .ok () s') : (s.procs p).stage = .live ∧ f s = .ok () s' := by
  unfold byProc at h
  split_ifs at h with hlive
  exact ⟨hlive, h⟩

theorem onEntry_ok {α : Type} {list : Kernel → List α} {f : α → KernelM Unit}
    (h : onEntry list i f s = .ok () s') : ∃ a, (list s)[i]? = some a ∧ f a s = .ok () s' := by
  unfold onEntry at h
  split at h
  · cases h
  · rename_i a ha
    exact ⟨a, ha, h⟩

theorem inUser_ok {sz : Nat} (h : inUser sz f s = .ok () s') : sz ≤ KERNBASE ∧ f s = .ok () s' := by
  unfold inUser at h
  split_ifs at h with hsz
  exact ⟨hsz, h⟩

theorem Accounted.addPage (h : Accounted A s) : wp E (do
      match ← vm kalloc with
      | none => pure ()
      | some f => Act.modify fun s => { s with pages := f :: s.pages })
      (fun _ s' => Accounted A s') s := by
  rw [wp_bind, wp_vm]
  refine wp_mono (wp_kalloc h.owns) ?_
  rintro r m' ⟨-, hnone, hsome, -⟩
  cases r with
  | none =>
    rw [wp_pure]
    exact h.withMem (hnone rfl)
  | some f =>
    simp only
    rw [wp_modify]
    exact ⟨(hsome f rfl).congr (s.owned_addPage f), h.sized⟩

theorem Accounted.addDir (h : Accounted A s) {f : VmM (Option Pgdir)}
    (hf : wp E f (fun r m' => (r = none → Owns A m' s.owned) ∧
      ∀ d, r = some d → Owns A m' (d.frames + s.owned)) s.mem) :
    wp E (do
      match ← vm f with
      | none => pure ()
      | some d => Act.modify fun s => s.addDir d) (fun _ s' => Accounted A s') s := by
  rw [wp_bind, wp_vm]
  refine wp_mono hf ?_
  rintro r m' ⟨hnone, hsome⟩
  cases r with
  | none =>
    rw [wp_pure]
    exact h.withMem (hnone rfl)
  | some d =>
    simp only
    rw [wp_modify]
    exact ⟨(hsome d rfl).congr (s.owned_addDir d), h.sized⟩

theorem Accounted.setDir (h : Accounted A s) {d : Pgdir} (hd : s.dirs[i]? = some d)
    {f : VmM (Nat × Pgdir)}
    (hf : ∀ rest, Owns A s.mem (d.frames + rest) →
      wp E f (fun r m' => Owns A m' (r.2.frames + rest)) s.mem) :
    wp E (do
      let r ← vm f
      Act.modify fun s => s.setDir i r.2) (fun _ s' => Accounted A s') s := by
  obtain ⟨rest, howned, hset, -⟩ := s.owned_dir hd
  rw [wp_bind, wp_vm]
  refine wp_mono (hf rest (howned ▸ h.owns)) ?_
  rintro r m' howns
  rw [wp_modify]
  exact ⟨howns.congr (hset r.2), h.sized⟩

theorem Accounted.of_run (hf : wp (fun _ => True) f (fun _ s' => Accounted A s') s)
    (hrun : f s = .ok () s') : Accounted A s' := by
  have hpost := wp_ok hf hrun
  exact hpost

theorem Accounted.step {op : Op} (h : Accounted A s) (hfit : op.Fits)
    (hstep : step L s op = .ok () s') : Accounted A s' := by
  have hE : ∀ msg : String, (fun _ : String => True) msg := fun _ => trivial
  cases op with
  | kalloc => exact Accounted.of_run h.addPage hstep
  | kfree i =>
    obtain ⟨f, hf, hrun⟩ := onEntry_ok hstep
    obtain ⟨rest, howned, herase⟩ := s.owned_page hf
    refine Accounted.of_run ?_ hrun
    rw [wp_bind, wp_vm]
    refine wp_mono (wp_kfree (howned ▸ h.owns)) ?_
    rintro - m' ⟨-, howns⟩
    rw [wp_modify]
    exact ⟨howns.congr herase, h.sized⟩
  | setupkvm =>
    refine Accounted.of_run (h.addDir (wp_mono (wp_setupkvm h.owns) ?_)) hstep
    rintro r m' ⟨-, hnone, hsome, -⟩
    exact ⟨hnone, fun d hd => (hsome d hd).1⟩
  | allocuvm i oldsz newsz =>
    obtain ⟨d, hd, hrun⟩ := onEntry_ok hstep
    refine Accounted.of_run (h.setDir hd fun rest howns => ?_) hrun
    exact wp_mono (wp_allocuvm_owns hE howns) fun _ _ hpost => hpost.1
  | deallocuvm i oldsz newsz =>
    obtain ⟨hsz, hstep⟩ := inUser_ok hstep
    obtain ⟨d, hd, hrun⟩ := onEntry_ok hstep
    refine Accounted.of_run (h.setDir hd fun rest howns => ?_) hrun
    exact wp_mono (wp_deallocuvm hsz howns) fun _ _ hpost => hpost.2.2.1
  | copyuvm i sz =>
    obtain ⟨hsz, hstep⟩ := inUser_ok hstep
    obtain ⟨d, -, hrun⟩ := onEntry_ok hstep
    exact Accounted.of_run (h.addDir (wp_copyuvm_owns hE hsz h.owns)) hrun
  | freevm i =>
    obtain ⟨d, hd, hrun⟩ := onEntry_ok hstep
    obtain ⟨rest, howned, -, herase⟩ := s.owned_dir hd
    refine Accounted.of_run ?_ hrun
    rw [wp_bind, wp_vm]
    refine wp_mono (wp_freevm (howned ▸ h.owns)) ?_
    rintro - m' ⟨-, howns⟩
    rw [wp_modify]
    exact ⟨howns.congr herase, h.sized⟩
  | fork p => exact Accounted.of_run (h.fork hE) (byProc_ok hstep).2
  | exec p ip argv =>
    obtain ⟨hlive, hrun⟩ := byProc_ok hstep
    exact Accounted.of_run (h.exec hfit hlive) hrun
  | sbrk p n =>
    obtain ⟨hlive, hrun⟩ := byProc_ok hstep
    exact Accounted.of_run (h.sbrk hE hlive) hrun
  | exit p =>
    obtain ⟨hlive, hrun⟩ := byProc_ok hstep
    exact Accounted.of_run (h.exit hE hlive) hrun
  | wait p => exact Accounted.of_run h.wait (byProc_ok hstep).2
  | pipealloc files => exact Accounted.of_run h.pipealloc hstep
  | pipeclose i writable =>
    obtain ⟨x, hx, hrun⟩ := onEntry_ok hstep
    exact Accounted.of_run (h.pipeclose hx) hrun
  | store p j bytes =>
    obtain ⟨hlive, hrun⟩ := byProc_ok hstep
    exact Accounted.of_run (h.store hlive) hrun

/-- In every run in which the arguments of each `exec` fit, every page is in one place. -/
theorem pages_conserved {s0 : Kernel} {tr : List (Kernel × Op)} (hstart : s0.Conserved L)
    (hsized : s0.Sized) (htr : Trace (step L) s0 tr s) (hfit : ∀ x ∈ tr, x.2.Fits) :
    s.Conserved L := by
  have hkept : Accounted (bootPages L) s := by
    induction htr with
    | nil => exact ⟨Kernel.conserved_iff.mp hstart, hsized⟩
    | cons htr hstep ih =>
      exact (ih fun x hx => hfit x (mem_cons_of_mem _ hx)).step
        (hfit _ mem_cons_self) hstep
  exact Kernel.conserved_iff.mpr hkept.owns

theorem wp_boot {i : Slot} (hkend : L.kend ≤ 1024) (hm : m.freelist = none) :
    wp E (boot L) (fun r m' => (Kernel.idle m' r.toList i).Conserved L ∧
      (Kernel.idle m' r.toList i).Sized) m := by
  have hidle : ∀ (m' : Mem) (dirs : List Pgdir),
      (Kernel.idle m' dirs i).owned = (dirs.map Pgdir.frames).sum := by
    intro m' dirs
    simp [Kernel.owned, Kernel.idle, Proc.frames]
  have hpages : (bootPages L).all = ((List.range' L.kend (1024 - L.kend) : List Nat) :
      Multiset Nat) +
        (((List.range' 1024 (PHYSTOP / PGSIZE - 1024) : List Nat) : Multiset Nat) + 0) := by
    have hsplit := List.range'_append_1 (s := L.kend) (m := 1024 - L.kend)
      (n := PHYSTOP / PGSIZE - 1024)
    have hlen : 1024 - L.kend + (PHYSTOP / PGSIZE - 1024) = PHYSTOP / PGSIZE - L.kend := by
      simp only [PHYSTOP, PGSIZE]
      omega
    rw [Nat.add_sub_cancel' hkend, hlen] at hsplit
    unfold bootPages
    simp only
    rw [add_zero, Multiset.coe_add, hsplit]
  have howns : Owns (bootPages L) m (bootPages L).all := ⟨[], by rw [hm]; trivial, by simp⟩
  rw [hpages] at howns
  unfold boot
  refine wp_seq (wp_freerange howns) ?_
  rintro - m1 ⟨-, howns1⟩
  refine wp_seq (wp_setupkvm howns1) ?_
  rintro r m2 ⟨-, hnone, hsome, -⟩
  have howns2 : Owns (bootPages L) m2 (((List.range' 1024 (PHYSTOP / PGSIZE - 1024) : List Nat) :
      Multiset Nat) + (r.toList.map Pgdir.frames).sum) := by
    cases r with
    | none => exact hnone rfl
    | some d =>
      refine (hsome d rfl).1.congr ?_
      simp [add_comm]
  refine wp_seq (wp_freerange howns2) ?_
  rintro - m' ⟨-, howns'⟩
  rw [wp_pure]
  refine ⟨Kernel.conserved_iff.mpr (howns'.congr (hidle m' _)), ?_⟩
  intro p
  exact Nat.zero_le _

/-- A process with an empty address space, in a memory the machine has booted with. -/
theorem exists_fresh_process : ∃ s0 : Kernel,
    Accounted (bootPages someLayout) s0 ∧ (s0.procs 0).stage = .live := by
  obtain ⟨m, d, howns, hkernel, hnever⟩ := exists_kernelSpace
  have hall := card_someLayout
  have hcard : (d.frames + 0).card ≤ 1025 := by
    rw [add_zero]
    exact card_frames_of_low hkernel.low
  obtain ⟨r, m2, -, -, -, hsome2, hroom2⟩ := wp_returns (wp_kalloc (E := fun _ => False) howns)
  obtain ⟨kstack, rfl⟩ := Option.ne_none_iff_exists'.mp (hroom2 hnever (by omega))
  obtain ⟨rest, howned, hset⟩ := (Kernel.idle m2 [] 0).owned_proc 0
  have hrest : rest = 0 := by
    simpa [Kernel.owned, Kernel.idle, Proc.frames, eq_comm] using howned
  refine ⟨(Kernel.idle m2 [] 0).setProc 0 ⟨.live, kstack, ⟨d, 0⟩, none⟩, ⟨?_, ?_⟩, ?_⟩
  · refine (hsome2 kstack rfl).congr ?_
    rw [hset, hrest, Proc.frames_used (by simp), Multiset.cons_add]
  · exact Kernel.Sized.setProc (fun _ => Nat.zero_le _) (Nat.zero_le _)
  · simp [Kernel.setProc]

theorem pages_conserved_exec : ∃ (s0 s : Kernel) (tr : List (Kernel × Op)),
    s0.Conserved someLayout ∧ s0.Sized ∧ Trace (step someLayout) s0 tr s ∧
    tr.map Prod.snd = [.pipealloc 2, .exec 0 bareElf [[104, 105]]] ∧ s.Conserved someLayout := by
  obtain ⟨s0, hkept, hlive⟩ := exists_fresh_process
  have hfit : ArgsFit (imageSize bareElf) [[104, 105]] (imageSize bareElf) :=
    ⟨by decide, fun _ => trivial⟩
  have hexec : wp (fun _ => False) (execProc someLayout 0 bareElf [[104, 105]]) _ s0 :=
    hkept.exec hfit hlive
  obtain ⟨_, s1, hrun, hkept1⟩ := wp_returns hexec
  have hpipe : wp (fun _ => False) (pipealloc 2) _ s1 := hkept1.pipealloc
  obtain ⟨_, s, hrun', -⟩ := wp_returns hpipe
  have hstep : step someLayout s0 (.exec 0 bareElf [[104, 105]]) = .ok () s1 :=
    (if_pos hlive).trans hrun
  have htr : Trace (step someLayout) s0
      [(s1, .pipealloc 2), (s0, .exec 0 bareElf [[104, 105]])] s := .cons (.cons .nil hstep) hrun'
  have hstart := Kernel.conserved_iff.mpr hkept.owns
  refine ⟨s0, s, _, hstart, hkept.sized, htr, rfl, pages_conserved hstart hkept.sized htr ?_⟩
  simp only [forall_mem_cons]
  exact ⟨trivial, hfit, by simp⟩

/-- What other processes, the pipes and the rest of the kernel own. -/
def Kernel.others (s : Kernel) (p : Slot) : Multiset Nat :=
  (s.setProc p ⟨.unused, 0, ⟨.new 0, 0⟩, none⟩).owned

/-- Nothing but the process `p` uses the page `f`, and `p` only as memory of its own. -/
structure Kernel.Exclusive (s : Kernel) (p : Slot) (f : Nat) : Prop where
  free : ∃ free, Chain s.mem.next s.mem.freelist free ∧ f ∉ free
  kstack : f ≠ (s.procs p).kstack
  pgdir : f ≠ (s.procs p).space.pgdir.frame
  tables : f ∉ (s.procs p).space.pgdir.tables
  others : f ∉ s.others p

theorem Accounted.exclusive (h : Accounted A s) (hlive : (s.procs p).stage = .live) {j : Nat}
    {x : Pte} (hj : j < KERNBASE / PGSIZE) (hx : (s.procs p).space.pgdir.pte j = some x) :
    s.Exclusive p x.frame := by
  obtain ⟨rest, howned, hset⟩ := s.owned_proc p
  obtain ⟨free, hchain, hall⟩ := h.owns
  have hrest : s.others p = rest := by rw [Kernel.others, hset, Proc.frames, if_pos rfl, zero_add]
  set d := (s.procs p).space.pgdir
  have hsplit : (free : Multiset Nat) + s.owned =
      d.users + ((s.procs p).kstack ::ₘ d.frame ::ₘ (d.tables + (s.others p + free))) := by
    rw [howned, hrest, Proc.frames_used (by simp [hlive]), Pgdir.frames]
    simp only [← Multiset.singleton_add]
    abel
  have huser : x.frame ∈ d.users := mem_gather.mpr ⟨j, hj, by rw [hx]; rfl⟩
  have hother := Multiset.disjoint_left.mp
    (Multiset.nodup_add.mp (hsplit ▸ hall ▸ A.nodup)).2.2 huser
  simp only [Multiset.mem_cons, Multiset.mem_add, Multiset.mem_coe, not_or] at hother
  obtain ⟨hkstack, hpgdir, htables, hothers, hfree⟩ := hother
  exact ⟨⟨free, hchain, hfree⟩, hkstack, hpgdir, htables, hothers⟩

theorem accounted_of_trace {s0 : Kernel} {tr : List (Kernel × Op)} (h : Accounted A s0)
    (htr : Trace (step L) s0 tr s) (hfit : ∀ x ∈ tr, x.2.Fits) : Accounted A s := by
  induction htr with
  | nil => exact h
  | cons htr hstep ih =>
    exact (ih fun x hx => hfit x (mem_cons_of_mem _ hx)).step (hfit _ mem_cons_self) hstep

/-- Whatever has run before, all pages that a process has mapped are for it alone, and a store
of the process changes no other page. -/
theorem processes_isolated {s0 : Kernel} {tr : List (Kernel × Op)} (hstart : Accounted A s0)
    (htr : Trace (step L) s0 tr s) (hfit : ∀ x ∈ tr, x.2.Fits)
    (hlive : (s.procs p).stage = .live) :
    (∀ j x, j < KERNBASE / PGSIZE → (s.procs p).space.pgdir.pte j = some x →
      s.Exclusive p x.frame) ∧
    ∀ j bytes s' f, step L s (.store p j bytes) = .ok () s' →
      s'.mem.bytes f ≠ s.mem.bytes f → s.Exclusive p f := by
  have hkept := accounted_of_trace hstart htr hfit
  refine ⟨fun j x hj hx => hkept.exclusive hlive hj hx, ?_⟩
  intro j bytes s' f hstep
  refine wp_ok (E := fun _ => True) (Q := fun _ t => t.mem.bytes f ≠ s.mem.bytes f →
    s.Exclusive p f) ?_ (byProc_ok hstep).2
  unfold Vm.store
  rw [wp_bind, wp_get]
  cases hx : (s.procs p).space.pgdir.pte j with
  | none =>
    rw [wp_pure]
    exact fun hf => absurd rfl hf
  | some x =>
    simp only
    split_ifs with huser
    · rw [wp_vm, fillPage, wp_modify]
      intro hf
      obtain rfl : f = x.frame := by
        by_contra hne
        exact hf (Function.update_of_ne hne _ _)
      exact hkept.exclusive hlive huser.2 hx
    · rw [wp_pure]
      exact fun hf => absurd rfl hf

def twoProcesses (i j : Slot) : Kernel :=
  ((Kernel.idle fullMem [.new 308] i).setProc i ⟨.live, 303, onePageAt 300 301 302, none⟩).setProc
    j ⟨.live, 307, onePageAt 304 305 306, none⟩

def ninePages : Pages someLayout where
  all := {307, 306, 305, 304, 303, 302, 301, 300, 308}
  nodup := by decide
  range := by decide

/-- A store of the second process, and then one of the first. -/
theorem processes_isolated_two : ∃ s s' : Kernel,
    step someLayout (twoProcesses 0 1) (.store 1 0 fun _ => 2) = .ok () s ∧
    step someLayout s (.store 0 0 fun _ => 1) = .ok () s' ∧
    s'.mem.bytes 302 0 = 1 ∧ s'.mem.bytes 306 0 = 2 ∧
    ∀ f, s'.mem.bytes f ≠ s.mem.bytes f → s.Exclusive 0 f := by
  obtain ⟨rest, howned, hset⟩ := (Kernel.idle fullMem [.new 308] 0).owned_proc 0
  obtain ⟨rest', howned', hset'⟩ := ((Kernel.idle fullMem [.new 308] 0).setProc 0
    ⟨.live, 303, onePageAt 300 301 302, none⟩).owned_proc 1
  have hrest : rest = {308} := by
    simpa [Kernel.owned, Kernel.idle, Proc.frames, Pgdir.frames_new, eq_comm] using howned
  have hrest' : rest' = {303, 302, 301, 300, 308} := by
    rw [hset, hrest, Proc.frames_used (by decide), frames_onePageAt] at howned'
    simpa [Kernel.idle, Kernel.setProc, Proc.frames, eq_comm] using howned'
  have hstart : Accounted ninePages (twoProcesses 0 1) := by
    refine ⟨⟨[], trivial, ?_⟩, Kernel.Sized.setProc
      (Kernel.Sized.setProc (fun _ => Nat.zero_le _) (by decide)) (by decide)⟩
    rw [twoProcesses, hset', hrest', Proc.frames_used (by decide), frames_onePageAt]
    rfl
  have hisolated := processes_isolated (p := 0) hstart
    (.cons (a := .store 1 0 fun _ => 2) .nil rfl) (by simp [Op.Fits]) rfl
  exact ⟨_, _, rfl, rfl, rfl, rfl, fun f => hisolated.2 0 _ _ f rfl⟩

end Xv6.Vm
