import Xv6.Vm.Args

/-!
# `exec` on any file

Up to the arguments every page `exec` holds is accounted for.  Pushing the arguments may
write anywhere once a null pointer has been followed, so that what is left to do, freeing a
directory, is shown not to panic from the directory alone: the pages it names are pages of
the allocator.
-/

namespace Xv6.Vm

open Lib Lib.Act List

def Layout.Frees (L : Layout) (f : Nat) : Prop := L.kend ≤ f ∧ f < PHYSTOP / PGSIZE

/-- Every page of the directory is one that `kfree` accepts. -/
def Pgdir.Within (d : Pgdir) (L : Layout) : Prop := ∀ f ∈ d.frames, L.Frees f

variable {L : Layout} {A : Pages L} {E : String → Prop} {m m' : Mem} {own rest : Multiset Nat}
  {d : Pgdir} {f : Nat}

theorem Owns.within (h : Owns A m own) (hle : d.frames ≤ own) : d.Within L :=
  fun _ hf => h.range (Multiset.mem_of_le hle hf)

structure Frees (P : Multiset Nat) (m m' : Mem) : Prop extends Writes m m' where
  bytes : ∀ g ∉ P, m'.bytes g = m.bytes g

theorem Frees.refl (P : Multiset Nat) (m : Mem) : Frees P m m := ⟨.refl m, fun _ _ => rfl⟩

theorem Frees.trans {P P' : Multiset Nat} {m'' : Mem} (h : Frees P m m') (h' : Frees P' m' m'')
    (hsub : ∀ g ∈ P', g ∈ P) : Frees P m m'' where
  toWrites := h.toWrites.trans h'.toWrites
  bytes := fun g hg => (h'.bytes g fun hmem => hg (hsub g hmem)).trans (h.bytes g hg)

theorem wp_kfree_frees (h : L.Frees f) (hf : f ∈ own) :
    wp E (kfree L f) (fun _ m' => Frees own m m') m := by
  have hlo := h.1
  have hhi := h.2
  unfold kfree
  rw [if_neg (by omega), wp_modify]
  refine ⟨⟨rfl, le_rfl, rfl⟩, ?_⟩
  intro g hg
  apply Function.update_of_ne
  rintro rfl
  exact hg hf

theorem wp_deallocLoop_within {oldsz a : Nat} (hsz : oldsz ≤ KERNBASE) (h : d.Within L) :
    wp E (deallocLoop L oldsz a d) (fun d' m' => Frees d.frames m m' ∧
      ∀ g ∈ d'.frames, g ∈ d.frames) m := by
  refine wp_mono (wp_deallocLoop_rule (I := fun _ d' m' => Frees d.frames m m' ∧
    ∀ g ∈ d'.frames, g ∈ d.frames) (fun _ _ _ _ hI _ _ => hI) ?_ ⟨.refl _ m, fun _ => id⟩)
    fun _ _ hI => hI.choose_spec.2
  rintro b d' m1 p ⟨hfrees, hsub⟩ hlt hp
  have hb : b < KERNBASE / PGSIZE := by
    simp only [PGSIZE, KERNBASE] at *
    omega
  have hmem := hsub _ (Pgdir.frame_mem_frames hb hp)
  have hlo := (h _ hmem).1
  have hpos := L.kend_pos
  rw [if_neg (by omega)]
  refine wp_mono (wp_kfree_frees (h _ hmem) hmem) fun _ m' hfrees' => ?_
  refine ⟨hfrees.trans hfrees' fun _ => id, fun g hg => hsub g ?_⟩
  rw [Pgdir.frames_unmap hb hp]
  exact Multiset.mem_cons_of_mem hg

theorem wp_freeTables_within {l : List Nat}
    (h : ∀ i ∈ l, ∀ t, d.table i = some t → L.Frees t.frame ∧ t.frame ∈ own) :
    wp E (freeTables L d l) (fun _ m' => Frees own m m') m := by
  induction l generalizing m with
  | nil =>
    rw [freeTables, wp_pure]
    exact .refl own m
  | cons i l ih =>
    have hl := fun j hj => h j (mem_cons_of_mem i hj)
    rw [freeTables]
    cases ht : d.table i with
    | none => exact ih hl
    | some t =>
      simp only
      obtain ⟨hrange, hmem⟩ := h i mem_cons_self t ht
      refine wp_seq (wp_kfree_frees hrange hmem) ?_
      intro _ m1 hfrees
      exact wp_mono (ih hl) fun _ _ hfrees' => hfrees.trans hfrees' fun _ => id

/-- `freevm` of a directory whose pages are pages of the allocator returns, and writes to
those only. -/
theorem wp_freevm_within (h : d.Within L) :
    wp E (freevm L d) (fun _ m' => Frees d.frames m m') m := by
  unfold freevm deallocuvm
  obtain ⟨top, htop⟩ : ∃ top, top = KERNBASE := ⟨_, rfl⟩
  have hpos : ¬ 0 ≥ top := by
    rw [htop]
    decide
  rw [← htop, if_neg hpos, wp_bind]
  refine wp_seq (wp_deallocLoop_within (le_of_eq htop) h) ?_
  rintro d' m1 ⟨hfrees1, hsub⟩
  rw [wp_pure, wp_bind]
  have htables : ∀ i ∈ List.range NPTENTRIES, ∀ t, d'.table i = some t →
      L.Frees t.frame ∧ t.frame ∈ d'.frames := by
    intro i hi t ht
    have hmem : t.frame ∈ d'.frames := by
      refine Multiset.mem_cons_of_mem (Multiset.mem_add.mpr (Or.inl ?_))
      unfold Pgdir.tables
      rw [mem_gather]
      exact ⟨i, mem_range.mp hi, by rw [ht]; rfl⟩
    exact ⟨h _ (hsub _ hmem), hmem⟩
  refine wp_mono (wp_freeTables_within htables) ?_
  intro _ m2 hfrees2
  have hmem : d'.frame ∈ d'.frames := Multiset.mem_cons_self _ _
  refine wp_mono (wp_kfree_frees (h _ (hsub _ hmem)) hmem) ?_
  intro _ m' hfrees
  exact hfrees1.trans (hfrees2.trans hfrees fun _ => id) hsub

theorem Stacked.user_below {sz : Nat} (h : Stacked sz d) {j : Nat} {x : Pte}
    (hx : d.pte j = some x) (hu : x.user = true) : j < KERNBASE / PGSIZE := by
  by_contra hj
  rw [h.kernel j x (Nat.le_of_not_lt hj) hx] at hu
  cases hu

/-- `exec` returns whatever the file, the arguments and the failures of `kalloc`. -/
theorem wp_exec {ip : Inode} {argv : List (List UInt8)} {old : Pgdir}
    (h : Owns A m (old.frames + rest)) :
    wp E (exec L ip argv old) (fun r m' =>
      (∀ q ∈ m'.loaded, q ∈ m.loaded ∨ FreshPage A (old.frames + rest) q.1 q.2) ∧
      ∀ img, r = some img → ∃ sz, Stacked sz img.space.pgdir) m := by
  unfold exec
  refine wp_seq (wp_execImage h) ?_
  rintro r m1 ⟨hloads, -, himage, -⟩
  cases r with
  | none =>
    rw [wp_pure]
    exact ⟨hloads.loaded, by simp⟩
  | some r =>
    obtain ⟨sz, d⟩ := r
    obtain ⟨howns, hstacked, -⟩ := himage sz d rfl
    simp only
    refine wp_seq wp_execArgs_writes ?_
    intro r m2 hwrites2
    have hloaded : ∀ m', Writes m2 m' → ∀ q ∈ m'.loaded,
        q ∈ m.loaded ∨ FreshPage A (old.frames + rest) q.1 q.2 := by
      intro m' hwrites q hq
      rw [(hwrites2.trans hwrites).loaded] at hq
      exact hloads.loaded q hq
    cases r with
    | none =>
      have hwithin : d.Within L := howns.within (Multiset.le_add_right _ _)
      simp only
      refine wp_seq (wp_freevm_within hwithin) ?_
      intro _ m' hfrees
      rw [wp_pure]
      exact ⟨hloaded m' hfrees.toWrites, by simp⟩
    | some sp =>
      have hwithin : old.Within L := h.within (Multiset.le_add_right _ _)
      simp only
      refine wp_seq (wp_freevm_within hwithin) ?_
      intro _ m' hfrees
      rw [wp_pure]
      refine ⟨hloaded m' hfrees.toWrites, ?_⟩
      intro img himg
      cases himg
      exact ⟨sz, hstacked⟩

/-- `exec` returns on every file; it maps user pages below `KERNBASE` only, and reads the file
into pages only that the new directory maps and nobody else has.  After the loop the pages
are those below the largest end of a segment. -/
theorem exec_robust {ip : Inode} {argv : List (List UInt8)} {old : Pgdir}
    (h : Owns A m (old.frames + rest)) :
    (∃ r m', exec L ip argv old m = .ok r m' ∧
      (∀ q ∈ m'.loaded, q ∈ m.loaded ∨ FreshPage A (old.frames + rest) q.1 q.2) ∧
      ∀ img, r = some img → ∀ j x, img.space.pgdir.pte j = some x → x.user = true →
        j < KERNBASE / PGSIZE) ∧
    ∀ d m1 sz d' m2, setupkvm L m = .ok (some d) m1 →
      loadSegments L ip ip.phnum ip.phoff 0 d m1 = .ok (some sz, d') m2 →
      sz = loadSize ip ip.phnum ip.phoff 0 ∧ sz < KERNBASE ∧
      ∀ j < KERNBASE / PGSIZE, (d'.pte j).isSome ↔ j < pageUp sz := by
  constructor
  · have hexec : wp (fun _ => False) (exec L ip argv old) _ m := wp_exec h
    obtain ⟨r, m', hrun, hloaded, himage⟩ := wp_returns hexec
    refine ⟨r, m', hrun, hloaded, ?_⟩
    intro img himg j x hx hu
    obtain ⟨sz, hstacked⟩ := himage img himg
    exact hstacked.user_below hx hu
  · intro d m1 sz d' m2 hsetup hload
    obtain ⟨-, -, hsome, -⟩ := wp_ok (wp_setupkvm (E := fun _ => False) h) hsetup
    obtain ⟨howns, hkernel⟩ := hsome d rfl
    have hpos : 0 < KERNBASE := by decide
    have hmapped : Mapped 0 d := .of_kernel hkernel
    obtain ⟨-, -, hsize⟩ :=
      wp_ok (wp_loadSegments (E := fun _ => False) howns hpos hmapped) hload
    obtain ⟨heq, hlt, hmapped'⟩ := hsize sz rfl
    exact ⟨heq, hlt, hmapped'.present⟩

/-- An ELF file with one segment: four bytes at address 0, behind the program header. -/
def oneSegment : Inode where
  size := 88
  data := fun i =>
    if i = 28 then 52 else if i = 44 ∨ i = 52 then 1 else if i = 56 then 84
    else if i = 68 ∨ i = 72 then 4 else [0x7f, 0x45, 0x4c, 0x46].getD i 0

theorem wp_loadSegments_oneSegment {d' : Pgdir} {x : Pte} {m1 m2 : Mem}
    (halloc : allocuvm L d 0 4 m1 = .ok (4, d') m2) (hx : d'.pte 0 = some x) :
    wp E (loadSegments L oneSegment 1 52 0 d)
      (fun r m' => r = (some 4, d') ∧ (d', x.frame) ∈ m'.loaded) m1 := by
  have htable : ∃ t, d'.table 0 = some t := by
    cases ht : d'.table 0 with
    | none => simp [Pgdir.pte, ht] at hx
    | some t => exact ⟨t, rfl⟩
  obtain ⟨t, ht⟩ := htable
  have hwalk : walkpgdir d' 0 false = pure (some d') := by
    simp [walkpgdir, ht]
  rw [loadSegments, if_neg (by decide)]
  simp only
  rw [if_neg (by decide), if_neg (by decide), if_neg (by decide)]
  refine wp_bind.mpr (wp_of_ok halloc ?_)
  rw [if_neg (show (4 : Nat) ≠ 0 by decide), if_neg (by decide)]
  refine wp_bind.mpr ?_
  rw [loaduvm, if_neg (by decide), show pageUp (oneSegment.proghdr 52).filesz = 1 by decide,
    loadLoop]
  simp only
  rw [show ((oneSegment.proghdr 52).vaddr / PGSIZE + 0) % 2 ^ 20 = 0 by decide, hwalk,
    wp_bind, wp_pure]
  have hread : oneSegment.readi (((oneSegment.proghdr 52).off + 0 * PGSIZE) % 2 ^ 32)
      (min PGSIZE ((oneSegment.proghdr 52).filesz - 0 * PGSIZE)) = some 4 := by
    decide
  have hcount : 4 = min PGSIZE ((oneSegment.proghdr 52).filesz - 0 * PGSIZE) := by decide
  simp only [hread, hx, wp_bind, wp_get, loadPage, wp_modify]
  rw [if_pos hcount, loadLoop, wp_pure, if_pos rfl, loadSegments, wp_pure]
  exact ⟨rfl, mem_cons_self⟩

/-- The segment of the file is loaded in a memory the machine has booted with. -/
theorem exec_robust_segment : ∃ m old d m1 d' m2,
    Owns (bootPages someLayout) m (old.frames + 0) ∧
    (∃ r m', exec someLayout oneSegment [] old m = .ok r m') ∧
    setupkvm someLayout m = .ok (some d) m1 ∧
    loadSegments someLayout oneSegment 1 52 0 d m1 = .ok (some 4, d') m2 ∧ m2.loaded ≠ [] ∧
    ∀ j < KERNBASE / PGSIZE, (d'.pte j).isSome ↔ j < 1 := by
  obtain ⟨m, old, howns, hold, hnever⟩ := exists_kernelSpace
  have hall := card_someLayout
  have hcard : (old.frames + 0).card ≤ 1025 := by
    rw [add_zero]
    exact card_frames_of_low hold.low
  obtain ⟨r, m1, hsetup, hsame, -, hsome, hroom⟩ :=
    wp_returns (wp_setupkvm (E := fun _ => False) howns)
  obtain ⟨d, rfl⟩ := Option.ne_none_iff_exists'.mp
    (hroom hnever (by omega))
  obtain ⟨howns1, hkernel⟩ := hsome d rfl
  have hgrow : wp (fun _ => False) (allocuvm someLayout d 0 4) _ m1 :=
    wp_allocuvm_mapped howns1 (by decide) (.of_kernel hkernel)
  obtain ⟨⟨sz, d'⟩, m', halloc, -, -, hgrown, hroom'⟩ := wp_returns hgrow
  have hne : sz ≠ 0 := by
    refine hroom' (by decide) (by decide) (by decide) (by rwa [hsame.fails]) ?_
    have hpages : pageUp 4 = 1 := by decide
    omega
  obtain ⟨rfl, -, hmapped⟩ := hgrown hne
  obtain ⟨x, hx⟩ := Option.isSome_iff_exists.mp
    ((hmapped.present 0 (by decide)).mpr (show 0 < pageUp 4 by decide))
  obtain ⟨-, m2, hload, rfl, hloaded⟩ := wp_returns
    (wp_loadSegments_oneSegment (E := fun _ => False) halloc hx)
  obtain ⟨⟨r, m'', hrun, -⟩, hsegments⟩ :=
    @exec_robust _ _ _ _ oneSegment [] _ howns
  obtain ⟨-, -, hpresent⟩ := hsegments d m1 4 d' m2 hsetup hload
  exact ⟨m, old, d, m1, d', m2, howns, ⟨r, m'', hrun⟩, hsetup, hload, ne_nil_of_mem hloaded,
    hpresent⟩

end Xv6.Vm
