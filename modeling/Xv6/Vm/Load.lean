import Xv6.Vm.Exec
import Xv6.Vm.Kvm

/-!
# Loading a program

Whatever the file holds, the loop of `exec` over the program headers keeps the pages of the
new directory those below the size: a segment is loaded only after the wrap and bounds checks
and after `allocuvm` has put its pages there.
-/

namespace Xv6.Vm

open Lib Lib.Act Function Multiset

/-- A directory with exactly the user pages below `sz`, and the kernel's pages. -/
structure Mapped (sz : Nat) (d : Pgdir) : Prop where
  present : ∀ j, j < KERNBASE / PGSIZE → ((d.pte j).isSome ↔ j < pageUp sz)
  user : ∀ j x, j < KERNBASE / PGSIZE → d.pte j = some x → x.user = true
  kernel : ∀ j x, KERNBASE / PGSIZE ≤ j → d.pte j = some x → x.user = false
  tables : ∀ i, 512 ≤ i → (d.HasTable i ↔ 512 ≤ i ∧ i < 568 ∨ 1016 ≤ i ∧ i < 1024)

/-- A page that a directory maps in user space and that is none of `rest`. -/
def FreshPage {L : Layout} (A : Pages L) (rest : Multiset Nat) (d : Pgdir) (f : Nat) : Prop :=
  (∃ j x, j < KERNBASE / PGSIZE ∧ d.pte j = some x ∧ x.frame = f) ∧ f ∈ A.all ∧ f ∉ rest

/-- Nothing happens to the pages of `rest`, and files are read into other pages only, which a
directory maps. -/
structure Loads {L : Layout} (A : Pages L) (rest : Multiset Nat) (m m' : Mem) : Prop where
  bytes : ∀ f ∈ rest, m'.bytes f = m.bytes f
  fails : m'.fails = m.fails
  null : m'.null = m.null
  nulls : m'.nulls = m.nulls
  loaded : ∀ q ∈ m'.loaded, q ∈ m.loaded ∨ FreshPage A rest q.1 q.2

variable {L : Layout} {A : Pages L} {E : String → Prop} {m m' : Mem} {rest : Multiset Nat}
  {d : Pgdir} {ip : Inode}

theorem Loads.of_same {P : Nat → Prop} (h : Same P m m') (hP : ∀ f ∈ rest, P f) :
    Loads A rest m m' :=
  ⟨fun f hf => h.bytes f (hP f hf), h.fails, h.null, h.nulls, fun _ hf => Or.inl (h.loaded ▸ hf)⟩

theorem Loads.trans {m'' : Mem} (h : Loads A rest m m') (h' : Loads A rest m' m'') :
    Loads A rest m m'' where
  bytes := fun f hf => (h'.bytes f hf).trans (h.bytes f hf)
  fails := h'.fails.trans h.fails
  null := h'.null.trans h.null
  nulls := h'.nulls.trans h.nulls
  loaded := by
    intro f hf
    rcases h'.loaded f hf with hf | hf
    · exact h.loaded f hf
    · exact Or.inr hf

theorem Mapped.of_kernel (h : KernelSpace d) : Mapped 0 d where
  present := by
    intro j hj
    have hup : pageUp 0 = 0 := rfl
    rw [h.low j hj, hup]
    simp
  user := by
    intro j x hj hx
    rw [h.low j hj] at hx
    cases hx
  kernel := fun j x _ hx => h.kernel j x hx
  tables := fun i _ => h.tables i

theorem Mapped.grows {old new : Nat} {d' : Pgdir} (h : Mapped old d) (hnew : new < KERNBASE)
    (hle : old ≤ new) (hgrows : Grows (pageUp old) (pageUp new) d d') : Mapped new d' where
  present := by
    intro j hj
    by_cases hin : pageUp old ≤ j ∧ j < pageUp new
    · obtain ⟨x, hx, -⟩ := hgrows.present j hin.1 hin.2
      simp [hx, hin.2]
    · have hmono : pageUp old ≤ pageUp new := by
        simp only [pageUp, PGSIZE, KERNBASE] at *
        omega
      rw [hgrows.pte j hin, h.present j hj]
      omega
  user := by
    intro j x hj hx
    by_cases hin : pageUp old ≤ j ∧ j < pageUp new
    · obtain ⟨y, hy, huser, -⟩ := hgrows.present j hin.1 hin.2
      rw [hy] at hx
      cases hx
      exact huser
    · rw [hgrows.pte j hin] at hx
      exact h.user j x hj hx
  kernel := by
    intro j x hj hx
    rw [hgrows.pte j] at hx
    · exact h.kernel j x hj hx
    · simp only [pageUp, PGSIZE, KERNBASE] at *
      omega
  tables := by
    intro i hi
    rw [hgrows.tables, h.tables i hi]
    simp only [pageUp, PGSIZE, KERNBASE, NPTENTRIES] at *
    omega

variable {sz : Nat}

theorem Mapped.fresh {j : Nat} (h : Mapped sz d) (hlo : pageUp sz ≤ j)
    (hj : j < KERNBASE / PGSIZE) : d.pte j = none := by
  have hiff := h.present j hj
  cases hx : d.pte j with
  | none => rfl
  | some x =>
    rw [hx] at hiff
    have := hiff.mp rfl
    omega

/-- `allocuvm` as `exec` uses it, for any new size: where it does not fail, the size is the
larger one. -/
theorem wp_allocuvm_mapped {new : Nat} (h : Owns A m (d.frames + rest)) (hsz : sz < KERNBASE)
    (hmapped : Mapped sz d) :
    wp E (allocuvm L d sz new) (fun r m' => Owns A m' (r.2.frames + rest) ∧
      Same (fun f => f ∈ rest) m m' ∧
      (r.1 ≠ 0 → r.1 = max sz new ∧ r.1 < KERNBASE ∧ Mapped r.1 r.2) ∧
      (sz ≤ new → new < KERNBASE → new ≠ 0 → (∀ i, m.fails i = false) →
        pageUp new + 1026 + rest.card < A.all.card → r.1 ≠ 0)) m := by
  by_cases hbig : KERNBASE ≤ new
  · rw [allocuvm_big hbig, wp_pure]
    exact ⟨h, .refl _ _, fun hne => absurd rfl hne, fun _ hlt => by omega⟩
  by_cases hsmall : new < sz
  · rw [allocuvm_small (by omega) hsmall, wp_pure]
    refine ⟨h, .refl _ _, fun _ => ⟨?_, hsz, hmapped⟩, fun hle => by omega⟩
    simp only
    omega
  have hnew : new < KERNBASE := by omega
  have hfresh : ∀ j, pageUp sz ≤ j → j < pageUp new → d.pte j = none ∨ E "remap" := by
    intro j hlo hhi
    apply Or.inl (hmapped.fresh hlo _)
    have hlt := (lt_pageUp hnew.le).mp hhi
    simp only [PGSIZE, KERNBASE] at *
    omega
  refine wp_mono (wp_allocuvm hnew (by omega) h hfresh) ?_
  rintro ⟨r, d'⟩ m' ⟨howns, hcases⟩
  rcases hcases with ⟨hr, hgrows, hsame⟩ | ⟨hr, -, hsame, hroom⟩
  · change r = new at hr
    subst hr
    refine ⟨howns, hsame.mono fun f hf => mem_add.mpr (Or.inr hf), ?_, ?_⟩
    · exact fun _ => ⟨by simp only; omega, hnew, hmapped.grows hnew (by omega) hgrows⟩
    · exact fun _ _ hne _ _ => hne
  · refine ⟨howns, hsame.mono fun f hf => ⟨mem_add.mpr (Or.inr hf),
      mem_add.mpr (Or.inr hf)⟩, fun hne => absurd hr hne, ?_⟩
    intro _ _ _ hnever hcard
    have hmono : pageUp sz ≤ pageUp new := by
      simp only [pageUp, PGSIZE, KERNBASE] at *
      omega
    exact absurd ⟨hnever, fun j hlo hj => hmapped.fresh hlo hj, by omega⟩ hroom

variable {n : Nat}

theorem wp_walkpgdir_present (h : d.HasTable (n / NPTENTRIES)) {Q : Option Pgdir → Mem → Prop}
    (hQ : Q (some d) m) : wp E (walkpgdir d n false) Q m := by
  unfold walkpgdir
  split
  · rw [wp_pure]
    exact hQ
  · rename_i hnone
    exact absurd hnone h

variable {x : Pte}

theorem wp_loadPage {f : Nat} {p : Nat → UInt8} (h : Owns A m (d.frames + rest))
    (hn : n < KERNBASE / PGSIZE) (hx : d.pte n = some x) (hf : f = x.frame) :
    wp E (loadPage d f p) (fun _ m' => Owns A m' (d.frames + rest) ∧ Loads A rest m m') m := by
  have hmem : f ∈ d.frames := by
    rw [hf]
    exact Pgdir.frame_mem_frames hn hx
  have hnot : f ∉ rest := fun hr =>
    disjoint_left.mp (nodup_add.mp h.nodup).2.2 hmem hr
  have hown : f ∈ d.frames + rest := mem_add.mpr (Or.inl hmem)
  unfold loadPage
  rw [wp_modify]
  refine ⟨(h.setPage hown p).ghost rfl rfl, ?_, rfl, rfl, rfl, ?_⟩
  · intro g hg
    apply update_of_ne
    rintro rfl
    exact hnot hg
  · intro g hg
    rcases List.mem_cons.mp hg with rfl | hg
    · exact Or.inr ⟨⟨n, x, hn, hx, hf.symm⟩, mem_of_le h.le_all hown, hnot⟩
    · exact Or.inl hg

variable {off : Nat}

theorem wp_loadLoop {va k i : Nat} (h : Owns A m (d.frames + rest))
    (htop : va / PGSIZE + i + k ≤ KERNBASE / PGSIZE)
    (hpages : ∀ j, j < va / PGSIZE + i + k → (d.pte j).isSome) :
    wp E (loadLoop d va ip off sz k i) (fun _ m' =>
      Owns A m' (d.frames + rest) ∧ Loads A rest m m') m := by
  induction k generalizing i m with
  | zero =>
    rw [loadLoop, wp_pure]
    exact ⟨h, .of_same (.refl (fun f => f ∈ rest) m) fun _ => id⟩
  | succ k ih =>
    have hpage : (va / PGSIZE + i) % 2 ^ 20 = va / PGSIZE + i := by
      have hup : KERNBASE / PGSIZE = 524288 := by simp only [KERNBASE, PGSIZE]
      rw [hup] at htop
      exact Nat.mod_eq_of_lt (by omega)
    have hlt : va / PGSIZE + i < KERNBASE / PGSIZE := by omega
    obtain ⟨x, hx⟩ := Option.isSome_iff_exists.mp (hpages (va / PGSIZE + i) (by omega))
    rw [loadLoop]
    simp only [hpage]
    rw [wp_bind]
    refine wp_walkpgdir_present (Pgdir.hasTable_of_pte hx) ?_
    simp only [hx, Option.map_some, Option.getD_some]
    split
    · rw [wp_pure]
      exact ⟨h, .of_same (.refl (fun f => f ∈ rest) m) fun _ => id⟩
    · rw [wp_bind, wp_get]
      refine wp_seq (wp_loadPage h hlt hx rfl) ?_
      rintro - m1 ⟨howns1, hloads1⟩
      split_ifs
      · refine wp_mono (ih howns1 (by omega) fun j hj => hpages j (by omega)) ?_
        rintro - m' ⟨howns', hloads'⟩
        exact ⟨howns', hloads1.trans hloads'⟩
      · rw [wp_pure]
        exact ⟨howns1, hloads1⟩

/-- The size after the first `k` headers: the largest end of a segment that is loaded. -/
def loadSize (ip : Inode) : Nat → Nat → Nat → Nat
  | 0, _, sz => sz
  | k + 1, off, sz =>
    let ph := ip.proghdr off
    let next := (off + PROGHDR) % 2 ^ 32
    loadSize ip k next (if ph.type = ELF_PROG_LOAD then max sz ph.top else sz)

theorem word_lt (p : Nat → UInt8) (off : Nat) : word p off < 2 ^ 32 := by
  have h0 := (p off).toNat_lt
  have h1 := (p (off + 1)).toNat_lt
  have h2 := (p (off + 2)).toNat_lt
  have h3 := (p (off + 3)).toNat_lt
  unfold word
  omega

theorem segment_below (hsz : sz < KERNBASE)
    (hmem : (ip.proghdr off).filesz ≤ (ip.proghdr off).memsz)
    (hwrap : ¬ (ip.proghdr off).top < (ip.proghdr off).vaddr)
    (halign : (ip.proghdr off).vaddr % PGSIZE = 0) (htop : (ip.proghdr off).top ≤ sz) :
    (ip.proghdr off).vaddr / PGSIZE + 0 + pageUp (ip.proghdr off).filesz ≤ pageUp sz ∧
      pageUp sz ≤ KERNBASE / PGSIZE := by
  have hv : (ip.proghdr off).vaddr < 2 ^ 32 := word_lt _ _
  have hm : (ip.proghdr off).memsz < 2 ^ 32 := word_lt _ _
  generalize ip.proghdr off = ph at *
  simp only [Proghdr.top, pageUp, PGSIZE, KERNBASE] at *
  omega

theorem wp_loadSegments {k : Nat} (h : Owns A m (d.frames + rest))
    (hsz : sz < KERNBASE) (hmapped : Mapped sz d) :
    wp E (loadSegments L ip k off sz d) (fun r m' => Owns A m' (r.2.frames + rest) ∧
      Loads A rest m m' ∧ (∀ sz', r.1 = some sz' → sz' = loadSize ip k off sz ∧ sz' < KERNBASE ∧
        Mapped sz' r.2)) m := by
  have hrefl : Loads A rest m m := .of_same (.refl (fun f => f ∈ rest) m) fun _ => id
  induction k generalizing off sz d m with
  | zero =>
    rw [loadSegments, wp_pure]
    refine ⟨h, hrefl, ?_⟩
    intro sz' hsz'
    cases hsz'
    exact ⟨rfl, hsz, hmapped⟩
  | succ k ih =>
    rw [loadSegments]
    simp only
    by_cases hread : ip.readi off PROGHDR ≠ some PROGHDR
    · rw [if_pos hread, wp_pure]
      exact ⟨h, hrefl, by simp⟩
    rw [if_neg hread, loadSize]
    by_cases htype : (ip.proghdr off).type ≠ ELF_PROG_LOAD
    · rw [if_pos htype, if_neg htype]
      exact ih h hsz hmapped hrefl
    rw [if_neg htype, if_pos (not_not.mp htype)]
    by_cases hmem : (ip.proghdr off).memsz < (ip.proghdr off).filesz
    · rw [if_pos hmem, wp_pure]
      exact ⟨h, hrefl, by simp⟩
    rw [if_neg hmem]
    by_cases hwrap : (ip.proghdr off).top < (ip.proghdr off).vaddr
    · rw [if_pos hwrap, wp_pure]
      exact ⟨h, hrefl, by simp⟩
    rw [if_neg hwrap]
    refine wp_seq (wp_allocuvm_mapped h hsz hmapped) ?_
    rintro ⟨sz1, d1⟩ m1 ⟨howns1, hsame1, hgrown, -⟩
    have hloads1 : Loads A rest m m1 := .of_same hsame1 fun _ => id
    simp only at howns1 hgrown ⊢
    by_cases hzero : sz1 = 0
    · rw [if_pos hzero, wp_pure]
      exact ⟨howns1, hloads1, by simp⟩
    rw [if_neg hzero]
    obtain ⟨hmax, hlt1, hmapped1⟩ := hgrown hzero
    by_cases halign : (ip.proghdr off).vaddr % PGSIZE ≠ 0
    · rw [if_pos halign, wp_pure]
      exact ⟨howns1, hloads1, by simp⟩
    rw [if_neg halign]
    -- the segment lies below the new size, so its pages are present
    have hload : wp E (loaduvm d1 (ip.proghdr off).vaddr ip (ip.proghdr off).off
        (ip.proghdr off).filesz) (fun _ m' => Owns A m' (d1.frames + rest) ∧
          Loads A rest m1 m') m1 := by
      unfold loaduvm
      rw [if_neg halign]
      obtain ⟨hsegment, hbound⟩ := segment_below hlt1 (by omega) hwrap (not_not.mp halign)
        (show (ip.proghdr off).top ≤ sz1 by omega)
      refine wp_loadLoop howns1 (hsegment.trans hbound) ?_
      intro j hj
      exact (hmapped1.present j (by omega)).mpr (by omega)
    refine wp_seq hload ?_
    rintro ok m2 ⟨howns2, hloads2⟩
    cases ok with
    | false =>
      simp only [Bool.false_eq_true, if_false]
      rw [wp_pure]
      exact ⟨howns2, hloads1.trans hloads2, by simp⟩
    | true =>
      simp only [if_true]
      rw [← hmax]
      refine wp_mono (ih howns2 hlt1 hmapped1
        (.of_same (.refl (fun f => f ∈ rest) m2) fun _ => id)) ?_
      rintro r m' ⟨howns', hloads', hrest⟩
      exact ⟨howns', (hloads1.trans hloads2).trans hloads', hrest⟩

/-- The address space `exec` pushes the arguments into: pages up to `sz`, where the last is
the stack and the one below it has no access. -/
structure Stacked (sz : Nat) (d : Pgdir) : Prop where
  aligned : sz % PGSIZE = 0
  two : 2 * PGSIZE ≤ sz
  below : sz < KERNBASE
  present : ∀ j, j < KERNBASE / PGSIZE → ((d.pte j).isSome ↔ j < sz / PGSIZE)
  user : ∀ j x, j < KERNBASE / PGSIZE → d.pte j = some x →
    (x.user = true ↔ j ≠ sz / PGSIZE - 2)
  kernel : ∀ j x, KERNBASE / PGSIZE ≤ j → d.pte j = some x → x.user = false
  tables : ∀ i, 512 ≤ i → (d.HasTable i ↔ 512 ≤ i ∧ i < 568 ∨ 1016 ≤ i ∧ i < 1024)

theorem Mapped.congr {sz' : Nat} (h : Mapped sz d) (heq : pageUp sz' = pageUp sz) : Mapped sz' d :=
  { h with present := fun j hj => by rw [heq]; exact h.present j hj }

theorem wp_clearpteu (hx : d.pte n = some x) {Q : Pgdir → Mem → Prop}
    (hQ : Q (d.setPte n (some { x with user := false })) m) : wp E (clearpteu d n) Q m := by
  unfold clearpteu
  rw [wp_bind]
  refine wp_walkpgdir_present (Pgdir.hasTable_of_pte hx) ?_
  simp only
  rw [wp_pure, hx]
  exact hQ

theorem Mapped.stacked (h : Mapped sz d) (haligned : sz % PGSIZE = 0)
    (htwo : 2 * PGSIZE ≤ sz) (hsz : sz < KERNBASE) (hx : d.pte (sz / PGSIZE - 2) = some x) :
    Stacked sz (d.setPte (sz / PGSIZE - 2) (some { x with user := false })) := by
  have hup : pageUp sz = sz / PGSIZE := by
    simp only [pageUp, PGSIZE, KERNBASE] at *
    omega
  have hpte := Pgdir.pte_setPte (Pgdir.hasTable_of_pte hx)
    (y := some { x with user := false })
  refine ⟨haligned, htwo, hsz, ?_, ?_, ?_, ?_⟩
  · intro j hj
    have hpresent := h.present j hj
    rw [hup] at hpresent
    rw [hpte, ← hpresent]
    by_cases hjn : j = sz / PGSIZE - 2
    · rw [hjn, update_self, hx]
      rfl
    · rw [update_of_ne hjn]
  · intro j y hj hy
    rw [hpte] at hy
    by_cases hjn : j = sz / PGSIZE - 2
    · rw [hjn, update_self] at hy
      cases hy
      simp [hjn]
    · rw [update_of_ne hjn] at hy
      simp [h.user j y hj hy, hjn]
  · intro j y hj hy
    rw [hpte, update_of_ne] at hy
    · exact h.kernel j y hj hy
    · simp only [PGSIZE, KERNBASE] at *
      omega
  · intro i hi
    rw [Pgdir.hasTable_setPte]
    exact h.tables i hi

/-- Memory never runs out while an empty program is built beside `rest`. -/
structure Roomy (A : Pages L) (rest : Multiset Nat) (m : Mem) : Prop where
  never : ∀ i, m.fails i = false
  room : 1028 + rest.card < A.all.card

theorem wp_execStack (h : Owns A m (d.frames + rest)) (hsz : sz < KERNBASE)
    (hmapped : Mapped sz d) :
    wp E (execStack L sz d) (fun r m' => Same (fun f => f ∈ rest) m m' ∧
      (r = none → Owns A m' rest) ∧
      (∀ sz' d', r = some (sz', d') → Owns A m' (d'.frames + rest) ∧ Stacked sz' d' ∧
        sz' = roundUp sz + 2 * PGSIZE) ∧
      (sz = 0 → Roomy A rest m → ∃ d', r = some (2 * PGSIZE, d'))) m := by
  unfold execStack
  simp only
  generalize htop : roundUp sz = top
  have hbound : top ≤ KERNBASE ∧ pageUp top = pageUp sz ∧ top % PGSIZE = 0 ∧
      (top + 2 * PGSIZE) % 2 ^ 32 = top + 2 * PGSIZE := by
    simp only [roundUp, pageUp, PGSIZE, KERNBASE] at *
    omega
  obtain ⟨-, hup, haligned, hnowrap⟩ := hbound
  have hfail : ∀ {m1 : Mem} {e : Pgdir}, Owns A m1 (e.frames + rest) →
      Same (fun f => f ∈ rest) m m1 → (sz = 0 → ¬ Roomy A rest m) →
      wp E (freevm L e >>= fun _ => pure none) (fun (r : Option (Nat × Pgdir)) m' =>
        Same (fun f => f ∈ rest) m m' ∧ (r = none → Owns A m' rest) ∧
        (∀ sz' d', r = some (sz', d') → Owns A m' (d'.frames + rest) ∧ Stacked sz' d' ∧
          sz' = top + 2 * PGSIZE) ∧
        (sz = 0 → Roomy A rest m → ∃ d', r = some (2 * PGSIZE, d'))) m1 := by
    intro m1 e howns hsame hno
    refine wp_seq (wp_freevm howns) ?_
    rintro - m' ⟨hsame', howns'⟩
    rw [wp_pure]
    refine ⟨(hsame.trans hsame').mono fun f hf => ⟨hf, hf⟩, fun _ => howns', by simp, ?_⟩
    exact fun hzero hroomy => (hno hzero hroomy).elim
  rw [hnowrap]
  by_cases hbig : KERNBASE ≤ top + 2 * PGSIZE
  · rw [allocuvm_big hbig, wp_bind, wp_pure]
    simp only [if_true]
    refine hfail h (.refl _ _) ?_
    intro hzero
    subst hzero
    rw [← htop] at hbig
    simp only [roundUp, pageUp, PGSIZE, KERNBASE] at hbig
    omega
  · have hmapped' := hmapped.congr hup
    have hlt : top < KERNBASE := by
      simp only [PGSIZE] at hbig
      omega
    refine wp_seq (wp_allocuvm_mapped h hlt hmapped') ?_
    rintro ⟨sz1, d1⟩ m1 ⟨howns1, hsame1, hgrown, hroom⟩
    simp only at howns1 hgrown hroom ⊢
    by_cases hzero : sz1 = 0
    · rw [if_pos hzero]
      refine hfail howns1 hsame1 ?_
      rintro hsz0 ⟨hnever, hcard⟩
      refine hroom (by omega) (by omega) (by simp only [PGSIZE]; omega) hnever ?_ hzero
      rw [← htop, hsz0]
      have hpages : pageUp (roundUp 0 + 2 * PGSIZE) = 2 := rfl
      rw [hpages]
      omega
    · obtain ⟨hmax, hlt1, hmapped1⟩ := hgrown hzero
      have hsize : sz1 = top + 2 * PGSIZE := by omega
      have hguard : (sz1 - 2 * PGSIZE) / PGSIZE = sz1 / PGSIZE - 2 := by
        simp only [PGSIZE] at *
        omega
      have htwo : 2 * PGSIZE ≤ sz1 := by omega
      have haligned1 : sz1 % PGSIZE = 0 := by
        simp only [PGSIZE] at *
        omega
      have hpage : sz1 / PGSIZE - 2 < KERNBASE / PGSIZE := by
        simp only [PGSIZE, KERNBASE] at *
        omega
      obtain ⟨x, hx⟩ := Option.isSome_iff_exists.mp ((hmapped1.present _ hpage).mpr (by
        simp only [pageUp, PGSIZE, KERNBASE] at *
        omega))
      rw [if_neg hzero, wp_bind, hguard]
      refine wp_clearpteu hx ?_
      rw [wp_pure]
      refine ⟨hsame1, by simp, ?_, ?_⟩
      · intro sz' d' hr
        cases hr
        refine ⟨howns1.congr ?_, hmapped1.stacked haligned1 htwo hlt1 hx, hsize⟩
        rw [Pgdir.frames_setPte_same (Pgdir.hasTable_of_pte hx)]
        intro _
        rw [hx]
        rfl
      · intro hsz0 _
        refine ⟨_, congrArg some (Prod.ext_iff.mpr ⟨?_, rfl⟩)⟩
        have hzero : roundUp 0 = 0 := rfl
        rw [hsize, ← htop, hsz0, hzero]
        simp

def imageSize (ip : Inode) : Nat := roundUp (loadSize ip ip.phnum ip.phoff 0) + 2 * PGSIZE

/-- The part of `exec` before the arguments: it fails and gives everything back, or it has
built an address space with a stack. -/
theorem wp_execImage (h : Owns A m rest) :
    wp E (execImage L ip) (fun r m' => Loads A rest m m' ∧ (r = none → Owns A m' rest) ∧
      (∀ sz d, r = some (sz, d) → Owns A m' (d.frames + rest) ∧ Stacked sz d ∧ sz = imageSize ip) ∧
      (ip.readi 0 ELFHDR = some ELFHDR → ip.magic = ELF_MAGIC → ip.phnum = 0 →
        Roomy A rest m → ∃ d, r = some (2 * PGSIZE, d))) m := by
  have hrefl : Loads A rest m m := .of_same (.refl (fun f => f ∈ rest) m) fun _ => id
  unfold execImage
  by_cases hread : ip.readi 0 ELFHDR ≠ some ELFHDR
  · rw [if_pos hread, wp_pure]
    exact ⟨hrefl, fun _ => h, by simp, fun heq => absurd heq hread⟩
  rw [if_neg hread]
  by_cases hmagic : ip.magic ≠ ELF_MAGIC
  · rw [if_pos hmagic, wp_pure]
    exact ⟨hrefl, fun _ => h, by simp, fun _ heq => absurd heq hmagic⟩
  rw [if_neg hmagic]
  refine wp_seq (wp_setupkvm h) ?_
  rintro r m1 ⟨hsame1, hnone, hsome, hroom⟩
  have hloads1 : Loads A rest m m1 := .of_same hsame1 fun _ => id
  cases r with
  | none =>
    rw [wp_pure]
    refine ⟨hloads1, fun _ => hnone rfl, by simp, ?_⟩
    intro _ _ _ hroomy
    have hcard := hroomy.room
    exact absurd rfl (hroom hroomy.never (by omega))
  | some d1 =>
    obtain ⟨howns1, hkernel⟩ := hsome d1 rfl
    have hpos : 0 < KERNBASE := by decide
    simp only
    by_cases hnum : ip.phnum = 0
    · rw [hnum, loadSegments, wp_bind, wp_pure]
      simp only
      refine wp_mono (wp_execStack howns1 hpos (.of_kernel hkernel)) ?_
      rintro r m' ⟨hsame', hnone', hsome', hroom'⟩
      refine ⟨hloads1.trans (.of_same hsame' fun _ => id), hnone', ?_, ?_⟩
      · intro sz d hr
        have hsize : imageSize ip = roundUp 0 + 2 * PGSIZE := by
          unfold imageSize
          rw [hnum]
          rfl
        rw [hsize]
        exact hsome' sz d hr
      intro _ _ _ hroomy
      refine hroom' rfl ⟨?_, hroomy.room⟩
      rw [hsame1.fails]
      exact hroomy.never
    · refine wp_seq (wp_loadSegments howns1 hpos (.of_kernel hkernel)) ?_
      rintro ⟨o, d2⟩ m2 ⟨howns2, hloads2, hsize⟩
      cases o with
      | none =>
        simp only
        refine wp_seq (wp_freevm howns2) ?_
        rintro - m' ⟨hsame', howns'⟩
        rw [wp_pure]
        refine ⟨(hloads1.trans hloads2).trans (.of_same hsame' fun _ => id), fun _ => howns',
          by simp, fun _ _ hn => absurd hn hnum⟩
      | some sz =>
        obtain ⟨heq, hlt, hmapped⟩ := hsize sz rfl
        simp only
        refine wp_mono (wp_execStack howns2 hlt hmapped) ?_
        rintro r m' ⟨hsame', hnone', hsome', -⟩
        refine ⟨(hloads1.trans hloads2).trans (.of_same hsame' fun _ => id), hnone', ?_,
          fun _ _ hn => absurd hn hnum⟩
        unfold imageSize
        rw [← heq]
        exact hsome'

end Xv6.Vm
