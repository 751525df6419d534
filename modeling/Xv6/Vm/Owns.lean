import Xv6.Lib.Chain
import Xv6.Lib.Gather
import Xv6.Vm.Code

/-!
# Who owns the pages of physical memory

`Owns A m own`: of the pages in `A`, the free list of `m` holds exactly those that are not
in `own`, each once.  The rules of `kalloc` and `kfree` move one page between the two; the
pages of a directory are its own page, its page tables and its user pages.
-/

namespace Xv6.Vm

open Lib Lib.Act Function Multiset

theorem Layout.kend_pos (L : Layout) : 0 < L.kend := by
  have htext : 256 < L.data := L.text_lt_data
  have := L.data_le_kend
  omega

structure Pages (L : Layout) where
  all : Multiset Nat
  nodup : all.Nodup
  range : ∀ f ∈ all, L.kend ≤ f ∧ f < PHYSTOP / PGSIZE

@[irreducible] def bootPages (L : Layout) : Pages L where
  all := ((List.range' L.kend (PHYSTOP / PGSIZE - L.kend) : List Nat) : Multiset Nat)
  nodup := coe_nodup.mpr List.nodup_range'
  range := by
    intro f hf
    have hlt := L.kend_lt_top
    rw [mem_coe, List.mem_range'_1] at hf
    omega

def Owns {L : Layout} (A : Pages L) (m : Mem) (own : Multiset Nat) : Prop :=
  ∃ free : List Nat, Chain m.next m.freelist free ∧ (free : Multiset Nat) + own = A.all

/-- The pages of `P` keep their bytes, and nothing has been read through a null pointer or
loaded from a file. -/
structure Same (P : Nat → Prop) (m m' : Mem) : Prop where
  bytes : ∀ f, P f → m'.bytes f = m.bytes f
  fails : m'.fails = m.fails
  null : m'.null = m.null
  nulls : m'.nulls = m.nulls
  loaded : m'.loaded = m.loaded

section Allocator

variable {L : Layout} {A : Pages L} {E : String → Prop} {m m' : Mem} {own : Multiset Nat}
  {f : Nat} {P P' : Nat → Prop} {y : Option Pte}

theorem Same.refl (P : Nat → Prop) (m : Mem) : Same P m m := ⟨fun _ _ => rfl, rfl, rfl, rfl, rfl⟩

theorem Same.trans {m'' : Mem} (h : Same P m m') (h' : Same P' m' m'') :
    Same (fun f => P f ∧ P' f) m m'' where
  bytes := fun f hf => (h'.bytes f hf.2).trans (h.bytes f hf.1)
  fails := h'.fails.trans h.fails
  null := h'.null.trans h.null
  nulls := h'.nulls.trans h.nulls
  loaded := h'.loaded.trans h.loaded

theorem Same.mono (h : Same P m m') (hle : ∀ f, P' f → P f) : Same P' m m' :=
  { h with bytes := fun f hf => h.bytes f (hle f hf) }

namespace Owns

theorem le_all (h : Owns A m own) : own ≤ A.all := by
  obtain ⟨free, -, heq⟩ := h
  rw [← heq]
  exact le_add_left _ _

theorem nodup (h : Owns A m own) : own.Nodup := nodup_of_le h.le_all A.nodup

theorem range (h : Owns A m own) (hf : f ∈ own) : L.kend ≤ f ∧ f < PHYSTOP / PGSIZE :=
  A.range f (mem_of_le h.le_all hf)

theorem congr {own' : Multiset Nat} (h : Owns A m own) (heq : own' = own) : Owns A m own' :=
  heq ▸ h

theorem next_setPage {g : Nat} (hne : g ≠ f) {p : Nat → UInt8} :
    (m.setPage f p).next g = m.next g := by
  have hbytes : (m.setPage f p).bytes g = m.bytes g := update_of_ne hne _ _
  unfold Mem.next
  rw [hbytes]

theorem setPage (h : Owns A m own) (hf : f ∈ own) (p : Nat → UInt8) :
    Owns A (m.setPage f p) own := by
  obtain ⟨free, hchain, heq⟩ := h
  refine ⟨free, hchain.congr ?_, heq⟩
  intro g hg
  have hne : g ≠ f := by
    rintro rfl
    have hdisj := (nodup_add.mp (heq ▸ A.nodup)).2.2
    exact disjoint_left.mp hdisj (mem_coe.mpr hg) hf
  exact next_setPage hne

theorem ghost (h : Owns A m own) (hbytes : m'.bytes = m.bytes)
    (hlist : m'.freelist = m.freelist) : Owns A m' own := by
  obtain ⟨free, hchain, heq⟩ := h
  refine ⟨free, ?_, heq⟩
  have hnext : m'.next = m.next := by
    funext g
    unfold Mem.next
    rw [hbytes]
  rw [hnext, hlist]
  exact hchain

end Owns

theorem word_storeWord (p : Nat → UInt8) {w : Nat} (hw : w < 2 ^ 32) :
    word (storeWord p w) 0 = w := by
  simp only [word, storeWord, UInt8.toNat_ofNat']
  omega

theorem ofRunPtr_runPtr {head : Option Nat} (h : ∀ f, head = some f → f < PHYSTOP / PGSIZE) :
    ofRunPtr (runPtr head) = head ∧ runPtr head < 2 ^ 32 := by
  cases head with
  | none => exact ⟨rfl, by decide⟩
  | some f =>
    have hf : f < 57344 := h f rfl
    have hptr : runPtr (some f) = 2147483648 + f * 4096 := rfl
    rw [ofRunPtr, hptr, if_neg (by omega)]
    refine ⟨congrArg some ?_, by omega⟩
    simp only [KERNBASE, PGSIZE]
    omega

theorem wp_kalloc (h : Owns A m own) : wp E kalloc (fun r m' =>
    Same (fun f => f ∈ own) m m' ∧ (r = none → Owns A m' own) ∧
    (∀ f, r = some f → Owns A m' (f ::ₘ own)) ∧
    ((∀ k, m.fails k = false) → own.card < A.all.card → r ≠ none)) m := by
  have hcalls : Same (fun f => f ∈ own) m { m with calls := m.calls + 1 } :=
    ⟨fun _ _ => rfl, rfl, rfl, rfl, rfl⟩
  have howns : Owns A { m with calls := m.calls + 1 } own := h.ghost rfl rfl
  unfold kalloc
  rw [wp_bind, wp_get, wp_bind, wp_modify]
  split_ifs with hfail
  · rw [wp_pure]
    refine ⟨hcalls, fun _ => howns, by simp, ?_⟩
    intro hnever
    rw [hnever] at hfail
    cases hfail
  obtain ⟨free, hchain, heq⟩ := h
  split
  · rename_i hlist
    rw [wp_pure]
    refine ⟨hcalls, fun _ => howns, by simp, ?_⟩
    intro _ hroom
    rw [hlist] at hchain
    rw [hchain.eq_nil] at heq
    rw [← heq] at hroom
    simp at hroom
  · rename_i f hlist
    rw [wp_bind, wp_modify, wp_pure]
    refine ⟨⟨fun _ _ => rfl, rfl, rfl, rfl, rfl⟩, by simp, ?_, by simp⟩
    intro f' hf'
    cases hf'
    rw [hlist] at hchain
    obtain ⟨free', rfl, hrest⟩ := hchain.pop
    refine ⟨free', hrest, ?_⟩
    rw [← heq, ← cons_coe, cons_add, add_cons]

theorem wp_kfree (h : Owns A m (f ::ₘ own)) : wp E (kfree L f) (fun _ m' =>
    Same (fun g => g ∈ own) m m' ∧ Owns A m' own) m := by
  have hrange := h.range (mem_cons_self f own)
  unfold kfree
  rw [if_neg (show ¬ (f < L.kend ∨ PHYSTOP / PGSIZE ≤ f) by omega), wp_modify]
  obtain ⟨free, hchain, heq⟩ := h
  have hnodup := nodup_add.mp (heq ▸ A.nodup)
  have hown : f ∉ own := (nodup_cons.mp hnodup.2.1).1
  have hfree : f ∉ free := fun hf =>
    disjoint_left.mp hnodup.2.2 (mem_coe.mpr hf) (mem_cons_self f own)
  refine ⟨⟨?_, rfl, rfl, rfl, rfl⟩, f :: free, ?_, ?_⟩
  · intro g hg
    apply update_of_ne
    rintro rfl
    exact hown hg
  · -- the head of the old list is a page of `A`, so its address fits in a word
    have hhead : ∀ g, m.freelist = some g → g < PHYSTOP / PGSIZE := by
      intro g hg
      rw [hg] at hchain
      obtain ⟨free', rfl, -⟩ := hchain.pop
      refine (A.range g ?_).2
      rw [← heq]
      simp
    obtain ⟨hptr, hlt⟩ := ofRunPtr_runPtr hhead
    apply hchain.push hfree
    · have hbytes : (m.setPage f (storeWord (fun _ => 1) (runPtr m.freelist))).bytes f =
          storeWord (fun _ => 1) (runPtr m.freelist) := update_self ..
      change ofRunPtr (word ((m.setPage f _).bytes f) 0) = _
      rw [hbytes, word_storeWord _ hlt, hptr]
    · intro g hg
      exact Owns.next_setPage hg
  · rw [← heq, ← cons_coe, cons_add, add_cons]

theorem wp_freerange {lo hi : Nat}
    (h : Owns A m (((List.range' lo (hi - lo) : List Nat) : Multiset Nat) + own)) :
    wp E (freerange L lo hi) (fun _ m' => Same (fun g => g ∈ own) m m' ∧ Owns A m' own) m := by
  unfold freerange
  generalize hi - lo = k at h ⊢
  induction k generalizing lo m with
  | zero =>
    rw [freeLoop, wp_pure]
    exact ⟨.refl _ m, by simpa using h⟩
  | succ k ih =>
    rw [List.range'_succ, ← cons_coe, cons_add] at h
    rw [freeLoop]
    refine wp_seq (wp_kfree h) ?_
    rintro - m1 ⟨hsame1, howns1⟩
    refine wp_mono (ih howns1) ?_
    rintro - m' ⟨hsame, howns⟩
    refine ⟨(hsame1.trans hsame).mono ?_, howns⟩
    intro g hg
    exact ⟨mem_add.mpr (Or.inr hg), hg⟩

theorem exists_booted (L : Layout) (m : Mem) (hm : m.freelist = none) :
    ∃ m', Owns (bootPages L) m' 0 ∧ m'.fails = m.fails ∧ m'.nulls = m.nulls := by
  have howns : Owns (bootPages L) m
      (((List.range' L.kend (PHYSTOP / PGSIZE - L.kend) : List Nat) : Multiset Nat) + 0) := by
    unfold bootPages
    exact ⟨[], by rw [hm]; trivial, by simp⟩
  obtain ⟨-, m', -, hsame, howns'⟩ := wp_returns (wp_freerange howns)
  exact ⟨m', howns', hsame.fails, hsame.nulls⟩

theorem card_bootPages (L : Layout) : (bootPages L).all.card = PHYSTOP / PGSIZE - L.kend := by
  unfold bootPages
  simp

theorem wp_fillPage (h : Owns A m own) (hf : f ∈ own) {p : Nat → UInt8} :
    wp E (fillPage f p) (fun _ m' => Same (fun g => g ≠ f) m m' ∧ Owns A m' own ∧
      m'.bytes f = p) m := by
  unfold fillPage
  rw [wp_modify]
  refine ⟨⟨?_, rfl, rfl, rfl, rfl⟩, h.setPage hf p, update_self ..⟩
  intro g hg
  exact update_of_ne hg _ _

end Allocator

namespace Pgdir

variable {d : Pgdir} {n k i : Nat} {f : Nat} {x : Pte}

def HasTable (d : Pgdir) (i : Nat) : Prop := d.table i ≠ none

def tables (d : Pgdir) : Multiset Nat :=
  gather NPTENTRIES fun i => (d.table i).map PageTable.frame

def users (d : Pgdir) : Multiset Nat :=
  gather (KERNBASE / PGSIZE) fun n => (d.pte n).map Pte.frame

def frames (d : Pgdir) : Multiset Nat := d.frame ::ₘ (d.tables + d.users)

theorem hasTable_of_pte (h : d.pte n = some x) : d.HasTable (n / NPTENTRIES) := by
  intro hnone
  simp [pte, hnone] at h

theorem pte_addTable (hi : d.table i = none) : (d.addTable i f).pte = d.pte := by
  funext k
  unfold pte addTable
  simp only
  by_cases hk : k / NPTENTRIES = i
  · rw [hk, update_self, hi]
    rfl
  · rw [update_of_ne hk]

theorem hasTable_addTable : (d.addTable i f).HasTable k ↔ d.HasTable k ∨ k = i := by
  unfold HasTable addTable
  simp only
  by_cases hk : k = i
  · subst hk
    simp
  · simp [hk]

theorem table_setPte : ((d.setPte n y).table i).map PageTable.frame =
    (d.table i).map PageTable.frame := by
  unfold setPte
  cases ht : d.table (n / NPTENTRIES) with
  | none => rfl
  | some t =>
    simp only
    by_cases hi : i = n / NPTENTRIES
    · subst hi
      rw [update_self, ht]
      rfl
    · rw [update_of_ne hi]

theorem hasTable_setPte : (d.setPte n y).HasTable i ↔ d.HasTable i := by
  have h := table_setPte (d := d) (n := n) (i := i) (y := y)
  unfold HasTable
  cases h1 : (d.setPte n y).table i <;> cases h2 : d.table i <;> simp_all

theorem pte_setPte (hn : d.HasTable (n / NPTENTRIES)) : (d.setPte n y).pte = update d.pte n y := by
  obtain ⟨t, ht⟩ := Option.ne_none_iff_exists'.mp hn
  funext k
  unfold setPte
  rw [ht]
  unfold pte
  simp only
  by_cases hk : k / NPTENTRIES = n / NPTENTRIES
  · rw [hk, update_self]
    by_cases hkn : k = n
    · subst hkn
      simp
    · have hmod : k % NPTENTRIES ≠ n % NPTENTRIES := by
        intro hmod
        apply hkn
        rw [← Nat.div_add_mod k NPTENTRIES, ← Nat.div_add_mod n NPTENTRIES, hk, hmod]
      simp only [Option.bind_some, update_of_ne hmod, update_of_ne hkn]
      rw [hk, ht]
      rfl
  · have hkn : k ≠ n := by
      rintro rfl
      exact hk rfl
    rw [update_of_ne hk, update_of_ne hkn]

theorem frame_setPte : (d.setPte n y).frame = d.frame := by
  unfold setPte
  cases d.table (n / NPTENTRIES) <;> rfl

theorem tables_setPte : (d.setPte n y).tables = d.tables :=
  gather_congr fun _ _ => table_setPte

theorem users_setPte (hn : d.HasTable (n / NPTENTRIES)) :
    (d.setPte n y).users = gather (KERNBASE / PGSIZE)
      (update (fun n => (d.pte n).map Pte.frame) n (y.map Pte.frame)) := by
  unfold users
  rw [pte_setPte hn]
  apply gather_congr
  intro j _
  simp only [update_apply]
  split_ifs <;> rfl

theorem frames_addTable (hi : i < NPTENTRIES) (hnone : d.table i = none) :
    (d.addTable i f).frames = f ::ₘ d.frames := by
  have htables : (d.addTable i f).tables = f ::ₘ d.tables := by
    unfold tables
    rw [← gather_fill (g := fun i => (d.table i).map PageTable.frame) hi (by rw [hnone]; rfl)]
    apply gather_congr
    intro j _
    unfold addTable
    simp only [update_apply]
    split_ifs <;> rfl
  have husers : (d.addTable i f).users = d.users := by
    unfold users
    rw [pte_addTable hnone]
  have hframe : (d.addTable i f).frame = d.frame := rfl
  unfold frames
  rw [htables, husers, hframe, cons_add, cons_swap]

theorem frames_map (hn : n < KERNBASE / PGSIZE) (ht : d.HasTable (n / NPTENTRIES))
    (hnone : d.pte n = none) : (d.setPte n (some x)).frames = x.frame ::ₘ d.frames := by
  have husers : (d.setPte n (some x)).users = x.frame ::ₘ d.users := by
    rw [users_setPte ht]
    exact gather_fill hn (by rw [hnone]; rfl)
  unfold frames
  rw [husers, frame_setPte, tables_setPte, add_cons, cons_swap]

theorem frames_unmap (hn : n < KERNBASE / PGSIZE) (hx : d.pte n = some x) :
    d.frames = x.frame ::ₘ (d.setPte n none).frames := by
  have ht := hasTable_of_pte hx
  have husers : d.users = x.frame ::ₘ (d.setPte n none).users := by
    rw [users_setPte ht]
    exact gather_take hn (by rw [hx]; rfl)
  unfold frames
  rw [husers, frame_setPte, tables_setPte, add_cons, cons_swap]

theorem frames_setPte_same (ht : d.HasTable (n / NPTENTRIES))
    (hy : n < KERNBASE / PGSIZE → y.map Pte.frame = (d.pte n).map Pte.frame) :
    (d.setPte n y).frames = d.frames := by
  have husers : (d.setPte n y).users = d.users := by
    rw [users_setPte ht]
    apply gather_congr
    intro j hj
    by_cases hjn : j = n
    · subst hjn
      rw [update_self, hy hj]
    · rw [update_of_ne hjn]
  unfold frames
  rw [husers, frame_setPte, tables_setPte]

theorem frames_new (f : Nat) : (new f).frames = {f} := by
  have htables : (new f).tables = 0 := by
    unfold tables
    exact gather_none fun _ _ => rfl
  have husers : (new f).users = 0 := by
    unfold users
    exact gather_none fun _ _ => rfl
  rw [frames, htables, husers]
  rfl

theorem frame_mem_frames (hn : n < KERNBASE / PGSIZE) (hx : d.pte n = some x) :
    x.frame ∈ d.frames := by
  rw [frames_unmap hn hx]
  exact mem_cons_self _ _

theorem card_frames_le : d.frames.card ≤ d.users.card + 1025 := by
  have htables : d.tables.card ≤ 1024 := card_gather_le (n := NPTENTRIES)
  have hcard : d.frames.card = d.tables.card + d.users.card + 1 := by
    rw [frames, card_cons, card_add]
  omega

theorem exists_missing {L : Layout} {A : Pages L} {m : Mem} {rest : Multiset Nat}
    (h : Owns A m (d.frames + rest)) : ∃ j, j < KERNBASE / PGSIZE ∧ d.pte j = none := by
  by_contra hmissing
  have hcard : d.users.card = KERNBASE / PGSIZE := card_gather_full fun j hj hnone =>
    hmissing ⟨j, hj, Option.map_eq_none_iff.mp hnone⟩
  have husers : d.users ≤ A.all := by
    refine le_trans ?_ h.le_all
    exact le_trans (le_add_left _ _) (le_trans (le_cons_self _ _) (le_add_right _ _))
  have hall : A.all ≤ range (PHYSTOP / PGSIZE) := by
    rw [le_iff_subset A.nodup]
    exact fun f hf => mem_range.mpr (A.range f hf).2
  have hle := card_le_card (husers.trans hall)
  rw [hcard, card_range] at hle
  revert hle
  decide

theorem card_users_le (hi : Nat) (h : ∀ j, hi ≤ j → j < KERNBASE / PGSIZE → d.pte j = none) :
    d.users.card ≤ hi := by
  have hsame : d.users = gather hi fun n =>
      if n < KERNBASE / PGSIZE then (d.pte n).map Pte.frame else none := by
    unfold users
    exact gather_resize (fun j hj => by rw [if_pos hj]) (fun j hj hlt => by rw [h j hj hlt]; rfl)
      fun j hj => if_neg (by omega)
  rw [hsame]
  exact card_gather_le

end Pgdir

end Xv6.Vm
