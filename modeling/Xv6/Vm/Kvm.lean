import Xv6.Vm.Spaces

/-!
# The kernel part of an address space

`setupkvm` maps the ranges of `kmap` in ascending order, none of them for the user, or it
gives back every page it has taken.
-/

namespace Xv6.Vm

open Lib Lib.Act List

variable {L : Layout} {A : Pages L} {E : String → Prop} {m : Mem} {rest : Multiset Nat}
  {d : Pgdir}

/-- The entries of a directory after kernel pages have been put between `lo` and `hi`. -/
structure KernelMap (lo hi : Nat) (d d' : Pgdir) : Prop where
  pte : ∀ j, d'.pte j = d.pte j ∨ lo ≤ j ∧ j < hi ∧ ∃ x, d'.pte j = some x ∧ x.user = false
  mono : ∀ i, d.HasTable i → d'.HasTable i
  bound : ∀ i, d'.HasTable i → d.HasTable i ∨ lo / NPTENTRIES ≤ i ∧ i * NPTENTRIES < hi

theorem KernelMap.refl (lo hi : Nat) (d : Pgdir) : KernelMap lo hi d d :=
  ⟨fun _ => Or.inl rfl, fun _ => id, fun _ => Or.inl⟩

theorem KernelMap.page {n hi : Nat} {d' : Pgdir} {x : Pte} (hhi : n < hi) (hx : x.user = false)
    (hpte : d'.pte = Function.update d.pte n (some x))
    (htables : ∀ i, d'.HasTable i ↔ d.HasTable i ∨ i = n / NPTENTRIES) :
    KernelMap n hi d d' where
  pte := by
    intro j
    rw [hpte]
    by_cases hj : j = n
    · subst hj
      exact Or.inr ⟨le_rfl, hhi, x, by simp, hx⟩
    · left
      rw [Function.update_of_ne hj]
  mono := fun i hi => (htables i).mpr (Or.inl hi)
  bound := by
    intro i hi
    rcases (htables i).mp hi with hi | rfl
    · exact Or.inl hi
    · right
      simp only [NPTENTRIES]
      omega

theorem KernelMap.trans {lo mid hi : Nat} {d1 d2 : Pgdir} (h : KernelMap lo hi d d1)
    (h' : KernelMap mid hi d1 d2) (hle : lo ≤ mid) : KernelMap lo hi d d2 where
  pte := by
    intro j
    rcases h'.pte j with hj | ⟨hlo, hhi, hx⟩
    · rw [hj]
      exact h.pte j
    · exact Or.inr ⟨hle.trans hlo, hhi, hx⟩
  mono := fun i hi => h'.mono i (h.mono i hi)
  bound := by
    intro i hi
    rcases h'.bound i hi with hi | ⟨hlo, hhi⟩
    · exact h.bound i hi
    · exact Or.inr ⟨(Nat.div_le_div_right hle).trans hlo, hhi⟩

theorem wp_mapKernel {n f : Nat} (h : Owns A m (d.frames + rest)) (hn : KERNBASE / PGSIZE ≤ n)
    (hn' : n / NPTENTRIES < NPTENTRIES) (hfresh : d.pte n = none) {w : Bool} :
    wp E (mapPage d n ⟨f, w, false⟩) (fun r m' => Same (fun g => g ∈ d.frames + rest) m m' ∧
      Owns A m' (r.2.frames + rest) ∧ d.frames ≤ r.2.frames ∧ KernelMap n (n + 1) d r.2 ∧
      (r.1 = true → r.2.HasTable (n / NPTENTRIES)) ∧
      ((∀ k, m.fails k = false) → (d.frames + rest).card < A.all.card → r.1 = true)) m := by
  have hhold : hold n f = 0 := if_neg (by omega)
  have h' : Owns A m (hold n f + (d.frames + rest)) := by
    rw [hhold, zero_add]
    exact h
  have hmap := wp_mapPage (x := ⟨f, w, false⟩) h' hn' (Or.inl hfresh : _ ∨ E "remap")
  simp only [hhold, zero_add] at hmap
  refine wp_mono hmap ?_
  rintro ⟨ok, d'⟩ m' ⟨hsame, hno, hyes, hroom⟩
  refine ⟨hsame, ?_⟩
  cases ok with
  | false =>
    obtain ⟨hd, howns⟩ := hno rfl
    change d' = d at hd
    subst hd
    exact ⟨howns, le_rfl, .refl _ _ _, by simp, hroom⟩
  | true =>
    obtain ⟨howns, hle, hpte, -, htables⟩ := hyes rfl
    exact ⟨howns, hle, .page (Nat.lt_succ_self n) rfl hpte htables,
      fun _ => (htables _).mpr (Or.inr rfl), hroom⟩

theorem card_frames_of_low (h : ∀ j, j < KERNBASE / PGSIZE → d.pte j = none) :
    d.frames.card ≤ 1025 := by
  have husers := Pgdir.card_users_le (d := d) 0 fun j _ hj => h j hj
  have hframes := d.card_frames_le
  omega

theorem wp_mapLoop {k n f : Nat} (h : Owns A m (d.frames + rest)) (hn : KERNBASE / PGSIZE ≤ n)
    (hend : n + k < 1048576) (hfresh : ∀ j, n ≤ j → j ≤ n + k → d.pte j = none) {w : Bool} :
    wp E (mapLoop w false k n f d) (fun r m' => Same (fun g => g ∈ d.frames + rest) m m' ∧
      Owns A m' (r.2.frames + rest) ∧ d.frames ≤ r.2.frames ∧ KernelMap n (n + k + 1) d r.2 ∧
      (r.1 = true → ∀ i, n / NPTENTRIES ≤ i → i * NPTENTRIES ≤ n + k → r.2.HasTable i) ∧
      ((∀ k, m.fails k = false) → (∀ j, j < KERNBASE / PGSIZE → d.pte j = none) →
        1026 + rest.card < A.all.card → r.1 = true)) m := by
  have hroom : ∀ e : Pgdir, (∀ j, j < KERNBASE / PGSIZE → e.pte j = none) →
      1026 + rest.card < A.all.card → (e.frames + rest).card < A.all.card := by
    intro e he hcard
    have := card_frames_of_low he
    rw [Multiset.card_add]
    omega
  induction k generalizing n f d m with
  | zero =>
    rw [mapLoop]
    refine wp_mono (wp_mapKernel h hn (by simp only [NPTENTRIES]; omega)
      (hfresh n le_rfl (by omega))) ?_
    rintro r m' ⟨hsame, howns, hle, hmap, htable, hgive⟩
    refine ⟨hsame, howns, hle, hmap, ?_, fun h1 h2 h3 => hgive h1 (hroom d h2 h3)⟩
    intro hok i hlo hhi
    have hi : i = n / NPTENTRIES := by
      simp only [NPTENTRIES] at *
      omega
    rw [hi]
    exact htable hok
  | succ k ih =>
    rw [mapLoop]
    refine wp_seq (wp_mapKernel h hn (by simp only [NPTENTRIES]; omega)
      (hfresh n le_rfl (by omega))) ?_
    rintro ⟨ok, d1⟩ m1 ⟨hsame1, howns1, hle1, hmap1, htable1, hgive1⟩
    have hwide : KernelMap n (n + (k + 1) + 1) d d1 :=
      { hmap1 with
        pte := fun j => (hmap1.pte j).imp_right fun h => ⟨h.1, by omega, h.2.2⟩
        bound := fun i hi => (hmap1.bound i hi).imp_right fun h => ⟨h.1, by omega⟩ }
    cases ok with
    | false =>
      simp only [Bool.false_eq_true, if_false]
      rw [wp_pure]
      refine ⟨hsame1, howns1, hle1, hwide, by simp, ?_⟩
      exact fun h1 h2 h3 => hgive1 h1 (hroom d h2 h3)
    | true =>
      simp only [if_true]
      rw [Nat.mod_eq_of_lt (show n + 1 < 2 ^ 20 by omega)]
      have hsame_pte : ∀ j, j ≠ n → d1.pte j = d.pte j := by
        intro j hj
        rcases hmap1.pte j with heq | ⟨h1, h2, -⟩
        · exact heq
        · omega
      refine wp_mono (ih howns1 (by omega) (by omega) ?_) ?_
      · intro j hlo hhi
        rw [hsame_pte j (by omega)]
        exact hfresh j (by omega) (by omega)
      · rintro ⟨ok, d2⟩ m' ⟨hsame, howns, hle, hmap, htables, hgive⟩
        have heq : n + 1 + k = n + (k + 1) := by omega
        rw [heq] at hmap htables
        refine ⟨?_, howns, hle1.trans hle, hwide.trans hmap (by omega), ?_, ?_⟩
        · exact (hsame1.trans hsame).mono fun g hg =>
            ⟨hg, Multiset.mem_of_le (add_le_add hle1 le_rfl) hg⟩
        · intro hok i hlo hhi
          by_cases hi : i = n / NPTENTRIES
          · rw [hi]
            exact hmap.mono _ (htable1 rfl)
          · refine htables hok i ?_ hhi
            simp only [NPTENTRIES] at *
            omega
        · intro h1 h2 h3
          refine hgive ?_ ?_ h3
          · rw [hsame1.fails]
            exact h1
          · intro j hj
            rw [hsame_pte j (by omega)]
            exact h2 j hj

namespace Kmap

@[irreducible]
def lo (k : Kmap) : Nat := k.virt / PGSIZE

@[irreducible]
def hi (k : Kmap) : Nat := (k.virt + k.size - 1) % 2 ^ 32 / PGSIZE + 1

def range (k : Kmap) : Nat × Nat := (k.lo, k.hi)

end Kmap

/-- The ranges lie above `c`, one after the other. -/
def Ascend : Nat → List (Nat × Nat) → Prop
  | _, [] => True
  | c, r :: rs => c ≤ r.1 ∧ r.1 < r.2 ∧ r.2 ≤ 1048576 ∧ Ascend r.2 rs

/-- The page table `i` holds a page of one of the ranges. -/
def InRange (rs : List (Nat × Nat)) (i : Nat) : Prop :=
  ∃ r ∈ rs, r.1 / NPTENTRIES ≤ i ∧ i * NPTENTRIES < r.2

theorem Layout.bounds (L : Layout) : 256 < L.data ∧ L.data ≤ L.kend ∧ L.kend < 57344 :=
  ⟨L.text_lt_data, L.data_le_kend, L.kend_lt_top⟩

theorem kmap_range (L : Layout) : (kmap L).map Kmap.range =
    [(524288, 524544), (524544, 524288 + L.data), (524288 + L.data, 581632),
      (1040384, 1048576)] := by
  obtain ⟨htext, hle, htop⟩ := L.bounds
  simp only [kmap, map_cons, map_nil, Kmap.range, Kmap.lo, Kmap.hi, Kmap.size, KERNLINK, KERNBASE,
    EXTMEM, PHYSTOP, DEVSPACE, PGSIZE, List.cons.injEq, Prod.mk.injEq, and_true]
  refine ⟨⟨trivial, ?_⟩, ⟨trivial, ?_⟩, ⟨?_, ?_⟩, trivial, ?_⟩ <;> omega

theorem kmap_ascend (L : Layout) : Ascend (KERNBASE / PGSIZE) ((kmap L).map Kmap.range) := by
  obtain ⟨htext, hle, htop⟩ := L.bounds
  rw [kmap_range]
  simp only [Ascend, KERNBASE, PGSIZE, and_true]
  omega

theorem inRange_kmap (L : Layout) (i : Nat) : InRange ((kmap L).map Kmap.range) i ↔
    512 ≤ i ∧ i < 568 ∨ 1016 ≤ i ∧ i < 1024 := by
  obtain ⟨htext, hle, htop⟩ := L.bounds
  rw [kmap_range]
  simp only [InRange, mem_cons, not_mem_nil, or_false, exists_eq_or_imp, exists_eq_left, NPTENTRIES]
  omega

/-- The entries of a directory in which only the ranges `ks` are mapped, all for the kernel. -/
structure KernelOnly (c : Nat) (ks : List Kmap) (d d' : Pgdir) : Prop where
  pte : ∀ j, d'.pte j = d.pte j ∨ c ≤ j ∧ ∃ x, d'.pte j = some x ∧ x.user = false
  tables : ∀ i, d'.HasTable i ↔ d.HasTable i ∨ InRange (ks.map Kmap.range) i

theorem wp_setupLoop {c : Nat} {ks : List Kmap} (h : Owns A m (d.frames + rest))
    (hc : KERNBASE / PGSIZE ≤ c) (hks : Ascend c (ks.map Kmap.range))
    (hfresh : ∀ j, c ≤ j → d.pte j = none) :
    wp E (setupLoop L ks d) (fun r m' => Same (fun g => g ∈ rest) m m' ∧
      (r = none → Owns A m' rest) ∧
      (∀ d', r = some d' → Owns A m' (d'.frames + rest) ∧ KernelOnly c ks d d') ∧
      ((∀ k, m.fails k = false) → (∀ j, j < KERNBASE / PGSIZE → d.pte j = none) →
        1026 + rest.card < A.all.card → r ≠ none)) m := by
  induction ks generalizing c d m with
  | nil =>
    rw [setupLoop, wp_pure]
    refine ⟨.refl _ _, by simp, ?_, by simp⟩
    intro d' hd'
    cases hd'
    refine ⟨h, fun _ => Or.inl rfl, fun i => ⟨Or.inl, ?_⟩⟩
    rintro (hi | ⟨r, hr, -⟩)
    · exact hi
    · cases hr
  | cons k ks ih =>
    obtain ⟨hlo, hlt, hhi, hks⟩ := hks
    change c ≤ k.lo at hlo
    change k.lo < k.hi at hlt
    change k.hi ≤ 1048576 at hhi
    change Ascend k.hi (ks.map Kmap.range) at hks
    have hstep : mappages d k.virt k.size k.physStart k.writable false =
        mapLoop k.writable false (k.hi - 1 - k.lo) k.lo (k.physStart / PGSIZE) d := by
      have hcount : ((((k.hi - 1 : Nat) : Int) - k.lo) % 2 ^ 20).toNat = k.hi - 1 - k.lo := by omega
      rw [← hcount]
      unfold mappages Kmap.hi Kmap.lo
      rw [Nat.add_sub_cancel]
    have hend : k.lo + (k.hi - 1 - k.lo) + 1 = k.hi := by omega
    rw [setupLoop, hstep]
    refine wp_seq (wp_mapLoop h (by omega) (by omega) fun j hj _ => hfresh j (by omega)) ?_
    rintro ⟨ok, d1⟩ m1 ⟨hsame1, howns1, -, hmap1, htables1, hgive1⟩
    rw [hend] at hmap1
    have hsame : Same (fun g => g ∈ rest) m m1 :=
      hsame1.mono fun g hg => Multiset.mem_add.mpr (Or.inr hg)
    cases ok with
    | false =>
      simp only [Bool.false_eq_true, if_false]
      refine wp_seq (wp_freevm howns1) ?_
      rintro - m' ⟨hsame', howns'⟩
      rw [wp_pure]
      refine ⟨(hsame.trans hsame').mono fun g hg => ⟨hg, hg⟩, fun _ => howns', by simp, ?_⟩
      intro h1 h2 h3
      cases hgive1 h1 h2 h3
    | true =>
      simp only [if_true]
      have hpte : ∀ j, k.hi ≤ j ∨ j < c → d1.pte j = d.pte j := by
        intro j hj
        rcases hmap1.pte j with heq | ⟨h1, h2, -⟩
        · exact heq
        · omega
      refine wp_mono (ih howns1 (by omega) hks ?_) ?_
      · intro j hj
        rw [hpte j (Or.inl hj)]
        exact hfresh j (by omega)
      · rintro r m' ⟨hsame', hnone, hsome, hgive⟩
        refine ⟨(hsame.trans hsame').mono fun g hg => ⟨hg, hg⟩, hnone, ?_, ?_⟩
        · intro d' hd'
          obtain ⟨howns', hpte', htables'⟩ := hsome d' hd'
          refine ⟨howns', ?_, ?_⟩
          · intro j
            rcases hpte' j with heq | ⟨hj, hx⟩
            · rw [heq]
              exact (hmap1.pte j).imp_right fun ⟨h1, _, h3⟩ => ⟨by omega, h3⟩
            · exact Or.inr ⟨by omega, hx⟩
          · intro i
            rw [htables']
            constructor
            · rintro (hi | ⟨r, hr, hi⟩)
              · rcases hmap1.bound i hi with hi | hi
                · exact Or.inl hi
                · exact Or.inr ⟨k.range, mem_cons_self, hi⟩
              · exact Or.inr ⟨r, mem_cons_of_mem _ hr, hi⟩
            · rintro (hi | ⟨r, hr, hi⟩)
              · exact Or.inl (hmap1.mono i hi)
              · rcases mem_cons.mp hr with rfl | hr
                · have hlast : i * NPTENTRIES < k.hi := hi.2
                  exact Or.inl (htables1 rfl i hi.1 (by omega))
                · exact Or.inr ⟨r, hr, hi⟩
        · intro h1 h2 h3
          refine hgive ?_ ?_ h3
          · rw [hsame1.fails]
            exact h1
          · intro j hj
            rw [hpte j (Or.inr (by omega))]
            exact h2 j hj

/-- A directory as `setupkvm` returns it: no user pages, the kernel's pages not for the
user, and page tables for them only. -/
structure KernelSpace (d : Pgdir) : Prop where
  low : ∀ j, j < KERNBASE / PGSIZE → d.pte j = none
  kernel : ∀ j x, d.pte j = some x → x.user = false
  tables : ∀ i, d.HasTable i ↔ 512 ≤ i ∧ i < 568 ∨ 1016 ≤ i ∧ i < 1024

theorem wp_setupkvm (h : Owns A m rest) :
    wp E (setupkvm L) (fun r m' => Same (fun g => g ∈ rest) m m' ∧ (r = none → Owns A m' rest) ∧
      (∀ d', r = some d' → Owns A m' (d'.frames + rest) ∧ KernelSpace d') ∧
      ((∀ k, m.fails k = false) → 1026 + rest.card < A.all.card → r ≠ none)) m := by
  unfold setupkvm
  refine wp_seq (wp_kalloc h) ?_
  rintro r m1 ⟨hsame1, hfail, hgive, hroom⟩
  cases r with
  | none =>
    rw [wp_pure]
    refine ⟨hsame1, fun _ => hfail rfl, by simp, ?_⟩
    intro h1 h2
    exact absurd rfl (hroom h1 (by omega))
  | some f =>
    have howns1 : Owns A m1 ((Pgdir.new f).frames + rest) := by
      rw [Pgdir.frames_new, Multiset.singleton_add]
      exact hgive f rfl
    have hempty : ∀ j, (Pgdir.new f).pte j = none := fun _ => rfl
    refine wp_mono (wp_setupLoop howns1 le_rfl (kmap_ascend L) fun j _ => hempty j) ?_
    rintro r m' ⟨hsame, hnone, hsome, hgive'⟩
    refine ⟨(hsame1.trans hsame).mono fun g hg => ⟨hg, hg⟩, hnone, ?_, ?_⟩
    · intro d' hd'
      obtain ⟨howns', hpte, htables⟩ := hsome d' hd'
      refine ⟨howns', ?_, ?_, ?_⟩
      · intro j hj
        rcases hpte j with heq | ⟨hle, -⟩
        · rw [heq, hempty]
        · omega
      · intro j x hx
        rcases hpte j with heq | ⟨-, y, hy, huser⟩
        · rw [heq, hempty] at hx
          cases hx
        · rw [hy] at hx
          cases hx
          exact huser
      · intro i
        rw [htables, inRange_kmap]
        have hnot : ¬ (Pgdir.new f).HasTable i := fun hi => hi rfl
        simp [hnot]
    · intro h1 h2
      refine hgive' ?_ (fun j _ => hempty j) h2
      rw [hsame1.fails]
      exact h1

end Xv6.Vm
