import Xv6.Vm.Spaces

/-!
# `sbrk`

For which arguments `sbrk` changes the size of a process by exactly `n` or does nothing.
`deallocuvm` returns the new size, which `growproc` takes for a failure if it is 0; and a
size below 0 wraps, so that nothing is freed and the old size is returned as a success.
-/

namespace Xv6.Vm

open Lib Lib.Act Multiset

def Space.Full (p : Space) : Prop :=
  p.sz < KERNBASE ∧ ∀ j, j < KERNBASE / PGSIZE → ((p.pgdir.pte j).isSome ↔ j < pageUp p.sz)

def Kept (m : Mem) (p : Space) (m' : Mem) (p' : Space) (j : Nat) : Prop :=
  p'.pgdir.pte j = p.pgdir.pte j ∧
    ∀ x, p.pgdir.pte j = some x → m'.bytes x.frame = m.bytes x.frame

/-- `sbrk(n)` grew or shrank the process by `n`, or failed and did nothing. -/
def Exact (m : Mem) (p : Space) (n r : Int) (m' : Mem) (p' : Space) : Prop :=
  (r = p.sz ∧ (p'.sz : Int) = p.sz + n ∧ p'.Full ∧
    ∀ j, j * PGSIZE < min p.sz p'.sz → Kept m p m' p' j) ∨
  (r = -1 ∧ p'.sz = p.sz ∧ ∀ j, j < KERNBASE / PGSIZE → Kept m p m' p' j)

variable {L : Layout} {A : Pages L} {m : Mem} {rest : Multiset Nat} {p : Space} {n : Int}

variable {sz j : Nat}

theorem lt_top_of_lt_pageUp (hsz : sz ≤ KERNBASE) (hj : j < pageUp sz) : j < KERNBASE / PGSIZE := by
  have hlt := (lt_pageUp hsz).mp hj
  simp only [PGSIZE, KERNBASE] at *
  omega

theorem Space.Full.fresh (h : p.Full) (hlo : pageUp p.sz ≤ j)
    (hj : j < KERNBASE / PGSIZE) : p.pgdir.pte j = none := by
  have hiff := h.2 j hj
  cases hx : p.pgdir.pte j with
  | none => rfl
  | some x =>
    rw [hx] at hiff
    have := hiff.mp rfl
    omega

theorem Kept.of_same {m' : Mem} {d' : Pgdir} {P : Nat → Prop} (hsame : Same P m m')
    (hj : j < KERNBASE / PGSIZE) (hpte : d'.pte j = p.pgdir.pte j)
    (hP : ∀ f ∈ p.pgdir.frames, f ∈ d'.frames → P f) : Kept m p m' ⟨d', sz⟩ j := by
  refine ⟨hpte, ?_⟩
  intro x hx
  apply hsame.bytes
  apply hP _ (Pgdir.frame_mem_frames hj hx)
  exact Pgdir.frame_mem_frames hj (hpte.trans hx)

section

variable (h : p.Full) (howns : Owns A m (p.pgdir.frames + rest))

include h howns

theorem wp_sbrk_grow (hn : 0 < n) (hhi : n < 2 ^ 31) :
    wp (fun _ => False) (sbrk L p n) (fun r m' => Exact m p n r.1 m' r.2) m := by
  have hsz := h.1
  have harg : ((p.sz + n) % 2 ^ 32).toNat = p.sz + n.toNat := by
    simp only [KERNBASE] at hsz
    omega
  unfold sbrk growproc
  simp only [harg]
  rw [if_pos (show n > 0 from hn)]
  by_cases hbig : KERNBASE ≤ p.sz + n.toNat
  · rw [allocuvm_big hbig, wp_bind, wp_bind, wp_pure]
    simp only [if_true]
    rw [wp_pure, wp_pure]
    exact Or.inr ⟨rfl, rfl, fun j _ => ⟨rfl, fun _ _ => rfl⟩⟩
  · have hnew : p.sz + n.toNat < KERNBASE := by omega
    have hfresh : ∀ j, pageUp p.sz ≤ j → j < pageUp (p.sz + n.toNat) →
        p.pgdir.pte j = none ∨ False :=
      fun j hlo hhi => Or.inl (h.fresh hlo (lt_top_of_lt_pageUp hnew.le hhi))
    rw [wp_bind, wp_bind]
    refine wp_mono (wp_allocuvm (E := fun _ => False) hnew (by omega) howns hfresh) ?_
    rintro ⟨sz, d'⟩ m' ⟨howns', hcases⟩
    rw [wp_pure]
    rcases hcases with ⟨hr, hgrows, hsame⟩ | ⟨hr, hrolled, hsame, -⟩
    · change sz = _ at hr
      have hne : sz ≠ 0 := by omega
      simp only [if_neg hne, if_true] at hgrows ⊢
      rw [wp_pure]
      refine Or.inl ⟨rfl, by simp only; omega, ⟨by simp only; omega, ?_⟩, ?_⟩
      · intro j hj
        by_cases hin : pageUp p.sz ≤ j ∧ j < pageUp (p.sz + n.toNat)
        · obtain ⟨x, hx, -⟩ := hgrows.present j hin.1 hin.2
          simp [hx, hr, hin.2]
        · have hmono : pageUp p.sz ≤ pageUp (p.sz + n.toNat) := by
            simp only [pageUp, PGSIZE, KERNBASE] at *
            omega
          rw [hgrows.pte j hin, h.2 j hj, hr]
          simp only
          omega
      · intro j hj
        have hjsz : j < pageUp p.sz := (lt_pageUp hsz.le).mpr (by simp only at hj; omega)
        refine Kept.of_same hsame (lt_top_of_lt_pageUp hsz.le hjsz) ?_ ?_
        · exact hgrows.pte j (by omega)
        · exact fun f hf _ => mem_add.mpr (Or.inl hf)
    · change sz = 0 at hr
      simp only [if_pos hr, Bool.false_eq_true, if_false] at hrolled ⊢
      rw [wp_pure]
      refine Or.inr ⟨rfl, rfl, ?_⟩
      intro j hj
      refine Kept.of_same hsame hj ?_ ?_
      · rw [hrolled.pte]
        split_ifs with hin
        · exact (h.fresh hin.1 hj).symm
        · rfl
      · exact fun f hf hf' => ⟨mem_add.mpr (Or.inl hf), mem_add.mpr (Or.inl hf')⟩

theorem wp_sbrk_shrink (hn : n < 0) (hsz : sz = ((p.sz + n) % 2 ^ 32).toNat) :
    wp (fun _ => False) (sbrk L p n) (fun r m' =>
      (∃ d', Shrinks (pageUp (min p.sz sz)) (pageUp p.sz) p.pgdir d' ∧
        Same (fun f => f ∈ d'.frames + rest) m m' ∧
        r = if min p.sz sz = 0 then (-1, ⟨d', p.sz⟩)
          else ((p.sz : Int), ⟨d', min p.sz sz⟩))) m := by
  unfold sbrk growproc
  simp only [← hsz]
  rw [if_neg (by omega), if_pos hn, wp_bind, wp_bind]
  refine wp_mono (wp_deallocuvm h.1.le howns) ?_
  rintro ⟨z, d'⟩ m' ⟨hz, hsame, -, hshrinks⟩
  change z = _ at hz
  rw [wp_pure]
  rw [wp_pure]
  refine ⟨d', hshrinks, hsame, ?_⟩
  by_cases hzero : min p.sz sz = 0
  · simp [hz, hzero]
  · simp [hz, hzero]

theorem wp_sbrk_shrink_exact (hn : n < 0) (hpos : 0 < (p.sz : Int) + n) :
    wp (fun _ => False) (sbrk L p n) (fun r m' => Exact m p n r.1 m' r.2) m := by
  have hsz := h.1
  obtain ⟨sz, harg⟩ : ∃ sz, sz = ((p.sz + n) % 2 ^ 32).toNat := ⟨_, rfl⟩
  have heq : (sz : Int) = p.sz + n := by
    simp only [KERNBASE] at hsz
    omega
  refine wp_mono (wp_sbrk_shrink h howns hn harg) ?_
  rintro r m' ⟨d', hshrinks, hsame, rfl⟩
  rw [min_eq_right (by omega)] at hshrinks ⊢
  rw [if_neg (by omega)]
  have hup : pageUp sz ≤ pageUp p.sz := by
    simp only [pageUp, PGSIZE, KERNBASE] at *
    omega
  refine Or.inl ⟨rfl, heq, ⟨by simp only; omega, ?_⟩, ?_⟩
  · intro j hj
    simp only
    rw [hshrinks.pte]
    split_ifs with hin
    · simp only [Option.isSome_none, Bool.false_eq_true, false_iff]
      omega
    · rw [h.2 j hj]
      omega
  · intro j hj
    have hjsz : j < pageUp sz := (lt_pageUp (by omega)).mpr (by simp only at hj; omega)
    refine Kept.of_same hsame (lt_top_of_lt_pageUp hsz.le (by omega)) ?_ ?_
    · rw [hshrinks.pte, if_neg (by omega)]
    · exact fun f _ hf => mem_add.mpr (Or.inl hf)

/-- To size 0 the pages are freed but the call fails; below 0 the call succeeds without
any change. -/
theorem not_exact_of_neg
    (hlo : -2 ^ 31 ≤ n) (hsz : 0 < p.sz) (hneg : (p.sz : Int) + n ≤ 0) {r : Int} {p' : Space}
    {m' : Mem} (hrun : sbrk L p n m = .ok (r, p') m') : ¬ Exact m p n r m' p' := by
  obtain ⟨sz, harg⟩ : ∃ sz, sz = ((p.sz + n) % 2 ^ 32).toNat := ⟨_, rfl⟩
  have hlt := h.1
  obtain ⟨d', hshrinks, -, heq⟩ := wp_ok (wp_sbrk_shrink h howns (by omega) harg) hrun
  by_cases hzero : (p.sz : Int) + n = 0
  · have hargz : sz = 0 := by
      rw [harg, hzero]
      rfl
    rw [hargz, Nat.min_zero] at hshrinks heq
    rw [if_pos rfl] at heq
    cases heq
    rintro (⟨hr, -⟩ | ⟨-, -, hkept⟩)
    · omega
    · -- page 0 was present
      have hup : 0 < pageUp p.sz := (lt_pageUp hlt.le).mpr (by rw [Nat.zero_mul]; exact hsz)
      have hlo : pageUp 0 ≤ 0 := Nat.le_refl 0
      have htop := lt_top_of_lt_pageUp hlt.le hup
      have hpage := (hkept 0 htop).1
      simp only at hpage
      rw [hshrinks.pte, if_pos ⟨hlo, hup⟩] at hpage
      have hsome := (h.2 0 htop).mpr hup
      rw [← hpage] at hsome
      cases hsome
  · have hmin : min p.sz sz = p.sz := by
      simp only [KERNBASE] at hlt
      omega
    rw [hmin, if_neg (by omega)] at heq
    cases heq
    rintro (⟨-, hnew, -⟩ | ⟨hr, -⟩)
    · simp only at hnew
      omega
    · omega

end

/-- For every process with the pages below its size, every 32-bit argument and every way
in which `kalloc` can fail. -/
theorem sbrk_exact_iff (h : p.Full) (howns : Owns A m (p.pgdir.frames + rest))
    (hlo : -2 ^ 31 ≤ n) (hhi : n < 2 ^ 31) :
    (∃ r p' m', sbrk L p n m = .ok (r, p') m' ∧ Exact m p n r m' p') ↔
      0 ≤ n ∨ 0 < (p.sz : Int) + n ∨ p.sz = 0 := by
  constructor
  · rintro ⟨r, p', m', hrun, hexact⟩
    by_contra hcon
    exact not_exact_of_neg h howns hlo (by omega) (by omega) hrun hexact
  · intro hcases
    have hwp : wp (fun _ => False) (sbrk L p n) (fun r m' => Exact m p n r.1 m' r.2) m := by
      rcases lt_trichotomy n 0 with hn | rfl | hn
      · by_cases hpos : 0 < (p.sz : Int) + n
        · exact wp_sbrk_shrink_exact h howns hn hpos
        · have hzero : p.sz = 0 := by omega
          refine wp_mono (wp_sbrk_shrink h howns hn rfl) ?_
          rintro r m' ⟨d', hshrinks, hsame, rfl⟩
          rw [hzero, Nat.zero_min] at hshrinks ⊢
          rw [if_pos rfl]
          refine Or.inr ⟨rfl, hzero.symm, ?_⟩
          intro j hj
          refine Kept.of_same hsame hj ?_ ?_
          · rw [hshrinks.pte, if_neg (by omega)]
          · exact fun f _ hf => mem_add.mpr (Or.inl hf)
      · unfold sbrk growproc
        simp only [lt_irrefl, if_false]
        rw [wp_bind, wp_pure]
        simp only [if_true]
        rw [wp_pure]
        exact Or.inl ⟨rfl, by simp, h, fun j _ => ⟨rfl, fun _ _ => rfl⟩⟩
      · exact wp_sbrk_grow h howns hn hhi
    obtain ⟨⟨r, p'⟩, m', hrun, hexact⟩ := wp_returns hwp
    exact ⟨r, p', m', hrun, hexact⟩

def someLayout : Layout := ⟨257, 258, by decide, by decide, by decide⟩

/-- One user page, in a directory in the frame `a` with a page table in `b`. -/
def onePageAt (a b f : Nat) : Space where
  pgdir := ((Pgdir.new a).addTable 0 b).setPte 0 (some ⟨f, true, true⟩)
  sz := 4096

abbrev onePage : Space := onePageAt 300 301 302

def fullMem : Mem := ⟨fun _ _ => 0, none, fun _ => false, 0, fun _ => none, [], []⟩

def threePages : Pages someLayout where
  all := {302, 301, 300}
  nodup := by decide
  range := by decide

theorem pte_onePage : onePage.pgdir.pte =
    Function.update (fun _ => none) 0 (some ⟨302, true, true⟩) := by
  have hnew : (Pgdir.new 300).pte = fun _ => none := rfl
  have htable : ((Pgdir.new 300).addTable 0 301).HasTable (0 / NPTENTRIES) :=
    Pgdir.hasTable_addTable.mpr (Or.inr rfl)
  rw [onePage, onePageAt, Pgdir.pte_setPte htable, Pgdir.pte_addTable rfl, hnew]

theorem frames_onePageAt (a b f : Nat) : (onePageAt a b f).pgdir.frames = {f, b, a} := by
  have htable : ((Pgdir.new a).addTable 0 b).HasTable (0 / NPTENTRIES) :=
    Pgdir.hasTable_addTable.mpr (Or.inr rfl)
  have hlow : 0 < KERNBASE / PGSIZE := Nat.div_pos (by decide) (by decide)
  have hempty : ((Pgdir.new a).addTable 0 b).pte 0 = none := by
    rw [Pgdir.pte_addTable rfl]
    rfl
  rw [onePageAt, Pgdir.frames_map hlow htable hempty, Pgdir.frames_addTable (by simp) rfl,
    Pgdir.frames_new]
  rfl

theorem frames_onePage : onePage.pgdir.frames = {302, 301, 300} := frames_onePageAt 300 301 302

theorem full_onePage : onePage.Full := by
  refine ⟨by decide, ?_⟩
  intro j _
  have hup : pageUp onePage.sz = 1 := rfl
  rw [pte_onePage, hup]
  by_cases hj : j = 0
  · subst hj
    simp
  · simp [hj]

theorem owns_onePage : Owns threePages fullMem (onePage.pgdir.frames + 0) := by
  rw [frames_onePage]
  exact ⟨[], trivial, rfl⟩

theorem sbrk_exact_iff_half : (0 ≤ (-2048 : Int) ∨ 0 < (onePage.sz : Int) + -2048 ∨
      onePage.sz = 0) ∧
    ∃ r p' m', sbrk someLayout onePage (-2048) fullMem = .ok (r, p') m' ∧
      Exact fullMem onePage (-2048) r m' p' :=
  ⟨by decide, (sbrk_exact_iff full_onePage owns_onePage (by decide) (by decide)).mpr (by decide)⟩

/-- `sbrk(-4096)` fails after it has freed the page; `sbrk(-8192)` reports success and does
nothing. -/
theorem sbrk_not_exact :
    onePage.Full ∧ Owns threePages fullMem (onePage.pgdir.frames + 0) ∧
    (∃ r p' m', sbrk someLayout onePage (-4096) fullMem = .ok (r, p') m' ∧ r = -1 ∧
      ¬ Exact fullMem onePage (-4096) r m' p') ∧
    (∃ r p' m', sbrk someLayout onePage (-8192) fullMem = .ok (r, p') m' ∧ r = 4096 ∧
      ¬ Exact fullMem onePage (-8192) r m' p') := by
  refine ⟨full_onePage, owns_onePage, ?_, ?_⟩
  · obtain ⟨⟨r, p'⟩, m', hrun, d', -, -, heq⟩ :=
      wp_returns (wp_sbrk_shrink full_onePage owns_onePage (n := -4096) (by decide) rfl)
    refine ⟨r, p', m', hrun, congrArg Prod.fst heq, ?_⟩
    exact not_exact_of_neg full_onePage owns_onePage (by decide) (by decide) (by decide) hrun
  · obtain ⟨⟨r, p'⟩, m', hrun, d', -, -, heq⟩ :=
      wp_returns (wp_sbrk_shrink full_onePage owns_onePage (n := -8192) (by decide) rfl)
    refine ⟨r, p', m', hrun, congrArg Prod.fst heq, ?_⟩
    exact not_exact_of_neg full_onePage owns_onePage (by decide) (by decide) (by decide) hrun

end Xv6.Vm
