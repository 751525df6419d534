import Xv6.Vm.Kvm
import Xv6.Vm.Sbrk

/-!
# Copying an address space

`copyuvm` puts a copy of every user page of the parent at the same place of a new directory, with
the same flags, in a page that nobody else owns.  When the allocator runs dry it gives back all it
has taken.
-/

namespace Xv6.Vm

open Lib Lib.Act Function Multiset

variable {L : Layout} {A : Pages L} {E : String → Prop} {m m' : Mem} {rest : Multiset Nat}
  {d d' src : Pgdir}

/-- The pages `lo` to `hi` of `src` in the memory `m` have been copied to `d'` in `m'`, and `d'` is
otherwise `d`.  The pages of `src` are among `rest`. -/
structure Copied (rest : Multiset Nat) (src : Pgdir) (lo hi : Nat) (m : Mem) (d : Pgdir) (m' : Mem)
    (d' : Pgdir) : Prop where
  pte : ∀ j, ¬ (lo ≤ j ∧ j < hi) → d'.pte j = d.pte j
  page : ∀ j, lo ≤ j → j < hi → ∃ x y, src.pte j = some x ∧ d'.pte j = some y ∧
    y.writable = x.writable ∧ y.user = x.user ∧
    (x.frame ∈ rest → m'.bytes y.frame = m.bytes x.frame)

theorem Copied.refl (rest : Multiset Nat) (src : Pgdir) (lo : Nat) (m : Mem) (d : Pgdir) :
    Copied rest src lo lo m d m d :=
  ⟨fun _ _ => rfl, fun j hlo hhi => by omega⟩

theorem Copied.cons {m1 : Mem} {d1 : Pgdir} {i hi : Nat} {x : Pte} {f : Nat} (hi' : i < hi)
    (h : Copied rest src (i + 1) hi m1 d1 m' d') (hx : src.pte i = some x)
    (hd : d1.pte = update d.pte i (some ⟨f, x.writable, x.user⟩))
    (hsame : ∀ g ∈ rest, m1.bytes g = m.bytes g) (hkept : m'.bytes f = m1.bytes f)
    (hcopy : x.frame ∈ rest → m1.bytes f = m.bytes x.frame) :
    Copied rest src i hi m d m' d' where
  pte := by
    intro j hj
    rw [h.pte j (by omega), hd, update_of_ne (by omega)]
  page := by
    intro j hlo hhi
    by_cases hj : j = i
    · subst hj
      refine ⟨x, ⟨f, x.writable, x.user⟩, hx, ?_, rfl, rfl, fun hmem => ?_⟩
      · rw [h.pte j (by omega), hd, update_self]
      · rw [hkept, hcopy hmem]
    · obtain ⟨y, z, hy, hz, hw, hu, hbytes⟩ := h.page j (by omega) hhi
      refine ⟨y, z, hy, hz, hw, hu, fun hmem => ?_⟩
      rw [hbytes hmem, hsame _ hmem]

theorem wp_bad {Q : Option Pgdir → Mem → Prop} (h : Owns A m (d.frames + rest))
    (hQ : ∀ m', Same (fun g => g ∈ rest) m m' → Owns A m' rest → Q none m') :
    wp E (freevm L d >>= fun _ => pure none) Q m := by
  refine wp_seq (wp_freevm h) ?_
  rintro - m' ⟨hsame, howns⟩
  rw [wp_pure]
  exact hQ m' hsame howns

theorem wp_copyLoop {k i : Nat} (hi : i + k ≤ KERNBASE / PGSIZE)
    (hsrc : ∀ j, i ≤ j → j < i + k → src.pte j = none → ∀ msg, E msg)
    (hfresh : ∀ j, i ≤ j → j < i + k → d.pte j = none) (h : Owns A m (d.frames + rest)) :
    wp E (copyLoop L src k i d) (fun r m' => Same (fun g => g ∈ rest) m m' ∧
      (r = none → Owns A m' rest ∧ ¬ Plenty A m d rest i k) ∧
      ∀ d', r = some d' → Owns A m' (d'.frames + rest) ∧
        (∀ g ∈ d.frames, m'.bytes g = m.bytes g) ∧ Copied rest src i (i + k) m d m' d') m := by
  induction k generalizing i d m with
  | zero =>
    rw [copyLoop, wp_pure]
    refine ⟨.refl _ _, by simp, ?_⟩
    rintro d' ⟨⟩
    exact ⟨h, fun _ _ => rfl, .refl rest src i m d⟩
  | succ k ih =>
    rw [copyLoop]
    unfold walkpgdir
    cases ht : src.table (i / NPTENTRIES) with
    | none =>
      have hnone : src.pte i = none := by
        rw [Pgdir.pte, ht]
        rfl
      simp only [Bool.false_eq_true, if_false]
      rw [wp_bind, wp_pure]
      exact wp_panic.mpr (hsrc i le_rfl (by omega) hnone _)
    | some t =>
      simp only
      rw [wp_bind, wp_pure]
      cases hx : src.pte i with
      | none => exact wp_panic.mpr (hsrc i le_rfl (by omega) hx _)
      | some x =>
        simp only
        refine wp_seq (wp_kalloc h) ?_
        rintro r m1 ⟨hsame1, hnone, hsome, hroom1⟩
        cases r with
        | none =>
          have hscarce : ¬ Plenty A m d rest i (k + 1) := fun hplenty =>
            hroom1 hplenty.never (by have := hplenty.card; omega) rfl
          refine wp_bad (hnone rfl) fun m' hsame howns => ⟨?_, fun _ => ⟨howns, hscarce⟩, by simp⟩
          exact (hsame1.trans hsame).mono fun g hg => ⟨mem_add.mpr (Or.inr hg), hg⟩
        | some f =>
          have howns1 := hsome f rfl
          have hnew : ∀ g ∈ d.frames + rest, g ≠ f := by
            rintro g hg rfl
            exact (nodup_cons.mp howns1.nodup).1 hg
          simp only
          rw [wp_bind, wp_get]
          refine wp_seq (wp_fillPage howns1 (mem_cons_self _ _)) ?_
          rintro - m2 ⟨hsame2, howns2, hbytes2⟩
          refine wp_seq (wp_mapUser howns2 (by omega) (Or.inl (hfresh i le_rfl (by omega)))) ?_
          rintro ⟨ok, d1⟩ m3 ⟨hsame3, hno, hyes, hroom3⟩
          have hsame : Same (fun g => g ∈ d.frames + rest) m m3 :=
            ((hsame1.trans hsame2).trans hsame3).mono fun g hg =>
              ⟨⟨hg, hnew g hg⟩, mem_cons_of_mem hg⟩
          have hsameRest : Same (fun g => g ∈ rest) m m3 :=
            hsame.mono fun g hg => mem_add.mpr (Or.inr hg)
          cases ok with
          | true =>
            rw [if_pos rfl]
            obtain ⟨howns3, hframes, hpte, -, -⟩ := hyes rfl
            have hpte : d1.pte = update d.pte i (some ⟨f, x.writable, x.user⟩) := hpte
            have hmine : f ∈ d1.frames := by
              have hmem := Pgdir.frame_mem_frames (d := d1) (n := i) (by omega)
                (by rw [hpte, update_self])
              exact hmem
            have hfresh1 : ∀ j, i + 1 ≤ j → j < i + 1 + k → d1.pte j = none := by
              intro j hlo hhi
              rw [hpte, update_of_ne (by omega)]
              exact hfresh j (by omega) (by omega)
            refine wp_mono (ih (by omega) (fun j hlo hhi => hsrc j (by omega) (by omega)) hfresh1
              howns3) ?_
            rintro r m' ⟨hsame', hnone', hsome'⟩
            refine ⟨(hsameRest.trans hsame').mono fun g hg => ⟨hg, hg⟩, fun hr => ?_,
              fun d' hd' => ?_⟩
            · refine ⟨(hnone' hr).1, fun hplenty => (hnone' hr).2 ⟨?_, fun j hlo hhi => ?_, ?_⟩⟩
              · rw [hsameRest.fails]
                exact hplenty.never
              · rw [hpte, update_of_ne (by omega)]
                exact hplenty.above j (by omega) hhi
              · have := hplenty.room
                omega
            obtain ⟨howns', hkept, hcopied⟩ := hsome' d' hd'
            refine ⟨howns', fun g hg => ?_, ?_⟩
            · rw [hkept g (mem_of_le hframes hg), hsame.bytes g (mem_add.mpr (Or.inl hg))]
            · rw [show i + (k + 1) = i + 1 + k by omega]
              refine hcopied.cons (by omega) hx hpte (fun g hg => hsameRest.bytes g hg)
                (hkept f hmine) fun hmem => ?_
              -- the page was filled from the memory after `kalloc`
              rw [hsame3.bytes f (mem_cons_self _ _), hbytes2,
                hsame1.bytes x.frame (mem_add.mpr (Or.inr hmem))]
          | false =>
            obtain ⟨hd, howns3⟩ := hno rfl
            change d1 = d at hd
            subst hd
            rw [if_neg (by simp)]
            refine wp_seq (wp_kfree howns3) ?_
            rintro - m4 ⟨hsame4, howns4⟩
            have hscarce : ¬ Plenty A m d1 rest i (k + 1) := fun hplenty => by
              have hcard := hplenty.card
              have hok := hroom3 (by rw [hsame2.fails, hsame1.fails]; exact hplenty.never)
                (by omega)
              cases hok
            refine wp_bad howns4 fun m' hsame' howns => ⟨?_, fun _ => ⟨howns, hscarce⟩, by simp⟩
            exact ((hsame.trans hsame4).trans hsame').mono fun g hg =>
              ⟨⟨mem_add.mpr (Or.inr hg), mem_add.mpr (Or.inr hg)⟩, hg⟩

theorem lt_copied {sz j : Nat} : j < (sz + (PGSIZE - 1)) / PGSIZE ↔ j * PGSIZE < sz := by
  simp only [PGSIZE]
  omega

theorem wp_copyuvm {sz : Nat} (hsz : sz ≤ KERNBASE)
    (hsrc : ∀ j, j * PGSIZE < sz → src.pte j = none → ∀ msg, E msg) (h : Owns A m rest) :
    wp E (copyuvm L src sz) (fun r m' => Same (fun g => g ∈ rest) m m' ∧
      (r = none → Owns A m' rest) ∧
      (∀ d', r = some d' → Owns A m' (d'.frames + rest) ∧
        ∃ d m1, setupkvm L m = .ok (some d) m1 ∧ KernelSpace d ∧
          Copied rest src 0 ((sz + (PGSIZE - 1)) / PGSIZE) m d m' d') ∧
      ((∀ k, m.fails k = false) → (sz + (PGSIZE - 1)) / PGSIZE + 1026 + rest.card < A.all.card →
        r ≠ none)) m := by
  have hpages : 0 + (sz + (PGSIZE - 1)) / PGSIZE ≤ KERNBASE / PGSIZE := by
    simp only [PGSIZE, KERNBASE] at *
    omega
  obtain ⟨r, m1, hsetup, hsame1, hnone, hsome, hroom1⟩ := wp_returns (wp_setupkvm (L := L) h)
  unfold copyuvm
  refine wp_bind.mpr (wp_of_ok hsetup ?_)
  cases r with
  | none =>
    rw [wp_pure]
    refine ⟨hsame1, fun _ => hnone rfl, nofun, fun hnever hroom => hroom1 hnever ?_⟩
    simp only [PGSIZE] at hroom
    omega
  | some d =>
    obtain ⟨howns1, hkernel⟩ := hsome d rfl
    have hlow : ∀ j, 0 ≤ j → j < 0 + (sz + (PGSIZE - 1)) / PGSIZE → d.pte j = none :=
      fun j _ hj => hkernel.low j (Nat.lt_of_lt_of_le hj hpages)
    have hpresent : ∀ j, 0 ≤ j → j < 0 + (sz + (PGSIZE - 1)) / PGSIZE → src.pte j = none →
        ∀ msg, E msg := by
      intro j _ hj
      rw [Nat.zero_add, lt_copied] at hj
      exact hsrc j hj
    refine wp_mono (wp_copyLoop hpages hpresent hlow howns1) ?_
    rintro r m' ⟨hsame, hnone', hsome'⟩
    refine ⟨(hsame1.trans hsame).mono fun g hg => ⟨hg, hg⟩, fun hr => (hnone' hr).1,
      fun d' hd' => ?_, fun hnever hroom hr => (hnone' hr).2 ⟨?_, fun j _ => hkernel.low j, ?_⟩⟩
    rotate_left
    · rwa [hsame1.fails]
    · omega
    obtain ⟨howns', -, hcopied⟩ := hsome' d' hd'
    rw [Nat.zero_add] at hcopied
    refine ⟨howns', d, m1, hsetup, hkernel, hcopied.pte, fun j hlo hhi => ?_⟩
    obtain ⟨x, y, hx, hy, hw, hu, hbytes⟩ := hcopied.page j hlo hhi
    exact ⟨x, y, hx, hy, hw, hu, fun hmem => by rw [hbytes hmem, hsame1.bytes _ hmem]⟩

/-- The child's memory is a copy of the parent's, in pages of its own; or the call has no effect. -/
theorem copyuvm_copies {sz : Nat} (howns : Owns A m (src.frames + rest))
    (hpages : ∀ j, j < KERNBASE / PGSIZE → (src.pte j ≠ none ↔ j * PGSIZE < sz)) :
    ∃ r m', copyuvm L src sz m = .ok r m' ∧
      (∀ f ∈ src.frames + rest, m'.bytes f = m.bytes f) ∧
      (r = none → ∃ free free', Chain m.next m.freelist free ∧ Chain m'.next m'.freelist free' ∧
        free'.length = free.length) ∧
      ∀ d, r = some d →
        (∀ j, j * PGSIZE < sz → ∃ x y, src.pte j = some x ∧ d.pte j = some y ∧
          m'.bytes y.frame = m.bytes x.frame ∧ y.writable = x.writable ∧ y.user = x.user) ∧
        (∀ j, j < KERNBASE / PGSIZE → sz ≤ j * PGSIZE → d.pte j = none) ∧
        (d.users + (src.frames + rest)).Nodup ∧
        ∃ k m1, setupkvm L m = .ok (some k) m1 ∧
          ∀ j, KERNBASE / PGSIZE ≤ j → d.pte j = k.pte j := by
  have hsz : sz ≤ KERNBASE := by
    obtain ⟨j, hj, hnone⟩ := Pgdir.exists_missing howns
    have hout : ¬ j * PGSIZE < sz := fun hlt => (hpages j hj).mpr hlt hnone
    simp only [PGSIZE, KERNBASE] at *
    omega
  have hlow : ∀ j, j * PGSIZE < sz → j < KERNBASE / PGSIZE := fun j hj => by
    simp only [PGSIZE, KERNBASE] at *
    omega
  obtain ⟨r, m', hok, hsame, hnone, hsome, -⟩ := wp_returns
    (wp_copyuvm hsz (fun j hj hx => absurd hx ((hpages j (hlow j hj)).mpr hj)) howns)
  refine ⟨r, m', hok, hsame.bytes, fun hr => ?_, fun d hd => ?_⟩
  · obtain ⟨free, hfree, heq⟩ := howns
    obtain ⟨free', hfree', heq'⟩ := hnone hr
    refine ⟨free, free', hfree, hfree', ?_⟩
    have hcard := congrArg card (add_right_cancel (heq'.trans heq.symm))
    rwa [coe_card, coe_card] at hcard
  · obtain ⟨howns', k, m1, hsetup, hkernel, hcopied⟩ := hsome d hd
    refine ⟨fun j hj => ?_, fun j hj hout => ?_, ?_, k, m1, hsetup, fun j hj => ?_⟩
    · obtain ⟨x, y, hx, hy, hw, hu, hbytes⟩ := hcopied.page j (Nat.zero_le j) (lt_copied.mpr hj)
      refine ⟨x, y, hx, hy, hbytes ?_, hw, hu⟩
      exact mem_add.mpr (Or.inl (Pgdir.frame_mem_frames (hlow j hj) hx))
    · rw [hcopied.pte j (by rw [lt_copied]; omega)]
      exact hkernel.low j hj
    · refine nodup_of_le (add_le_add_left ?_ _) howns'.nodup
      exact le_trans (le_add_left _ _) (le_cons_self _ _)
    · apply hcopied.pte
      rw [lt_copied]
      simp only [PGSIZE, KERNBASE] at *
      omega

/-- The pages of `onePage` and two thousand others. -/
def manyPages : Pages someLayout where
  all := ((List.range' 400 (2400 - 400) : List Nat) : Multiset Nat) + {302, 301, 300}
  nodup := by
    refine nodup_add.mpr ⟨coe_nodup.mpr List.nodup_range', by decide, ?_⟩
    simp only [disjoint_left, mem_coe, List.mem_range'_1, insert_eq_cons, mem_cons, mem_singleton]
    omega
  range := by
    intro f hf
    simp only [mem_add, mem_coe, List.mem_range'_1, insert_eq_cons, mem_cons, mem_singleton] at hf
    simp only [someLayout, PHYSTOP, PGSIZE]
    omega

theorem copyuvm_copies_onePage : ∃ m d m' y, Owns manyPages m onePage.pgdir.frames ∧
    copyuvm someLayout onePage.pgdir 4096 m = .ok (some d) m' ∧ d.pte 0 = some y ∧
    m'.bytes y.frame = m.bytes 302 ∧ y.writable = true ∧ y.user = true ∧
    (d.users + (onePage.pgdir.frames + 0)).Nodup := by
  have hpages : ∀ j, j < KERNBASE / PGSIZE →
      (onePage.pgdir.pte j ≠ none ↔ j * PGSIZE < 4096) := by
    intro j _
    rw [pte_onePage]
    by_cases hj : j = 0
    · subst hj
      simp
    · simp only [ne_eq, update_of_ne hj, not_true, false_iff, PGSIZE]
      omega
  have hfull : Owns manyPages fullMem
      (((List.range' 400 (2400 - 400) : List Nat) : Multiset Nat) + (onePage.pgdir.frames + 0)) :=
    ⟨[], trivial, by rw [frames_onePage]; simp [manyPages]⟩
  obtain ⟨-, m, -, hsame, howns⟩ := wp_returns (wp_freerange hfull)
  obtain ⟨r, m', hok, -, -, hcopy⟩ := copyuvm_copies howns hpages
  have hroom := (wp_ok (E := fun _ => True) (wp_copyuvm (by decide) (fun _ _ _ _ => trivial) howns)
    hok).2.2.2 (by rw [hsame.fails]; exact fun _ => rfl)
      (by rw [frames_onePage]; simp [manyPages, PGSIZE])
  obtain ⟨d, rfl⟩ := Option.ne_none_iff_exists'.mp hroom
  obtain ⟨hbytes, -, hnodup, -⟩ := hcopy d rfl
  obtain ⟨x, y, hx, hy, hcopied, hw, hu⟩ := hbytes 0 (by decide)
  rw [pte_onePage, update_self] at hx
  obtain rfl := Option.some.inj hx
  exact ⟨m, d, m', y, howns.congr (add_zero _).symm, hok, hy, hcopied, hw, hu, hnodup⟩

end Xv6.Vm
