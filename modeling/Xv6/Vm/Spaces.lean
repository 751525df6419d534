import Xv6.Vm.Owns

/-!
# Growing, shrinking and freeing an address space

One rule for each function: which entries of the directory it changes, and that no page is
lost or gained.  `rest` stands for the pages that belong to anything else.
-/

namespace Xv6.Vm

open Lib Lib.Act Function Multiset

variable {L : Layout} {A : Pages L} {E : String → Prop} {m : Mem} {rest : Multiset Nat}
  {d : Pgdir} {n : Nat} {x : Pte} {oldsz newsz : Nat}

theorem wp_walkpgdir (h : Owns A m (d.frames + rest)) (hn : n / NPTENTRIES < NPTENTRIES) :
    wp E (walkpgdir d n true) (fun r m' => Same (fun f => f ∈ d.frames + rest) m m' ∧
      (r = none → Owns A m' (d.frames + rest)) ∧
      (∀ d', r = some d' → Owns A m' (d'.frames + rest) ∧ d.frames ≤ d'.frames ∧
        d'.pte = d.pte ∧ d'.frame = d.frame ∧
        ∀ i, d'.HasTable i ↔ d.HasTable i ∨ i = n / NPTENTRIES) ∧
      ((∀ k, m.fails k = false) → (d.frames + rest).card < A.all.card → r ≠ none)) m := by
  unfold walkpgdir
  split
  · rename_i t ht
    rw [wp_pure]
    refine ⟨.refl _ _, by simp, ?_, by simp⟩
    intro d' hd'
    cases hd'
    refine ⟨h, le_rfl, rfl, rfl, ?_⟩
    intro i
    refine ⟨Or.inl, ?_⟩
    rintro (hi | rfl)
    · exact hi
    · intro hnone
      rw [ht] at hnone
      cases hnone
  · rename_i ht
    rw [if_pos rfl]
    refine wp_seq (wp_kalloc h) ?_
    rintro r m' ⟨hsame, hfail, hgive, hroom⟩
    cases r with
    | none =>
      rw [wp_pure]
      exact ⟨hsame, fun _ => hfail rfl, by simp, fun h1 h2 => absurd rfl (hroom h1 h2)⟩
    | some f =>
      rw [wp_pure]
      refine ⟨hsame, by simp, ?_, by simp⟩
      intro d' hd'
      cases hd'
      refine ⟨(hgive f rfl).congr ?_, ?_, Pgdir.pte_addTable ht, rfl, ?_⟩
      · rw [Pgdir.frames_addTable hn ht, cons_add]
      · rw [Pgdir.frames_addTable hn ht]
        exact le_cons_self _ _
      · intro i
        exact Pgdir.hasTable_addTable

/-- The page that an entry brings into the directory: only user pages are owned by it. -/
def hold (n f : Nat) : Multiset Nat := if n < KERNBASE / PGSIZE then {f} else 0

theorem frames_setPte_hold (ht : d.HasTable (n / NPTENTRIES)) (hnone : d.pte n = none) :
    (d.setPte n (some x)).frames = hold n x.frame + d.frames := by
  unfold hold
  split_ifs with hn
  · rw [Pgdir.frames_map hn ht hnone, singleton_add]
  · rw [zero_add]
    exact Pgdir.frames_setPte_same ht fun hlt => absurd hlt hn

theorem wp_mapPage (h : Owns A m (hold n x.frame + (d.frames + rest)))
    (hn : n / NPTENTRIES < NPTENTRIES) (hfresh : d.pte n = none ∨ E "remap") :
    wp E (mapPage d n x) (fun r m' =>
      Same (fun f => f ∈ hold n x.frame + (d.frames + rest)) m m' ∧
      (r.1 = false → r.2 = d ∧ Owns A m' (hold n x.frame + (d.frames + rest))) ∧
      (r.1 = true → Owns A m' (r.2.frames + rest) ∧ d.frames ≤ r.2.frames ∧
        r.2.pte = update d.pte n (some x) ∧ r.2.frame = d.frame ∧
        ∀ i, r.2.HasTable i ↔ d.HasTable i ∨ i = n / NPTENTRIES) ∧
      ((∀ k, m.fails k = false) →
        (hold n x.frame + (d.frames + rest)).card < A.all.card → r.1 = true)) m := by
  have hswap : ∀ e : Pgdir, hold n x.frame + (e.frames + rest) =
      e.frames + (hold n x.frame + rest) := fun e => add_left_comm _ _ _
  rw [hswap d] at h ⊢
  unfold mapPage
  refine wp_seq (wp_walkpgdir h hn) ?_
  rintro r m' ⟨hsame, hfail, hgive, hroom⟩
  cases r with
  | none =>
    rw [wp_pure]
    exact ⟨hsame, fun _ => ⟨rfl, hfail rfl⟩, by simp, fun h1 h2 => absurd rfl (hroom h1 h2)⟩
  | some d' =>
    obtain ⟨howns, hle, hpte, hframe, htables⟩ := hgive d' rfl
    simp only
    rw [hpte]
    cases hx : d.pte n with
    | some y =>
      rw [hx] at hfresh
      exact wp_panic.mpr (hfresh.resolve_left (by simp))
    | none =>
      simp only
      rw [wp_pure]
      have ht : d'.HasTable (n / NPTENTRIES) := (htables _).mpr (Or.inr rfl)
      have hframes := frames_setPte_hold (x := x) ht (by rw [hpte, hx])
      refine ⟨hsame, by simp, fun _ => ⟨howns.congr ?_, ?_, ?_, ?_, ?_⟩, by simp⟩
      · rw [hframes, add_assoc, hswap]
      · rw [hframes]
        exact hle.trans (le_add_left _ _)
      · rw [Pgdir.pte_setPte ht, hpte]
      · exact Pgdir.frame_setPte.trans hframe
      · intro i
        rw [Pgdir.hasTable_setPte]
        exact htables i

/-- What is kept by skipping pages that are not mapped and by freeing one that is. -/
theorem wp_deallocLoop_rule {I : Nat → Pgdir → Mem → Prop} {oldsz a : Nat}
    (hskip : ∀ a b d m, I a d m → a ≤ b → (∀ j, a ≤ j → j < b → d.pte j = none) → I b d m)
    (hfree : ∀ a d m p, I a d m → a * PGSIZE < oldsz → d.pte a = some p →
      if p.frame = 0 then E "kfree"
      else wp E (kfree L p.frame) (fun _ m' => I (a + 1) (d.setPte a none) m') m)
    (h : I a d m) :
    wp E (deallocLoop L oldsz a d) (fun d' m' => ∃ b, oldsz ≤ b * PGSIZE ∧ I b d' m') m := by
  induction a, d using deallocLoop.induct oldsz generalizing m with
  | case1 a d hlt hnone ih =>
    rw [deallocLoop, if_pos hlt]
    simp only [hnone]
    refine ih (hskip _ _ _ _ h (by simp only [NPTENTRIES]; omega) fun j hj hj' => ?_)
    -- the pages that are skipped have no page table
    have hidx : j / NPTENTRIES = a / NPTENTRIES := by
      simp only [NPTENTRIES] at *
      omega
    rw [Pgdir.pte, hidx, hnone, Option.bind_none]
  | case2 a d hlt t ht hentry ih =>
    rw [deallocLoop, if_pos hlt]
    simp only [ht, hentry]
    refine ih (hskip _ _ _ _ h (by omega) fun j hj hj' => ?_)
    rw [show j = a by omega, Pgdir.pte, ht, Option.bind_some, hentry]
  | case3 a d hlt t ht p hentry hzero =>
    have hstep := hfree a d m p h hlt (by rw [Pgdir.pte, ht, Option.bind_some, hentry])
    rw [deallocLoop, if_pos hlt]
    simp only [ht, hentry]
    rw [if_pos hzero] at hstep ⊢
    exact wp_panic.mpr hstep
  | case4 a d hlt t ht p hentry hzero ih =>
    have hstep := hfree a d m p h hlt (by rw [Pgdir.pte, ht, Option.bind_some, hentry])
    rw [deallocLoop, if_pos hlt]
    simp only [ht, hentry]
    rw [if_neg hzero] at hstep ⊢
    exact wp_seq hstep fun _ m1 h1 => ih h1
  | case5 a d hlt =>
    rw [deallocLoop, if_neg hlt, wp_pure]
    exact ⟨a, by omega, h⟩

theorem wp_deallocLoop {oldsz a : Nat} (hsz : oldsz ≤ KERNBASE) (h : Owns A m (d.frames + rest)) :
    wp E (deallocLoop L oldsz a d) (fun d' m' =>
      Same (fun f => f ∈ d'.frames + rest) m m' ∧ Owns A m' (d'.frames + rest) ∧
      (∀ j, d'.pte j = if a ≤ j ∧ j * PGSIZE < oldsz then none else d.pte j) ∧
      d'.frame = d.frame ∧ (∀ i, d'.HasTable i ↔ d.HasTable i) ∧
      ∀ f ∈ d'.frames, f ∈ d.frames) m := by
  refine wp_mono (wp_deallocLoop_rule (I := fun b d' m' => a ≤ b ∧
    Same (fun f => f ∈ d'.frames + rest) m m' ∧ Owns A m' (d'.frames + rest) ∧
    (∀ j, d'.pte j = if a ≤ j ∧ j < b ∧ j * PGSIZE < oldsz then none else d.pte j) ∧
    d'.frame = d.frame ∧ (∀ i, d'.HasTable i ↔ d.HasTable i) ∧ ∀ f ∈ d'.frames, f ∈ d.frames)
    ?_ ?_ ⟨le_rfl, .refl _ _, h, fun j => (if_neg (by omega)).symm, rfl, fun _ => .rfl,
      fun _ => id⟩) ?_
  · rintro b b' d' m' ⟨hb, hsame, howns, hpte, hrest⟩ hle hnone
    refine ⟨hb.trans hle, hsame, howns, fun j => ?_, hrest⟩
    by_cases hj : b ≤ j ∧ j < b'
    · rw [hnone j hj.1 hj.2]
      split_ifs with hcond
      · rfl
      · rw [← hnone j hj.1 hj.2, hpte, if_neg (by omega)]
    · have hiff : (a ≤ j ∧ j < b' ∧ j * PGSIZE < oldsz) ↔ (a ≤ j ∧ j < b ∧ j * PGSIZE < oldsz) := by
        omega
      simp only [hpte, hiff]
  · rintro b d' m1 p ⟨hb, hsame, howns, hpte, hframe, htables, hsub⟩ hlt hp
    have hbound : b < KERNBASE / PGSIZE := by
      simp only [PGSIZE, KERNBASE] at *
      omega
    have hframes := Pgdir.frames_unmap hbound hp
    have hrange := howns.range (mem_add.mpr (Or.inl (Pgdir.frame_mem_frames hbound hp)))
    have hpos := L.kend_pos
    rw [if_neg (by omega)]
    rw [hframes, cons_add] at howns
    refine wp_mono (wp_kfree howns) ?_
    rintro - m' ⟨hsame1, howns1⟩
    refine ⟨by omega, (hsame.trans hsame1).mono fun f hf => ⟨?_, hf⟩, howns1, fun j => ?_,
      Pgdir.frame_setPte.trans hframe, fun i => ?_, fun f hf => ?_⟩
    · rw [hframes, cons_add]
      exact mem_cons_of_mem hf
    · rw [Pgdir.pte_setPte (Pgdir.hasTable_of_pte hp)]
      by_cases hj : j = b
      · subst hj
        rw [update_self, if_pos ⟨hb, by omega, hlt⟩]
      · have hiff : (a ≤ j ∧ j < b + 1 ∧ j * PGSIZE < oldsz) ↔
            (a ≤ j ∧ j < b ∧ j * PGSIZE < oldsz) := by omega
        simp only [update_of_ne hj, hpte, hiff]
    · rw [Pgdir.hasTable_setPte, htables]
    · refine hsub f ?_
      rw [hframes]
      exact mem_cons_of_mem hf
  · rintro d' m' ⟨b, hdone, hb, hsame, howns, hpte, hrest⟩
    refine ⟨hsame, howns, fun j => ?_, hrest⟩
    have hiff : (a ≤ j ∧ j < b ∧ j * PGSIZE < oldsz) ↔ (a ≤ j ∧ j * PGSIZE < oldsz) := by
      simp only [PGSIZE] at *
      omega
    simp only [hpte, hiff]

theorem lt_pageUp {sz j : Nat} (hsz : sz ≤ KERNBASE) : j < pageUp sz ↔ j * PGSIZE < sz := by
  simp only [pageUp, PGSIZE, KERNBASE] at *
  omega

/-- The entries of a directory after the user pages from `lo` to `hi` have been freed. -/
structure Shrinks (lo hi : Nat) (d d' : Pgdir) : Prop where
  pte : ∀ j, d'.pte j = if lo ≤ j ∧ j < hi then none else d.pte j
  frame : d'.frame = d.frame
  tables : ∀ i, d'.HasTable i ↔ d.HasTable i
  frames : ∀ f ∈ d'.frames, f ∈ d.frames

theorem Shrinks.refl (d : Pgdir) {lo hi : Nat} (h : hi ≤ lo) : Shrinks lo hi d d where
  pte := fun j => by rw [if_neg (by omega)]
  frame := rfl
  tables := fun _ => Iff.rfl
  frames := fun _ => id

theorem wp_deallocuvm (hsz : oldsz ≤ KERNBASE) (h : Owns A m (d.frames + rest)) :
    wp E (deallocuvm L d oldsz newsz) (fun r m' => r.1 = min oldsz newsz ∧
      Same (fun f => f ∈ r.2.frames + rest) m m' ∧ Owns A m' (r.2.frames + rest) ∧
      Shrinks (pageUp (min oldsz newsz)) (pageUp oldsz) d r.2) m := by
  unfold deallocuvm
  split_ifs with hge
  · rw [wp_pure, min_eq_left hge]
    exact ⟨rfl, .refl _ _, h, .refl d le_rfl⟩
  · rw [min_eq_right (by omega)]
    refine wp_seq (wp_deallocLoop hsz h) ?_
    rintro d' m' ⟨hsame, howns, hpte, hframe, htables, hsub⟩
    rw [wp_pure]
    refine ⟨rfl, hsame, howns, ?_, hframe, htables, hsub⟩
    intro j
    rw [hpte]
    simp only [lt_pageUp hsz]

/-- The entries of a directory after user pages have been put at `lo` to `hi`. -/
structure Grows (lo hi : Nat) (d d' : Pgdir) : Prop where
  pte : ∀ j, ¬ (lo ≤ j ∧ j < hi) → d'.pte j = d.pte j
  present : ∀ j, lo ≤ j → j < hi → ∃ x, d'.pte j = some x ∧ x.user = true ∧ x.writable = true
  frame : d'.frame = d.frame
  tables : ∀ i, d'.HasTable i ↔
    d.HasTable i ∨ lo < hi ∧ lo < (i + 1) * NPTENTRIES ∧ i * NPTENTRIES < hi

/-- The entries of a directory after `allocuvm` has failed: the pages it had put at `lo` to
`hi` are gone, but not the page tables. -/
structure RolledBack (lo hi : Nat) (d d' : Pgdir) : Prop where
  pte : ∀ j, d'.pte j = if lo ≤ j ∧ j < hi then none else d.pte j
  frame : d'.frame = d.frame
  mono : ∀ i, d.HasTable i → d'.HasTable i
  bound : ∀ i, d'.HasTable i → d.HasTable i ∨ i * NPTENTRIES < hi

theorem mappages_page {a : Nat} (ha : a < KERNBASE / PGSIZE) (f : Nat) (w u : Bool) :
    mappages d (a * PGSIZE) PGSIZE (f * PGSIZE) w u = mapPage d a ⟨f, w, u⟩ := by
  have hfirst : a * PGSIZE / PGSIZE = a := Nat.mul_div_cancel a (by decide)
  have hframe : f * PGSIZE / PGSIZE = f := Nat.mul_div_cancel f (by decide)
  have hlast : (a * PGSIZE + PGSIZE - 1) % 2 ^ 32 / PGSIZE = a := by
    simp only [PGSIZE, KERNBASE] at *
    omega
  unfold mappages
  simp only [hfirst, hframe, hlast, Int.sub_self, Int.zero_emod, Int.toNat_zero, mapLoop]

theorem wp_mapUser {f a : Nat} (h : Owns A m (f ::ₘ (d.frames + rest)))
    (ha : a < KERNBASE / PGSIZE) (hfresh : d.pte a = none ∨ E "remap") {w u : Bool} :
    wp E (mappages d (a * PGSIZE) PGSIZE (f * PGSIZE) w u) (fun r m' =>
      Same (fun g => g ∈ f ::ₘ (d.frames + rest)) m m' ∧
      (r.1 = false → r.2 = d ∧ Owns A m' (f ::ₘ (d.frames + rest))) ∧
      (r.1 = true → Owns A m' (r.2.frames + rest) ∧ d.frames ≤ r.2.frames ∧
        r.2.pte = update d.pte a (some ⟨f, w, u⟩) ∧ r.2.frame = d.frame ∧
        ∀ i, r.2.HasTable i ↔ d.HasTable i ∨ i = a / NPTENTRIES) ∧
      ((∀ k, m.fails k = false) → (d.frames + rest).card + 1 < A.all.card → r.1 = true)) m := by
  have hhold : hold a f + (d.frames + rest) = f ::ₘ (d.frames + rest) := by
    unfold hold
    rw [if_pos ha, singleton_add]
  have hn : a / NPTENTRIES < NPTENTRIES := by
    simp only [PGSIZE, KERNBASE, NPTENTRIES] at *
    omega
  rw [mappages_page ha]
  have hmap := wp_mapPage (x := ⟨f, w, u⟩) (by rw [hhold]; exact h) hn hfresh
  rw [hhold] at hmap
  refine wp_mono hmap ?_
  rintro r m' ⟨hsame, hfail, hok, hroom⟩
  refine ⟨hsame, hfail, hok, ?_⟩
  intro hnever hcard
  exact hroom hnever (by rw [card_cons]; exact hcard)

/-- Enough memory for `k` user pages from `a` on and all page tables. -/
structure Plenty (A : Pages L) (m : Mem) (d : Pgdir) (rest : Multiset Nat) (a k : Nat) : Prop where
  never : ∀ i, m.fails i = false
  above : ∀ j, a ≤ j → j < KERNBASE / PGSIZE → d.pte j = none
  room : a + k + 1026 + rest.card < A.all.card

theorem Plenty.card {a k : Nat} (h : Plenty A m d rest a k) :
    (d.frames + rest).card + k + 1 < A.all.card := by
  have husers := Pgdir.card_users_le a h.above
  have hframes := d.card_frames_le
  have hroom := h.room
  rw [card_add]
  omega

theorem RolledBack.of_shrinks {lo hi : Nat} {d' : Pgdir} (h : Shrinks lo hi d d') :
    RolledBack lo hi d d' where
  pte := h.pte
  frame := h.frame
  mono := fun i => (h.tables i).mpr
  bound := fun i hi => Or.inl ((h.tables i).mp hi)

theorem RolledBack.page {lo hi a : Nat} {d1 d' : Pgdir} (h : RolledBack lo hi d1 d') (hlo : lo ≤ a)
    (hhi : a < hi) {x : Option Pte} (hpte : d1.pte = update d.pte a x) (hframe : d1.frame = d.frame)
    (htables : ∀ i, d1.HasTable i ↔ d.HasTable i ∨ i = a / NPTENTRIES) :
    RolledBack lo hi d d' where
  pte := by
    intro j
    rw [h.pte, hpte]
    split_ifs with hj
    · rfl
    · rw [update_of_ne]
      rintro rfl
      exact hj ⟨hlo, hhi⟩
  frame := h.frame.trans hframe
  mono := fun i hi => h.mono i ((htables i).mpr (Or.inl hi))
  bound := by
    intro i hi
    rcases h.bound i hi with hi | hi
    · rcases (htables i).mp hi with hi | rfl
      · exact Or.inl hi
      · right
        simp only [NPTENTRIES]
        omega
    · exact Or.inr hi

theorem Grows.page {a k : Nat} {d1 d' : Pgdir} (h : Grows (a + 1) (a + 1 + k) d1 d') {x : Pte}
    (hpte : d1.pte = update d.pte a (some x)) (hx : x.user = true ∧ x.writable = true)
    (hframe : d1.frame = d.frame)
    (htables : ∀ i, d1.HasTable i ↔ d.HasTable i ∨ i = a / NPTENTRIES) :
    Grows a (a + (k + 1)) d d' where
  pte := by
    intro j hj
    rw [h.pte j (by omega), hpte, update_of_ne]
    rintro rfl
    exact hj ⟨le_rfl, by omega⟩
  present := by
    intro j hlo hhi
    by_cases hja : j = a
    · subst hja
      refine ⟨x, ?_, hx⟩
      rw [h.pte j (by omega), hpte, update_self]
    · exact h.present j (by omega) (by omega)
  frame := h.frame.trans hframe
  tables := by
    intro i
    rw [h.tables, htables]
    simp only [NPTENTRIES]
    constructor
    · rintro ((hi | rfl) | hi)
      · exact Or.inl hi
      · right
        omega
      · right
        omega
    · rintro (hi | hi)
      · exact Or.inl (Or.inl hi)
      · by_cases hia : i = a / 1024
        · exact Or.inl (Or.inr hia)
        · right
          omega

theorem wp_allocLoop {oldsz newsz k a : Nat} (hnew : newsz < KERNBASE) (hle : oldsz ≤ newsz)
    (hend : a + k = pageUp newsz) (hlo : pageUp oldsz ≤ a) (h : Owns A m (d.frames + rest))
    (hfresh : ∀ j, a ≤ j → j < a + k → d.pte j = none ∨ E "remap") :
    wp E (allocLoop L oldsz newsz k a d) (fun r m' => Owns A m' (r.2.frames + rest) ∧
      (r.1 = newsz ∧ Grows a (a + k) d r.2 ∧ Same (fun f => f ∈ d.frames + rest) m m' ∨
      r.1 = 0 ∧ RolledBack (pageUp oldsz) (pageUp newsz) d r.2 ∧
        Same (fun f => f ∈ d.frames + rest ∧ f ∈ r.2.frames + rest) m m' ∧
        ¬ Plenty A m d rest a k)) m := by
  have hback : ∀ {e : Pgdir} {m : Mem} {own : Multiset Nat}, Owns A m (e.frames + own) →
      wp E (deallocuvm L e newsz oldsz) (fun r m' =>
        Same (fun f => f ∈ r.2.frames + own) m m' ∧ Owns A m' (r.2.frames + own) ∧
        Shrinks (pageUp oldsz) (pageUp newsz) e r.2) m := by
    intro e m own he
    refine wp_mono (wp_deallocuvm (by omega) he) ?_
    rintro r m' ⟨-, hsame, howns, hshrinks⟩
    rw [min_eq_right hle] at hshrinks
    exact ⟨hsame, howns, hshrinks⟩
  induction k generalizing a d m with
  | zero =>
    rw [allocLoop, wp_pure]
    refine ⟨h, Or.inl ⟨rfl, ⟨fun _ _ => rfl, ?_, rfl, ?_⟩, .refl _ _⟩⟩
    · intro j hj hj'
      omega
    · intro i
      refine ⟨Or.inl, ?_⟩
      rintro (hi | hi)
      · exact hi
      · omega
  | succ k ih =>
    have ha : a < KERNBASE / PGSIZE := by
      have hlt := (lt_pageUp (j := a) hnew.le).mp (by omega)
      simp only [KERNBASE, PGSIZE] at *
      omega
    rw [allocLoop]
    refine wp_seq (wp_kalloc h) ?_
    rintro r m1 ⟨hsame1, hfail, hgive, hroom⟩
    cases r with
    | none =>
      refine wp_seq (hback (hfail rfl)) ?_
      rintro r m' ⟨hsame, howns, hshrinks⟩
      rw [wp_pure]
      refine ⟨howns, Or.inr ⟨rfl, .of_shrinks hshrinks, hsame1.trans hsame, ?_⟩⟩
      intro hplenty
      have hcard := hplenty.card
      exact hroom hplenty.never (by omega) rfl
    | some f =>
      have howns1 := hgive f rfl
      have hf : f ∉ d.frames + rest := (nodup_cons.mp howns1.nodup).1
      refine wp_seq (wp_fillPage howns1 (mem_cons_self _ _)) ?_
      rintro - m2 ⟨hsame2, howns2, -⟩
      refine wp_seq (wp_mapUser howns2 ha (hfresh a le_rfl (by omega))) ?_
      rintro ⟨ok, d1⟩ m3 ⟨hsame3, hno, hyes, hroom3⟩
      have hsame : Same (fun g => g ∈ d.frames + rest) m m3 := by
        refine ((hsame1.trans hsame2).trans hsame3).mono ?_
        intro g hg
        refine ⟨⟨hg, ?_⟩, mem_cons_of_mem hg⟩
        rintro rfl
        exact hf hg
      cases ok with
      | false =>
        obtain ⟨hd, howns3⟩ := hno rfl
        change d1 = d at hd
        subst hd
        rw [← add_cons] at howns3
        simp only [Bool.false_eq_true, if_false]
        refine wp_seq (hback howns3) ?_
        rintro ⟨z, d'⟩ m4 ⟨hsame4, howns4, hshrinks⟩
        rw [add_cons] at howns4
        refine wp_seq (wp_kfree howns4) ?_
        rintro - m' ⟨hsame5, howns5⟩
        rw [wp_pure]
        refine ⟨howns5, Or.inr ⟨rfl, .of_shrinks hshrinks, ?_, ?_⟩⟩
        · refine ((hsame.trans hsame4).trans hsame5).mono ?_
          rintro g ⟨hg, hg'⟩
          rw [add_cons]
          exact ⟨⟨hg, mem_cons_of_mem hg'⟩, hg'⟩
        · intro hplenty
          have hcard := hplenty.card
          have hnever : ∀ i, m2.fails i = false := by
            rw [hsame2.fails, hsame1.fails]
            exact hplenty.never
          have htrue := hroom3 hnever (by omega)
          cases htrue
      | true =>
        obtain ⟨howns3, hle3, hpte, hframe, htables⟩ := hyes rfl
        simp only [if_true]
        have hnext : ∀ j, j ≠ a → d1.pte j = d.pte j := by
          intro j hj
          rw [hpte, update_of_ne hj]
        refine wp_mono (ih (by omega) (by omega) howns3 ?_) ?_
        · intro j hj hj'
          rw [hnext j (by omega)]
          exact hfresh j (by omega) (by omega)
        · rintro ⟨sz, d'⟩ m' ⟨howns', hcases⟩
          refine ⟨howns', ?_⟩
          have hsub : ∀ g, g ∈ d.frames + rest → g ∈ d1.frames + rest := fun g =>
            mem_of_le (add_le_add hle3 le_rfl)
          rcases hcases with ⟨hsz, hgrows, hsame'⟩ | ⟨hsz, hrolled, hsame', hnot⟩
          · refine Or.inl ⟨hsz, hgrows.page hpte ⟨rfl, rfl⟩ hframe htables, ?_⟩
            exact (hsame.trans hsame').mono fun g hg => ⟨hg, hsub g hg⟩
          · refine Or.inr ⟨hsz, hrolled.page hlo (by omega) hpte hframe htables, ?_, ?_⟩
            · exact (hsame.trans hsame').mono fun g hg => ⟨hg.1, hsub g hg.1, hg.2⟩
            · intro hplenty
              apply hnot
              refine ⟨?_, ?_, ?_⟩
              · rw [hsame.fails]
                exact hplenty.never
              · intro j hj hj'
                rw [hnext j (by omega)]
                exact hplenty.above j (by omega) hj'
              · have hroom' := hplenty.room
                omega

theorem allocuvm_big (hnew : KERNBASE ≤ newsz) : allocuvm L d oldsz newsz = pure (0, d) := by
  unfold allocuvm
  exact if_pos hnew

theorem allocuvm_small (hnew : newsz < KERNBASE) (hlt : newsz < oldsz) :
    allocuvm L d oldsz newsz = pure (oldsz, d) := by
  unfold allocuvm
  rw [if_neg (by omega), if_pos hlt]

theorem wp_allocuvm (hnew : newsz < KERNBASE) (hle : oldsz ≤ newsz) (h : Owns A m (d.frames + rest))
    (hfresh : ∀ j, pageUp oldsz ≤ j → j < pageUp newsz → d.pte j = none ∨ E "remap") :
    wp E (allocuvm L d oldsz newsz) (fun r m' => Owns A m' (r.2.frames + rest) ∧
      (r.1 = newsz ∧ Grows (pageUp oldsz) (pageUp newsz) d r.2 ∧
          Same (fun f => f ∈ d.frames + rest) m m' ∨
        r.1 = 0 ∧ RolledBack (pageUp oldsz) (pageUp newsz) d r.2 ∧
          Same (fun f => f ∈ d.frames + rest ∧ f ∈ r.2.frames + rest) m m' ∧
          ¬ Plenty A m d rest (pageUp oldsz) (pageUp newsz - pageUp oldsz))) m := by
  have hmono : pageUp oldsz ≤ pageUp newsz := by
    simp only [pageUp, PGSIZE, KERNBASE] at *
    omega
  have hend : pageUp oldsz + (pageUp newsz - pageUp oldsz) = pageUp newsz := by omega
  unfold allocuvm
  rw [if_neg (by omega), if_neg (by omega)]
  have hloop := wp_allocLoop hnew hle hend le_rfl h (by rw [hend]; exact hfresh)
  rw [hend] at hloop
  exact hloop

theorem wp_freeTables {l : List Nat}
    (h : Owns A m (((l.filterMap fun i => (d.table i).map PageTable.frame : List Nat) :
      Multiset Nat) + rest)) :
    wp E (freeTables L d l) (fun _ m' => Same (fun f => f ∈ rest) m m' ∧ Owns A m' rest) m := by
  induction l generalizing m with
  | nil =>
    rw [freeTables, wp_pure]
    refine ⟨.refl _ _, ?_⟩
    simpa using h
  | cons i l ih =>
    rw [freeTables]
    cases ht : d.table i with
    | none =>
      simp only
      apply ih
      simpa [List.filterMap_cons, ht] using h
    | some t =>
      simp only
      have h' : Owns A m (t.frame ::ₘ (((l.filterMap fun i =>
          (d.table i).map PageTable.frame : List Nat) : Multiset Nat) + rest)) := by
        rw [← cons_add, cons_coe]
        simpa [List.filterMap_cons, ht] using h
      refine wp_seq (wp_kfree h') ?_
      rintro - m1 ⟨hsame1, howns1⟩
      refine wp_mono (ih howns1) ?_
      rintro - m' ⟨hsame, howns⟩
      refine ⟨(hsame1.trans hsame).mono ?_, howns⟩
      intro f hf
      exact ⟨mem_add.mpr (Or.inr hf), hf⟩

theorem wp_freevm (h : Owns A m (d.frames + rest)) :
    wp E (freevm L d) (fun _ m' => Same (fun f => f ∈ rest) m m' ∧ Owns A m' rest) m := by
  unfold freevm
  -- the bound and the indices as variables: they must not be evaluated
  obtain ⟨top, htop⟩ : ∃ top, top = KERNBASE := ⟨_, rfl⟩
  obtain ⟨l, hl⟩ : ∃ l, l = List.range NPTENTRIES := ⟨_, rfl⟩
  rw [← htop, ← hl]
  refine wp_seq (wp_deallocuvm (le_of_eq htop) h) ?_
  rintro ⟨sz, d'⟩ m1 ⟨-, hsame1, howns1, hshrinks⟩
  rw [Nat.min_zero] at hshrinks
  simp only at hsame1 howns1 hshrinks ⊢
  have husers : d'.users = 0 := by
    unfold Pgdir.users
    apply gather_none
    intro j hj
    rw [hshrinks.pte, if_pos, Option.map_none]
    simp only [pageUp, PGSIZE, KERNBASE] at *
    omega
  have hframes : d'.frames = ((l.filterMap fun i =>
      (d'.table i).map PageTable.frame : List Nat) : Multiset Nat) + {d'.frame} := by
    unfold Pgdir.frames
    rw [husers, add_zero, Pgdir.tables, gather_eq_filterMap, ← singleton_add, add_comm, hl]
  rw [hframes, add_assoc] at howns1
  refine wp_seq (wp_freeTables howns1) ?_
  rintro - m2 ⟨hsame2, howns2⟩
  rw [singleton_add] at howns2
  refine wp_mono (wp_kfree howns2) ?_
  rintro - m' ⟨hsame, howns⟩
  refine ⟨((hsame1.trans hsame2).trans hsame).mono ?_, howns⟩
  intro f hf
  exact ⟨⟨mem_add.mpr (Or.inr hf), mem_add.mpr (Or.inr hf)⟩, hf⟩

end Xv6.Vm
