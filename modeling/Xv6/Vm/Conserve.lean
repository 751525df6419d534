import Xv6.Vm.Copy
import Xv6.Vm.Robust

/-!
# Calls that keep account of pages

What a call takes it has in hand when it succeeds, and what it took it has given back when it
fails, at whatever point the allocator ran dry.  The runs that end in a panic are left out.
-/

namespace Xv6.Vm

open Lib Lib.Act Multiset

variable {L : Layout} {A : Pages L} {E : String → Prop} {m m' : Mem} {rest : Multiset Nat}
  {d : Pgdir}

theorem wp_allocuvm_owns {oldsz newsz : Nat} (hE : ∀ msg, E msg) (h : Owns A m (d.frames + rest)) :
    wp E (allocuvm L d oldsz newsz) (fun r m' => Owns A m' (r.2.frames + rest) ∧
      (r.1 = oldsz ∨ r.1 ≤ KERNBASE)) m := by
  by_cases hbig : KERNBASE ≤ newsz
  · rw [allocuvm_big hbig, wp_pure]
    exact ⟨h, Or.inr (Nat.zero_le _)⟩
  rw [Nat.not_le] at hbig
  by_cases hsmall : newsz < oldsz
  · rw [allocuvm_small hbig hsmall, wp_pure]
    exact ⟨h, Or.inl rfl⟩
  refine wp_mono (wp_allocuvm hbig (by omega) h fun _ _ _ => Or.inr (hE _)) ?_
  rintro ⟨sz, d'⟩ m' ⟨howns, ⟨hsz, -⟩ | ⟨hsz, -⟩⟩
  · exact ⟨howns, Or.inr (by omega)⟩
  · exact ⟨howns, Or.inr (by omega)⟩

theorem wp_growproc_owns {p : Space} {n : Int} (hE : ∀ msg, E msg) (hsz : p.sz ≤ KERNBASE)
    (h : Owns A m (p.pgdir.frames + rest)) :
    wp E (growproc L p n) (fun r m' => Owns A m' (r.2.pgdir.frames + rest) ∧
      r.2.sz ≤ KERNBASE) m := by
  have hset : ∀ {sz : Nat} {d : Pgdir} {m' : Mem}, Owns A m' (d.frames + rest) → sz ≤ KERNBASE →
      Owns A m' ((if sz = 0 then (false, { p with pgdir := d }) else (true, ⟨d, sz⟩) :
        Bool × Space).2.pgdir.frames + rest) ∧
      (if sz = 0 then (false, { p with pgdir := d }) else (true, ⟨d, sz⟩) :
        Bool × Space).2.sz ≤ KERNBASE := by
    intro sz d m' howns hle
    split_ifs
    · exact ⟨howns, hsz⟩
    · exact ⟨howns, hle⟩
  unfold growproc
  simp only
  by_cases hpos : n > 0
  · rw [if_pos hpos]
    refine wp_seq (wp_allocuvm_owns hE h) ?_
    rintro ⟨sz, d'⟩ m' ⟨howns, hle⟩
    rw [wp_pure]
    exact hset howns (by omega)
  rw [if_neg hpos]
  by_cases hneg : n < 0
  · rw [if_pos hneg]
    refine wp_seq (wp_deallocuvm hsz h) ?_
    rintro ⟨sz, d'⟩ m' ⟨hmin, -, howns, -⟩
    rw [wp_pure]
    exact hset howns (by omega)
  · rw [if_neg hneg, wp_pure]
    exact ⟨h, hsz⟩

theorem wp_sbrk_owns {p : Space} {n : Int} (hE : ∀ msg, E msg) (hsz : p.sz ≤ KERNBASE)
    (h : Owns A m (p.pgdir.frames + rest)) :
    wp E (sbrk L p n) (fun r m' => Owns A m' (r.2.pgdir.frames + rest) ∧ r.2.sz ≤ KERNBASE) m := by
  unfold sbrk
  refine wp_seq (wp_growproc_owns hE hsz h) ?_
  rintro ⟨ok, p'⟩ m' hpost
  rw [wp_pure]
  cases ok
  · exact hpost
  · exact hpost

theorem wp_copyuvm_owns {src : Pgdir} {sz : Nat} (hE : ∀ msg, E msg) (hsz : sz ≤ KERNBASE)
    (h : Owns A m rest) :
    wp E (copyuvm L src sz) (fun r m' => (r = none → Owns A m' rest) ∧
      ∀ d', r = some d' → Owns A m' (d'.frames + rest)) m := by
  refine wp_mono (wp_copyuvm hsz (fun _ _ _ => hE) h) ?_
  rintro r m' ⟨-, hnone, hsome, -⟩
  exact ⟨hnone, fun d' hd' => (hsome d' hd').1⟩

theorem Owns.copies (h : Owns A m (d.frames + rest)) (hcopies : Copies d m m')
    (huser : ∀ j x, d.pte j = some x → x.user = true → j < KERNBASE / PGSIZE) :
    Owns A m' (d.frames + rest) := by
  obtain ⟨free, hchain, heq⟩ := h
  refine ⟨free, ?_, heq⟩
  rw [hcopies.freelist]
  apply hchain.congr
  intro g hg
  have hbytes : m'.bytes g = m.bytes g := by
    apply hcopies.bytes
    rintro j x hx hu rfl
    have hmem := Pgdir.frame_mem_frames (huser j x hx hu) hx
    have hnodup := nodup_add.mp (heq ▸ A.nodup)
    exact disjoint_left.mp hnodup.2.2 (mem_coe.mpr hg)
      (mem_add.mpr (Or.inl hmem))
  unfold Mem.next
  rw [hbytes]

/-- `exec` with arguments that fit has exchanged the old pages for the new ones, or has all
the old ones. -/
theorem wp_exec_owns {ip : Inode} {argv : List (List UInt8)} {old : Pgdir}
    (hfit : ArgsFit (imageSize ip) argv (imageSize ip)) (h : Owns A m (old.frames + rest)) :
    wp E (exec L ip argv old) (fun r m' => (r = none → Owns A m' (old.frames + rest)) ∧
      ∀ img, r = some img → Owns A m' (img.space.pgdir.frames + rest) ∧
        img.space.sz ≤ KERNBASE) m := by
  unfold exec
  refine wp_seq (wp_execImage h) ?_
  rintro r m1 ⟨-, hnone, hsome, -⟩
  cases r with
  | none =>
    rw [wp_pure]
    exact ⟨fun _ => hnone rfl, by simp⟩
  | some r =>
    obtain ⟨sz, d⟩ := r
    obtain ⟨howns1, hstacked, hsize⟩ := hsome sz d rfl
    rw [← hsize] at hfit
    simp only
    refine wp_seq (wp_execArgs hstacked (hfit.take _)) ?_
    intro r m2 hcopies
    have howns2 := howns1.copies hcopies fun j x hx hu => hstacked.user_below hx hu
    cases r with
    | none =>
      simp only
      refine wp_seq (wp_freevm howns2) ?_
      rintro - m' ⟨-, howns'⟩
      rw [wp_pure]
      exact ⟨fun _ => howns', by simp⟩
    | some sp =>
      rw [add_left_comm] at howns2
      simp only
      refine wp_seq (wp_freevm howns2) ?_
      rintro - m' ⟨-, howns'⟩
      rw [wp_pure]
      refine ⟨by simp, ?_⟩
      intro img himg
      cases himg
      exact ⟨howns', hstacked.below.le⟩

end Xv6.Vm
