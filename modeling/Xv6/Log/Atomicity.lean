import Xv6.Log.Commit

/-!
# Crash atomicity of the log

At every point of a commit or of a recovery the disk is *recoverable* to some
disk `D`: outside the log it already agrees with `D`, except on the blocks the
on-disk header lists, and of those the log holds `D`'s contents.  With an empty
header the disk simply is `D` outside the log.  The commit record is the one
write that changes which `D` the disk is recoverable to.
-/

namespace Xv6.Log

open Lib Lib.Crash Function List

variable {lg : Area} {i : Nat} {b : Nat} {lh : List (BitVec 32)} {x : BitVec 32 × Block}
  {m : Machine}

theorem Area.contains_start (lg : Area) : lg.Contains lg.start :=
  ⟨Nat.le_refl _, Nat.lt_add_of_pos_right lg.size_pos⟩

theorem Area.contains_slot (hsize : lh.length ≤ lg.size - 1) (hi : i < lh.length) :
    lg.Contains (lg.start + i + 1) := by
  unfold Area.Contains
  omega

/-- `d` is recoverable to `D` through the header contents `lh`. -/
structure Recoverable (lg : Area) (D : Disk) (lh : List (BitVec 32)) (d : Disk) : Prop where
  header : getHeader (d lg.start) = lh
  length_le_logsize : lh.length ≤ LOGSIZE
  length_le_size : lh.length ≤ lg.size - 1
  outside : ∀ i, i < lh.length → ¬ lg.Contains (homeBlock lh i)
  copies : ∀ i, i < lh.length → d (lg.start + i + 1) = D (homeBlock lh i)
  home : ∀ b, ¬ lg.Contains b → (∀ i, i < lh.length → homeBlock lh i ≠ b) → d b = D b

namespace Recoverable

variable {D d : Disk} {lh : List (BitVec 32)}

theorem of_empty (hheader : getHeader (d lg.start) = [])
    (hhome : ∀ b, ¬ lg.Contains b → d b = D b) : Recoverable lg D [] d where
  header := hheader
  length_le_logsize := Nat.zero_le _
  length_le_size := Nat.zero_le _
  outside := by
    intro i hi
    simp at hi
  copies := by
    intro i hi
    simp at hi
  home := fun b hb _ => hhome b hb

theorem home_of_empty (h : Recoverable lg D [] d) (hb : ¬ lg.Contains b) : d b = D b :=
  h.home b hb (by simp)

theorem write_slot (h : Recoverable lg D [] d) (hb : lg.Contains b)
    (hne : b ≠ lg.start) (data : Block) : Recoverable lg D [] (update d b data) := by
  apply of_empty
  · rw [update_of_ne hne.symm]
    exact h.header
  · intro c hc
    have hcb : c ≠ b := by
      rintro rfl
      exact hc hb
    rw [update_of_ne hcb]
    exact h.home_of_empty hc

theorem install (h : Recoverable lg D lh d) (hi : i < lh.length) :
    Recoverable lg D lh (update d (homeBlock lh i) (D (homeBlock lh i))) := by
  have hout := h.outside i hi
  have hne : ∀ b, lg.Contains b → b ≠ homeBlock lh i := by
    rintro b hb rfl
    exact hout hb
  refine ⟨?_, h.length_le_logsize, h.length_le_size, h.outside, ?_, ?_⟩
  · rw [update_of_ne (hne _ lg.contains_start)]
    exact h.header
  · intro j hj
    rw [update_of_ne (hne _ (Area.contains_slot h.length_le_size hj))]
    exact h.copies j hj
  · intro b hb hfree
    rw [update_of_ne (hfree i hi).symm]
    exact h.home b hb hfree

end Recoverable

section Rules

variable {α : Type} {P : Nat → Machine → Prop} {C : Nat → Machine → Prop}

theorem triple_bread {k : Block → BioM α} {Q : Nat → α → Machine → Prop} (hC : ∀ n m, P n m → C n m)
    (hk : ∀ data, Triple bio (isCommitRecord lg)
      (fun n m => P n m ∧ data = (m.cache b).getD (m.disk b)) (k data) Q C) :
    Triple bio (isCommitRecord lg) P (bread b >>= k) Q C := by
  rw [bread, Prog.ask_bind]
  apply Triple.op hC
  intro n m data m' hP hop
  cases hop
  apply (hk _).consequence
  · rintro n' m' ⟨rfl, rfl⟩
    exact ⟨hP, rfl⟩
  · exact fun _ _ _ h => h

theorem triple_bwrite {data : Block} {Q : Nat → Machine → Prop}
    (hC : ∀ n m, P n m → C n m) (hQC : ∀ n m, Q n m → C n m)
    (hQ : ∀ n m, P n m → Q (n + if isCommitRecord lg (.bwrite b data) then 1 else 0)
        ⟨update m.disk b data, update m.cache b none⟩) :
    Triple bio (isCommitRecord lg) P (bwrite b data) (fun n _ m => Q n m) C := by
  rw [bwrite, Prog.ask]
  apply Triple.op hC
  intro n m r m' hP hop
  cases hop
  apply Triple.ret
  · rintro n' m' ⟨rfl, rfl⟩
    exact hQ n m hP
  · rintro n' m' ⟨rfl, rfl⟩
    exact hQC _ _ (hQ n m hP)

theorem triple_modify {data : Block} {Q : Nat → Machine → Prop} (hC : ∀ n m, P n m → C n m)
    (hQC : ∀ n m, Q n m → C n m)
    (hQ : ∀ n m, P n m → Q n { m with cache := update m.cache b (some data) }) :
    Triple bio (isCommitRecord lg) P (modify b data) (fun n _ m => Q n m) C := by
  rw [modify, Prog.ask]
  apply Triple.op hC
  intro n m r m' hP hop
  cases hop
  apply Triple.ret
  · rintro n' m' ⟨hn', rfl⟩
    rw [hn']
    exact hQ n m hP
  · rintro n' m' ⟨hn', rfl⟩
    rw [hn']
    exact hQC _ _ (hQ n m hP)

end Rules

/-! ## Installing and clearing

`target n` is the disk that a crash after `n` commit records has to recover. -/

section Phases

variable (target : Nat → Disk) (n0 : Nat) (lh : List (BitVec 32))

def CanRecover (lg : Area) (target : Nat → Disk) (n : Nat) (m : Machine) : Prop :=
  ∃ lh, Recoverable lg (target n) lh m.disk

/-- The first `i` logged blocks are home, and the cache holds nothing but the
logged blocks still to come. -/
structure Installed (lg : Area) (D : Disk) (lh : List (BitVec 32)) (i : Nat) (m : Machine) :
    Prop where
  recoverable : Recoverable lg D lh m.disk
  done : ∀ j, j < i → m.disk (homeBlock lh j) = D (homeBlock lh j)
  uncached : ∀ b, (∀ j, i ≤ j → j < lh.length → homeBlock lh j ≠ b) → m.cache b = none

variable {lh} in
theorem Installed.slot_uncached {D : Disk} {i j : Nat} (h : Installed lg D lh i m)
    (hj : j < lh.length) : m.cache (lg.start + j + 1) = none := by
  apply h.uncached
  intro k _ hk heq
  apply h.recoverable.outside k hk
  rw [heq]
  exact Area.contains_slot h.recoverable.length_le_size hj

variable {lh} in
theorem Installed.next {D : Disk} (h : Installed lg D lh i m) (hi : i < lh.length) :
    Installed lg D lh (i + 1)
      ⟨update m.disk (homeBlock lh i) (D (homeBlock lh i)),
        update m.cache (homeBlock lh i) none⟩ := by
  refine ⟨h.recoverable.install hi, ?_, ?_⟩
  · intro j hj
    by_cases hji : homeBlock lh j = homeBlock lh i
    · simp only [hji, update_self]
    · simp only [update_of_ne hji]
      apply h.done j
      by_contra hnot
      have hjeq : j = i := by omega
      exact hji (by rw [hjeq])
  · intro b hb
    by_cases hbi : b = homeBlock lh i
    · simp only [hbi, update_self]
    · simp only [update_of_ne hbi]
      apply h.uncached b
      intro j hij hj
      by_cases hjeq : j = i
      · rw [hjeq]
        exact fun heq => hbi heq.symm
      · exact hb j (by omega) hj

theorem triple_installTrans :
    Triple bio (isCommitRecord lg) (fun n m => n = n0 ∧ Installed lg (target n0) lh 0 m)
      (installTrans lg lh)
      (fun n _ m => n = n0 ∧ Installed lg (target n0) lh lh.length m)
      (CanRecover lg target) := by
  have hcrash : ∀ i n m, n = n0 ∧ Installed lg (target n0) lh i m → CanRecover lg target n m := by
    rintro i n m ⟨rfl, h⟩
    exact ⟨lh, h.recoverable⟩
  apply Triple.forRange lh.length _ fun i n m => n = n0 ∧ Installed lg (target n0) lh i m
  · intro i hi
    apply triple_bread (hcrash i)
    intro lbuf
    apply triple_bread
    · exact fun n m h => hcrash i n m h.1
    intro _dbuf
    apply triple_bwrite
    · exact fun n m h => hcrash i n m h.1.1
    · exact hcrash (i + 1)
    · rintro n m ⟨⟨⟨rfl, h⟩, rfl⟩, -⟩
      have hne : homeBlock lh i ≠ lg.start := by
        intro heq
        apply h.recoverable.outside i hi
        rw [heq]
        exact lg.contains_start
      -- The copy in the log is what the crash target has in this block.
      rw [h.slot_uncached hi, Option.getD_none, h.recoverable.copies i hi]
      refine ⟨?_, h.next hi⟩
      simp [isCommitRecord, hne]
  · exact hcrash lh.length

theorem triple_writeHead_clear : Triple bio (isCommitRecord lg)
      (fun n m => n = n0 ∧ Installed lg (target n0) lh lh.length m)
      (writeHead lg [])
      (fun n _ m => n = n0 ∧ Installed lg (target n0) [] 0 m)
      (CanRecover lg target) := by
  have hcrash : ∀ n m, n = n0 ∧ Installed lg (target n0) lh lh.length m →
      CanRecover lg target n m := by
    rintro n m ⟨rfl, h⟩
    exact ⟨lh, h.recoverable⟩
  apply triple_bread hcrash
  intro hb
  apply triple_bwrite
  · exact fun n m h => hcrash n m h.1
  · rintro n m ⟨rfl, h⟩
    exact ⟨[], h.recoverable⟩
  · rintro n m ⟨⟨rfl, h⟩, rfl⟩
    refine ⟨?_, ?_, ?_, ?_⟩
    · simp [isCommitRecord, headerCount_putHeader]
    · apply Recoverable.of_empty
      · simp
      · intro b hb
        have hne : b ≠ lg.start := by
          rintro rfl
          exact hb lg.contains_start
        simp only [update_of_ne hne]
        by_cases hlisted : ∃ j, j < lh.length ∧ homeBlock lh j = b
        · obtain ⟨j, hj, rfl⟩ := hlisted
          exact h.done j hj
        · apply h.recoverable.home b hb
          intro j hj heq
          exact hlisted ⟨j, hj, heq⟩
    · intro j hj
      omega
    · intro b _
      by_cases hbs : b = lg.start
      · simp only [hbs, update_self]
      · simp only [update_of_ne hbs]
        apply h.uncached b
        intro j hlow hhigh
        omega

end Phases

theorem installed_boot {D d : Disk} (h : Recoverable lg D lh d) : Installed lg D lh 0 (boot d) where
  recoverable := h
  done := by
    intro j hj
    omega
  uncached := fun _ _ => rfl

/-- Recovery keeps the disk recoverable to the same disk at every write and, when
it completes, has reached it. -/
theorem triple_recoverFromLog (D : Disk) : Triple bio (isCommitRecord lg)
      (fun _ m => ∃ d lh, m = boot d ∧ Recoverable lg D lh d) (recoverFromLog lg)
      (fun _ _ m => Recoverable lg D [] m.disk)
      (CanRecover lg fun _ => D) := by
  intro n m hP
  obtain ⟨d, lh, rfl, hrec⟩ := hP
  have hcrash : ∀ k m, k = n ∧ m = boot d → CanRecover lg (fun _ => D) k m := by
    rintro k m ⟨-, rfl⟩
    exact ⟨lh, hrec⟩
  have hprog : Triple bio (isCommitRecord lg) (fun k m => k = n ∧ m = boot d)
      (recoverFromLog lg) (fun _ _ m => Recoverable lg D [] m.disk)
      (CanRecover lg fun _ => D) := by
    unfold recoverFromLog readHead
    rw [Prog.bind_assoc]
    apply triple_bread hcrash
    intro buf
    rw [Prog.pure_eq, Prog.ret_bind]
    apply Triple.bind (Q := fun k _ m => k = n ∧ Installed lg D lh lh.length m)
    · by_cases hbuf : buf = d lg.start
      · subst hbuf
        rw [hrec.header]
        apply (triple_installTrans (fun _ => D) n lh).consequence
        · rintro k m ⟨⟨rfl, rfl⟩, -⟩
          exact ⟨rfl, installed_boot hrec⟩
        · exact fun _ _ _ h => h
      · intro k m hm
        obtain ⟨⟨-, rfl⟩, rfl⟩ := hm
        exact absurd rfl hbuf
    · intro _
      apply (triple_writeHead_clear (fun _ => D) n lh).consequence
      · exact fun _ _ h => h
      · exact fun _ _ _ h => h.2.recoverable
  exact hprog n (boot d) ⟨rfl, rfl⟩

theorem Recovered.home {D d d' : Disk} (hrec : Recovered lg d d')
    (h : ∃ lh, Recoverable lg D lh d) : ∀ b, ¬ lg.Contains b → d' b = D b := by
  induction hrec with
  | @done d tr m hrun =>
    obtain ⟨lh, hlh⟩ := h
    have hend := (triple_recoverFromLog D 0 (boot d) ⟨d, lh, rfl, hlh⟩ _ _ _ hrun).2 () rfl
    exact fun b hb => hend.home_of_empty hb
  | @crash d d' tr q m hexec _ ih =>
    obtain ⟨lh, hlh⟩ := h
    exact ih (triple_recoverFromLog D 0 (boot d) ⟨d, lh, rfl, hlh⟩ _ _ _ hexec).1

theorem foldl_store_of_not_mem (ws : List (BitVec 32 × Block)) (d : Disk)
    (h : ∀ x ∈ ws, x.1.toNat ≠ b) : ws.foldl store d b = d b := by
  induction ws generalizing d with
  | nil => rfl
  | cons x ws ih =>
    rw [foldl_cons, ih _ fun y hy => h y (mem_cons_of_mem _ hy)]
    exact update_of_ne (h x mem_cons_self).symm _ _

theorem foldl_store_of_mem (ws : List (BitVec 32 × Block)) (d : Disk)
    (hdistinct : (ws.map Prod.fst).Nodup) (hx : x ∈ ws) : ws.foldl store d x.1.toNat = x.2 := by
  induction ws generalizing d with
  | nil => simp at hx
  | cons y ws ih =>
    rw [map_cons, nodup_cons] at hdistinct
    rw [foldl_cons]
    rcases mem_cons.mp hx with rfl | hx
    · rw [foldl_store_of_not_mem]
      · exact update_self ..
      · intro z hz heq
        apply hdistinct.1
        rw [← BitVec.eq_of_toNat_eq heq]
        exact mem_map_of_mem hz
    · exact ih _ hdistinct.2 hx

namespace Transaction

variable (tx : Transaction lg)

@[simp] theorem length_blocks : tx.blocks.length = tx.writes.length := by
  simp [blocks]

theorem homeBlock_eq (hx : tx.writes[i]? = some x) : homeBlock tx.blocks i = x.1.toNat := by
  simp [homeBlock, blocks, getD_eq_getElem?_getD, hx]

theorem exists_write (hi : i < tx.blocks.length) : ∃ x, tx.writes[i]? = some x := by
  rw [length_blocks] at hi
  exact ⟨tx.writes[i], List.getElem?_eq_getElem hi⟩

theorem apply_home (D : Disk)
    (hx : tx.writes[i]? = some x) : tx.apply D (homeBlock tx.blocks i) = x.2 := by
  rw [tx.homeBlock_eq hx]
  exact foldl_store_of_mem _ _ tx.distinct (mem_of_getElem? hx)

theorem apply_other (D : Disk)
    (h : ∀ i, i < tx.blocks.length → homeBlock tx.blocks i ≠ b) : tx.apply D b = D b := by
  apply foldl_store_of_not_mem
  intro x hx
  obtain ⟨i, hi, hget⟩ := mem_iff_getElem.mp hx
  have hx' : tx.writes[i]? = some x := by
    rw [List.getElem?_eq_getElem hi, hget]
  rw [← tx.homeBlock_eq hx']
  exact h i (by rwa [length_blocks])

theorem home_outside (hi : i < tx.blocks.length) : ¬ lg.Contains (homeBlock tx.blocks i) := by
  obtain ⟨x, hx⟩ := tx.exists_write hi
  rw [tx.homeBlock_eq hx]
  exact tx.outside x (mem_of_getElem? hx)

/-- The first `i` changes of the transaction are pinned in the cache, nothing
else is, and the disk still is `D`. -/
structure Pinned (tx : Transaction lg) (D : Disk) (i : Nat) (m : Machine) : Prop where
  clean : Recoverable lg D [] m.disk
  cached : ∀ j, j < i → m.cache (homeBlock tx.blocks j) =
    some (tx.apply D (homeBlock tx.blocks j))
  uncached : ∀ b, (∀ j, j < i → homeBlock tx.blocks j ≠ b) → m.cache b = none

variable {tx} (target : Nat → Disk) (n0 : Nat)

theorem triple_modifies :
    Triple bio (isCommitRecord lg) (fun n m => n = n0 ∧ Installed lg (target n0) [] 0 m)
      (tx.writes.forM fun x => modify x.1.toNat x.2)
      (fun n _ m => n = n0 ∧ Pinned tx (target n0) tx.blocks.length m)
      (CanRecover lg target) := by
  have hcrash : ∀ i n m, n = n0 ∧ Pinned tx (target n0) i m → CanRecover lg target n m := by
    rintro i n m ⟨rfl, h⟩
    exact ⟨[], h.clean⟩
  rw [length_blocks]
  apply (Triple.forM tx.writes (fun x => modify x.1.toNat x.2)
    (fun i n m => n = n0 ∧ Pinned tx (target n0) i m) ?_ (hcrash _)).consequence
  · rintro n m ⟨rfl, h⟩
    refine ⟨rfl, h.recoverable, ?_, ?_⟩
    · intro j hj
      omega
    · intro b _
      exact h.uncached b (by simp)
  · exact fun _ _ _ h => h
  · intro i x hx
    apply triple_modify (hcrash i) (hcrash (i + 1))
    rintro n m ⟨rfl, h⟩
    rw [← tx.homeBlock_eq hx, ← tx.apply_home (target n) hx]
    refine ⟨rfl, h.clean, ?_, ?_⟩
    · intro j hj
      by_cases hji : homeBlock tx.blocks j = homeBlock tx.blocks i
      · simp only [hji, update_self]
      · simp only [update_of_ne hji]
        apply h.cached j
        by_contra hnot
        have hjeq : j = i := by omega
        exact hji (by rw [hjeq])
    · intro b hb
      simp only [update_of_ne (hb i (by omega)).symm]
      exact h.uncached b fun j hj => hb j (by omega)

/-- The whole transaction is pinned and its first `i` blocks are in the log. -/
structure Logged (tx : Transaction lg) (D : Disk) (i : Nat) (m : Machine) : Prop where
  pinned : Pinned tx D tx.blocks.length m
  copied : ∀ j, j < i → m.disk (lg.start + j + 1) = tx.apply D (homeBlock tx.blocks j)

theorem Pinned.uncached_of_contains {D : Disk} (h : Pinned tx D tx.blocks.length m)
    (hb : lg.Contains b) : m.cache b = none := by
  apply h.uncached
  rintro j hj rfl
  exact tx.home_outside hj hb

theorem Logged.next {D : Disk} (h : Logged tx D i m) (hi : i < tx.blocks.length) :
    Logged tx D (i + 1)
      ⟨update m.disk (lg.start + i + 1) (tx.apply D (homeBlock tx.blocks i)),
        update m.cache (lg.start + i + 1) none⟩ := by
  have hslot : lg.Contains (lg.start + i + 1) := by
    have hsize : tx.blocks.length ≤ lg.size - 1 := by
      rw [length_blocks]
      exact tx.length_le_size
    exact Area.contains_slot hsize hi
  have hcache : update m.cache (lg.start + i + 1) none = m.cache := by
    rw [update_eq_self_iff]
    exact (h.pinned.uncached_of_contains hslot).symm
  refine ⟨⟨?_, ?_, ?_⟩, ?_⟩
  · exact h.pinned.clean.write_slot hslot (by omega) _
  · rw [hcache]
    exact h.pinned.cached
  · rw [hcache]
    exact h.pinned.uncached
  · intro j hj
    by_cases hji : j = i
    · simp only [hji, update_self]
    · have hne : lg.start + j + 1 ≠ lg.start + i + 1 := by omega
      simp only [update_of_ne hne]
      exact h.copied j (by omega)

theorem triple_writeLog :
    Triple bio (isCommitRecord lg) (fun n m => n = n0 ∧ Logged tx (target n0) 0 m)
      (writeLog lg tx.blocks)
      (fun n _ m => n = n0 ∧ Logged tx (target n0) tx.blocks.length m)
      (CanRecover lg target) := by
  have hcrash : ∀ i n m, n = n0 ∧ Logged tx (target n0) i m → CanRecover lg target n m := by
    rintro i n m ⟨rfl, h⟩
    exact ⟨[], h.pinned.clean⟩
  apply Triple.forRange tx.blocks.length _ fun i n m => n = n0 ∧ Logged tx (target n0) i m
  · intro i hi
    apply triple_bread (hcrash i)
    intro _to
    apply triple_bread
    · exact fun n m h => hcrash i n m h.1
    intro frm
    apply triple_bwrite
    · exact fun n m h => hcrash i n m h.1.1
    · exact hcrash (i + 1)
    · rintro n m ⟨⟨⟨rfl, h⟩, -⟩, rfl⟩
      rw [h.pinned.cached i hi, Option.getD_some]
      refine ⟨?_, h.next hi⟩
      have hne : lg.start + i + 1 ≠ lg.start := by omega
      simp [isCommitRecord, hne]
  · exact hcrash _

section

variable (hne : 0 < tx.blocks.length) (htarget : target (n0 + 1) = tx.apply (target n0))

include hne htarget

/-- The commit record.  Before it the disk recovers to `target n0`, after it to
`target (n0 + 1)`; both hold the same blocks outside the transaction. -/
theorem triple_writeHead_commit :
    Triple bio (isCommitRecord lg)
      (fun n m => n = n0 ∧ Logged tx (target n0) tx.blocks.length m)
      (writeHead lg tx.blocks)
      (fun n _ m => n = n0 + 1 ∧ Installed lg (target (n0 + 1)) tx.blocks 0 m)
      (CanRecover lg target) := by
  have hlen : tx.blocks.length ≤ LOGSIZE := by
    rw [length_blocks]
    exact tx.length_le_logsize
  have hsize : tx.blocks.length ≤ lg.size - 1 := by
    rw [length_blocks]
    exact tx.length_le_size
  have hcrash : ∀ n m, n = n0 ∧ Logged tx (target n0) tx.blocks.length m →
      CanRecover lg target n m := by
    rintro n m ⟨rfl, h⟩
    exact ⟨[], h.pinned.clean⟩
  apply triple_bread hcrash
  intro hb
  apply triple_bwrite
  · exact fun n m h => hcrash n m h.1
  · rintro n m ⟨rfl, h⟩
    exact ⟨tx.blocks, h.recoverable⟩
  · rintro n m ⟨⟨rfl, h⟩, rfl⟩
    have hmark : ∀ hb, isCommitRecord lg (.bwrite lg.start (putHeader hb tx.blocks)) = true := by
      intro hb
      have hcount : (tx.blocks.length : Int) ≠ 0 := by omega
      simp only [isCommitRecord, headerCount_putHeader _ _ hlen, bne_iff_ne.mpr hcount]
      simp
    rw [if_pos (hmark _), htarget]
    refine ⟨rfl, ⟨?_, hlen, hsize, fun i hi => tx.home_outside hi, ?_, ?_⟩, ?_, ?_⟩
    · simp only [update_self]
      exact getHeader_putHeader _ _ hlen
    · intro i hi
      have hslot : lg.start + i + 1 ≠ lg.start := by omega
      simp only [update_of_ne hslot]
      exact h.copied i hi
    · intro b hb hfree
      have hbs : b ≠ lg.start := by
        rintro rfl
        exact hb lg.contains_start
      simp only [update_of_ne hbs]
      rw [tx.apply_other _ hfree]
      exact h.pinned.clean.home_of_empty hb
    · intro j hj
      omega
    · intro b hb
      by_cases hbs : b = lg.start
      · simp only [hbs, update_self]
      · simp only [update_of_ne hbs]
        exact h.pinned.uncached b fun j hj => hb j (Nat.zero_le j) hj

/-- A transaction that recorded at least one block takes the crash target from
`target n0` to `target (n0 + 1)` at its commit record, and ends on a clean disk. -/
theorem triple_prog :
    Triple bio (isCommitRecord lg) (fun n m => n = n0 ∧ Installed lg (target n0) [] 0 m)
      tx.prog
      (fun n _ m => n = n0 + 1 ∧ Installed lg (target (n0 + 1)) [] 0 m)
      (CanRecover lg target) := by
  unfold prog commit
  rw [if_pos hne]
  apply Triple.bind (triple_modifies target n0)
  intro _
  apply Triple.bind
  · apply (triple_writeLog target n0).consequence
    · rintro n m ⟨rfl, h⟩
      refine ⟨rfl, h, ?_⟩
      intro j hj
      omega
    · exact fun _ _ _ h => h
  intro _
  apply Triple.bind (triple_writeHead_commit target n0 hne htarget)
  intro _
  apply Triple.bind (triple_installTrans target (n0 + 1) tx.blocks)
  intro _
  exact triple_writeHead_clear target (n0 + 1) tx.blocks

end

theorem triple_prog_empty (hempty : tx.writes = []) :
    Triple bio (isCommitRecord lg) (fun n m => n = n0 ∧ Installed lg (target n0) [] 0 m)
      tx.prog (fun n _ m => n = n0 ∧ Installed lg (target n0) [] 0 m)
      (CanRecover lg target) := by
  have hprog : tx.prog = .ret () := by
    simp [prog, commit, blocks, hempty]
  rw [hprog]
  apply Triple.ret
  · exact fun _ _ h => h
  · rintro n m ⟨rfl, h⟩
    exact ⟨[], h.recoverable⟩

end Transaction

def recorded (txs : List (Transaction lg)) : List (Transaction lg) :=
  txs.filter fun tx => !tx.writes.isEmpty

theorem triple_runAll (d0 : Disk) (done txs : List (Transaction lg)) :
    Triple bio (isCommitRecord lg)
      (fun n m => n = done.length ∧ Installed lg (applyAll d0 done) [] 0 m)
      (runAll txs) (fun _ _ _ => True)
      (CanRecover lg fun n => applyAll d0 ((done ++ recorded txs).take n)) := by
  induction txs generalizing done with
  | nil =>
    apply Triple.ret
    · exact fun _ _ _ => trivial
    · rintro n m ⟨rfl, h⟩
      refine ⟨[], ?_⟩
      simpa [recorded] using h.recoverable
  | cons tx txs ih =>
    change Triple bio (isCommitRecord lg) _ (tx.prog >>= fun _ => runAll txs) _ _
    by_cases hempty : tx.writes = []
    · have hrecorded : recorded (tx :: txs) = recorded txs := by
        simp [recorded, hempty]
      rw [hrecorded]
      apply Triple.bind (Q := fun n _ m =>
        n = done.length ∧ Installed lg (applyAll d0 done) [] 0 m)
      · have hdone : (done ++ recorded txs).take done.length = done := by simp
        have hprog := Transaction.triple_prog_empty
          (fun n => applyAll d0 ((done ++ recorded txs).take n)) done.length hempty
        simpa only [hdone] using hprog
      · intro _
        exact ih done
    · have hrecorded : done ++ recorded (tx :: txs) = done ++ [tx] ++ recorded txs := by
        simp [recorded, hempty]
      rw [hrecorded]
      apply Triple.bind (Q := fun n _ m =>
        n = (done ++ [tx]).length ∧ Installed lg (applyAll d0 (done ++ [tx])) [] 0 m)
      · have hbefore : (done ++ [tx] ++ recorded txs).take done.length = done := by simp
        have hafter : (done ++ [tx] ++ recorded txs).take (done.length + 1) = done ++ [tx] := by
          simp [take_append]
        have hstep : applyAll d0 (done ++ [tx]) = tx.apply (applyAll d0 done) := by
          simp [applyAll]
        have hlen : 0 < tx.blocks.length := by
          rw [Transaction.length_blocks]
          exact length_pos_of_ne_nil hempty
        have hprog := Transaction.triple_prog
          (fun n => applyAll d0 ((done ++ [tx] ++ recorded txs).take n)) done.length hlen
          (by rw [hbefore, hafter, hstep])
        simpa only [hbefore, hafter, length_append, length_singleton] using hprog
      · intro _
        exact ih (done ++ [tx])

theorem exists_runs (p : BioM Unit) (m : Machine) : ∃ tr m', Runs bio p m tr () m' := by
  induction p generalizing m with
  | ret a => exact ⟨[], m, .refl _ _⟩
  | op o k ih =>
    cases o with
    | bread b | bwrite b data | modify b data =>
      obtain ⟨tr, m', h⟩ := ih _ _
      exact ⟨_, m', .step rfl h⟩

/-- Crash atomicity: however the run of transactions is cut and however often
recovery is cut, the recovery that completes leaves outside the log the initial
disk with exactly the transactions applied whose commit record was written. -/
theorem crash_atomic (lg : Area) (d0 : Disk) (hclean : headerCount (d0 lg.start) = 0)
    (txs : List (Transaction lg)) (tr : List (BioOp × Machine)) (q : BioM Unit) (m : Machine)
    (hexec : Exec bio (runAll txs) (boot d0) tr q m) :
    (∃ d', Recovered lg m.disk d') ∧
      ∀ d', Recovered lg m.disk d' → ∀ b, ¬ lg.Contains b →
        d' b = applyAll d0
          ((recorded txs).take (tr.countP fun x => isCommitRecord lg x.1)) b := by
  constructor
  · obtain ⟨tr', m', hrun⟩ := exists_runs (recoverFromLog lg) (boot m.disk)
    exact ⟨m'.disk, .done hrun⟩
  · intro d' hrec b hb
    have hinit : Installed lg (applyAll d0 ([] : List (Transaction lg))) [] 0 (boot d0) :=
      installed_boot (Recoverable.of_empty (getHeader_eq_nil_of_count hclean) fun _ _ => rfl)
    have hcan := (triple_runAll d0 [] txs 0 (boot d0) ⟨rfl, hinit⟩ tr q m hexec).1
    rw [Nat.zero_add] at hcan
    exact hrec.home hcan b hb

def sampleArea : Area := ⟨2, 30, by decide⟩

def sampleTx : Transaction sampleArea where
  writes := [(100, 7)]
  distinct := by decide
  length_le_logsize := by decide
  length_le_size := by decide
  outside := by
    intro x hx
    rw [mem_singleton.mp hx]
    decide

/-- A power cut right after the commit record of a transaction on block 100: the
block is still old on the disk, and recovery installs it. -/
theorem crash_atomic_after_record :
    ∃ tr q m, Exec bio (runAll [sampleTx]) (boot fun _ => 0) tr q m ∧
      tr.countP (fun x => isCommitRecord sampleArea x.1) = 1 ∧ m.disk 100 = 0 ∧
      ∀ d', Recovered sampleArea m.disk d' → d' 100 = 7 := by
  have hexec : Exec bio (runAll [sampleTx]) (boot fun _ => 0) _ _ _ :=
    .step rfl (.step rfl (.step rfl (.step rfl (.step rfl (.step rfl (.refl _ _))))))
  refine ⟨_, _, _, hexec, by decide +kernel, by decide +kernel, ?_⟩
  intro d' hrec
  have h := (crash_atomic sampleArea (fun _ => 0) (by decide +kernel) [sampleTx] _ _ _
    hexec).2 d' hrec 100 (by decide)
  exact h.trans (by decide +kernel)

end Xv6.Log
