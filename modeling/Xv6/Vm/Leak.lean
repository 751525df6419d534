import Xv6.Lib.Blind
import Xv6.Vm.Pages

/-!
# A run that loses pages

Building an image does not depend on what a null pointer would show, so that the word at
address 0 can be taken to name any page that is free once the image is there.  A string that
starts one page below the devices is then copied over that page's link.
-/

namespace Xv6.Vm

open Lib Lib.Act List

/-- The reads through a null pointer find `x`. -/
def Mem.withNull (x : Option Pte) (m : Mem) : Mem := { m with null := fun _ => x }

variable {L : Layout} {A : Pages L} {E : String → Prop} {m m' : Mem} {rest : Multiset Nat}
  {d : Pgdir} {x : Option Pte} {sz : Nat} {s : Kernel} {ip : Inode}

theorem blind_kalloc : Blind (Mem.withNull x) kalloc := by
  apply Blind.get
  · exact fun _ => rfl
  · intro m
    refine .bind (.modify fun _ => rfl) fun _ => .ite (.pure _) ?_
    cases m.freelist with
    | none => exact .pure _
    | some f => exact .bind (.modify fun _ => rfl) fun _ => .pure _

theorem blind_kfree (f : Nat) : Blind (Mem.withNull x) (kfree L f) :=
  .ite (.panic _) (.modify fun _ => rfl)

theorem blind_fillPage (f : Nat) (p : Nat → UInt8) : Blind (Mem.withNull x) (fillPage f p) :=
  .modify fun _ => rfl

theorem blind_walkpgdir (n : Nat) (alloc : Bool) :
    Blind (Mem.withNull x) (walkpgdir d n alloc) := by
  unfold walkpgdir
  cases d.table (n / NPTENTRIES) with
  | some t => exact .pure _
  | none =>
    refine .ite (.bind blind_kalloc fun r => ?_) (.pure _)
    cases r <;> exact .pure _

theorem blind_mapPage (n : Nat) (y : Pte) : Blind (Mem.withNull x) (mapPage d n y) := by
  refine .bind (blind_walkpgdir _ _) fun r => ?_
  cases r with
  | none => exact .pure _
  | some d' =>
    simp only
    cases d'.pte n with
    | none => exact .pure _
    | some _ => exact .panic _

theorem blind_mapLoop (w u : Bool) (k n f : Nat) :
    Blind (Mem.withNull x) (mapLoop w u k n f d) := by
  induction k generalizing n f d with
  | zero => exact blind_mapPage _ _
  | succ k ih =>
    rw [mapLoop]
    refine .bind (blind_mapPage _ _) fun r => ?_
    exact .ite (ih _ _) (.pure _)

theorem blind_mappages (va size pa : Nat) (w u : Bool) :
    Blind (Mem.withNull x) (mappages d va size pa w u) := blind_mapLoop _ _ _ _ _

theorem blind_deallocuvm (oldsz newsz : Nat) :
    Blind (Mem.withNull x) (deallocuvm L d oldsz newsz) := by
  refine .ite (.pure _) (.bind ?_ fun _ => .pure _)
  generalize pageUp newsz = a
  induction a, d using deallocLoop.induct oldsz with
  | case1 a d hlt hnone ih =>
    rw [deallocLoop, if_pos hlt]
    simp only [hnone]
    exact ih
  | case2 a d hlt t ht hentry ih =>
    rw [deallocLoop, if_pos hlt]
    simp only [ht, hentry]
    exact ih
  | case3 a d hlt t ht p hentry hzero =>
    rw [deallocLoop, if_pos hlt]
    simp only [ht, hentry]
    rw [if_pos hzero]
    exact .panic _
  | case4 a d hlt t ht p hentry hzero ih =>
    rw [deallocLoop, if_pos hlt]
    simp only [ht, hentry]
    rw [if_neg hzero]
    exact .bind (blind_kfree _) fun _ => ih
  | case5 a d hlt =>
    rw [deallocLoop, if_neg hlt]
    exact .pure _

theorem blind_freevm : Blind (Mem.withNull x) (freevm L d) := by
  refine .bind (blind_deallocuvm _ _) fun r => .bind ?_ fun _ => blind_kfree _
  generalize List.range NPTENTRIES = l
  induction l with
  | nil => exact .pure _
  | cons i l ih =>
    rw [freeTables]
    cases r.2.table i with
    | none => exact ih
    | some t => exact .bind (blind_kfree _) fun _ => ih

theorem blind_allocLoop (oldsz newsz k a : Nat) :
    Blind (Mem.withNull x) (allocLoop L oldsz newsz k a d) := by
  induction k generalizing a d with
  | zero => exact .pure _
  | succ k ih =>
    rw [allocLoop]
    refine .bind blind_kalloc fun r => ?_
    cases r with
    | none => exact .bind (blind_deallocuvm _ _) fun _ => .pure _
    | some f =>
      refine .bind (blind_fillPage _ _) fun _ => .bind (blind_mappages _ _ _ _ _) fun r => ?_
      refine .ite (ih _) (.bind (blind_deallocuvm _ _) fun _ => ?_)
      exact .bind (blind_kfree _) fun _ => .pure _

theorem blind_allocuvm (oldsz newsz : Nat) : Blind (Mem.withNull x) (allocuvm L d oldsz newsz) :=
  .ite (.pure _) (.ite (.pure _) (blind_allocLoop _ _ _ _))

theorem blind_setupkvm : Blind (Mem.withNull x) (setupkvm L) := by
  refine .bind blind_kalloc fun r => ?_
  cases r with
  | none => exact .pure _
  | some f =>
    simp only
    generalize kmap L = l, Pgdir.new f = d
    induction l generalizing d with
    | nil => exact .pure _
    | cons k l ih =>
      rw [setupLoop]
      refine .bind (blind_mappages _ _ _ _ _) fun r => ?_
      exact .ite (ih _) (.bind blind_freevm fun _ => .pure _)

theorem blind_execStack : Blind (Mem.withNull x) (execStack L sz d) := by
  refine .bind (blind_allocuvm _ _) fun r => .ite (.bind blind_freevm fun _ => .pure _) ?_
  refine .bind (.bind (blind_walkpgdir _ _) fun r => ?_) fun _ => .pure _
  cases r with
  | none => exact .panic _
  | some d => exact .pure _

theorem blind_loaduvm (va offset len : Nat) :
    Blind (Mem.withNull x) (loaduvm d va ip offset len) := by
  refine .ite (.panic _) ?_
  generalize pageUp len = k, 0 = i
  induction k generalizing i d with
  | zero => exact .pure _
  | succ k ih =>
    rw [loadLoop]
    refine .bind (blind_walkpgdir _ _) fun r => ?_
    cases r with
    | none => exact .panic _
    | some d =>
      simp only
      cases ip.readi ((offset + i * PGSIZE) % 2 ^ 32) (min PGSIZE (len - i * PGSIZE)) with
      | none => exact .pure _
      | some c =>
        refine .get (fun _ => rfl) fun m => .bind (.modify fun _ => rfl) fun _ => ?_
        exact .ite (ih _) (.pure _)

theorem blind_loadSegments (k off : Nat) :
    Blind (Mem.withNull x) (loadSegments L ip k off sz d) := by
  induction k generalizing off sz d with
  | zero => exact .pure _
  | succ k ih =>
    rw [loadSegments]
    refine .ite (.pure _) (.ite (ih _) (.ite (.pure _) (.ite (.pure _) ?_)))
    refine .bind (blind_allocuvm _ _) fun r => .ite (.pure _) (.ite (.pure _) ?_)
    exact .bind (blind_loaduvm _ _ _) fun ok => .ite (ih _) (.pure _)

theorem blind_execImage : Blind (Mem.withNull x) (execImage L ip) := by
  refine .ite (.pure _) (.ite (.pure _) (.bind blind_setupkvm fun r => ?_))
  cases r with
  | none => exact .pure _
  | some d =>
    refine .bind (blind_loadSegments _ _) fun r => ?_
    cases r.1 with
    | none => exact .bind blind_freevm fun _ => .pure _
    | some sz => exact blind_execStack

variable {y : Pte}

theorem wp_uva2ka_null {n : Nat} (h : ¬ d.HasTable (n / NPTENTRIES))
    (hnull : ∀ i, m.null i = some y) (hu : y.user = true) {Q : Option Nat → Mem → Prop}
    (hQ : Q (some y.frame) { m with nulls := n :: m.nulls }) : wp E (uva2ka d n) Q m := by
  have hnone : d.table (n / NPTENTRIES) = none := not_not.mp h
  unfold uva2ka readPte walkpgdir
  rw [hnone]
  simp only [Bool.false_eq_true, if_false]
  rw [wp_bind, wp_bind, wp_pure]
  simp only
  rw [wp_bind, wp_get, wp_bind, wp_modify, wp_pure, hnull]
  simp only
  rw [if_pos hu, wp_pure]
  exact hQ

/-- Where there is no page table `copyout` writes to the page that the null pointer shows,
until it comes to the devices. -/
theorem wp_copyout_null {va len : Nat} {buf : Nat → UInt8} (h : Stacked sz d)
    (hlo : KERNBASE + PHYSTOP ≤ va) (hhi : va < DEVSPACE) (hlen : DEVSPACE < va + len)
    (hnull : ∀ i, m.null i = some y) (hu : y.user = true) :
    wp E (copyout d va buf len) (fun ok m' => ok = false ∧
      ∀ i < PGSIZE, va % PGSIZE ≤ i → ∃ j, j + va < DEVSPACE ∧ m'.bytes y.frame i = buf j) m := by
  induction len using Nat.strong_induction_on generalizing va buf m with
  | _ len ih =>
    have hn : min (PGSIZE - va % PGSIZE) len = PGSIZE - va % PGSIZE := by
      simp only [PGSIZE, DEVSPACE] at *
      omega
    have hnext : (va / PGSIZE + 1) * PGSIZE % 2 ^ 32 = va + (PGSIZE - va % PGSIZE) ∧
        va + (PGSIZE - va % PGSIZE) ≤ DEVSPACE := by
      simp only [PGSIZE, DEVSPACE] at *
      omega
    rw [copyout_succ (by omega), hn, hnext.1, wp_bind]
    refine wp_uva2ka_null (h.not_hasTable ?_ ?_) hnull hu ?_
    · exact Nat.div_le_div_right hlo
    · simp only [PGSIZE, DEVSPACE] at *
      omega
    simp only
    rw [wp_bind, wp_get, wp_bind]
    unfold fillPage
    rw [wp_modify]
    rcases Nat.lt_or_ge (va + (PGSIZE - va % PGSIZE)) DEVSPACE with hmore | hlast
    · refine wp_mono (ih _ ?_ ?_ hmore ?_ hnull) ?_
      · simp only [PGSIZE] at *
        omega
      · omega
      · simp only [PGSIZE] at *
        omega
      · rintro ok m' ⟨hok, hbytes⟩
        refine ⟨hok, fun i hi _ => ?_⟩
        have hzero : (va + (PGSIZE - va % PGSIZE)) % PGSIZE = 0 := by
          simp only [PGSIZE]
          omega
        obtain ⟨j, hj, hbyte⟩ := hbytes i hi (by omega)
        exact ⟨_, by omega, hbyte⟩
    · have hdev : va + (PGSIZE - va % PGSIZE) = DEVSPACE := Nat.le_antisymm hnext.2 hlast
      rw [hdev, copyout_succ (by omega), wp_bind]
      refine wp_uva2ka (h.hasTable_device le_rfl (by decide)) ?_ fun _ => ?_
      · intro x hx hx'
        exact absurd ⟨x, hx, hx'⟩ (h.not_user_kernel (by decide))
      simp only
      rw [wp_pure]
      refine ⟨rfl, fun i hi hoff => ⟨i - va % PGSIZE, by omega, ?_⟩⟩
      simp only [Mem.setPage, Function.update_self, copyInto]
      rw [if_pos ⟨hoff, by omega⟩]

theorem cstring_mem {t : List UInt8} {j : Nat} (h : j < t.length) : cstring t j ∈ t := by
  rw [cstring, getD_eq_getElem?_getD, List.getElem?_eq_getElem h]
  exact getElem_mem h

def Overwritten (argv : List (List UInt8)) (p : Nat → UInt8) : Prop :=
  ∃ s ∈ argv, ∃ o < PGSIZE, ∀ i < PGSIZE, o ≤ i → p i ∈ s

theorem wp_pushArgs_null {argv : List (List UInt8)} {sp : Nat} {ws : List Nat}
    (h : Stacked sz d) (hlo : sz - PGSIZE ≤ sp) (hhi : sp ≤ sz)
    (hlen : ∀ s ∈ argv, s.length < PHYSTOP)
    (hfit : ¬ ArgsFit sz (argv.take (MAXARG - ws.length)) sp) (hnull : ∀ i, m.null i = some y)
    (hu : y.user = true) :
    wp E (pushArgs d argv sp ws)
      (fun r m' => r = none ∧ Overwritten argv (m'.bytes y.frame)) m := by
  induction argv generalizing sp ws m with
  | nil =>
    rw [take_nil] at hfit
    exact absurd trivial hfit
  | cons s argv ih =>
    have hmax : ws.length < MAXARG := by
      by_contra hfull
      rw [Nat.sub_eq_zero_of_le (by omega)] at hfit
      exact hfit trivial
    have hleft : MAXARG - ws.length = MAXARG - (ws ++ [pushed sp s.length]).length + 1 := by
      rw [length_append, length_singleton]
      omega
    rw [hleft, take_succ_cons, ArgsFit] at hfit
    rw [pushArgs, if_neg (by omega)]
    by_cases hlong : s.length + 1 ≤ sp + DEVBYTES
    · rw [not_and] at hfit
      obtain ⟨hin, hrest⟩ := Classical.not_imp.mp (hfit hlong)
      refine wp_seq (wp_push h hlo hhi hlong) ?_
      rintro ok m1 ⟨hcopies, hok⟩
      rw [if_pos (hok.mpr hin)]
      refine wp_mono (ih hin.2 (hin.pushed_le hhi h.below) ?_ hrest ?_) ?_
      · exact fun t ht => hlen t (mem_cons_of_mem s ht)
      · rw [hcopies.null]
        exact hnull
      · rintro r m' ⟨hr, t, ht, hover⟩
        exact ⟨hr, t, mem_cons_of_mem s ht, hover⟩
    · have hs := hlen s mem_cons_self
      have hbelow := h.below
      have hrange : KERNBASE + PHYSTOP ≤ pushed sp s.length ∧ pushed sp s.length < DEVSPACE ∧
          DEVSPACE ≤ pushed sp s.length + s.length := by
        simp only [pushed, PGSIZE, KERNBASE, PHYSTOP, DEVBYTES, DEVSPACE] at *
        omega
      refine wp_seq (wp_copyout_null h hrange.1 hrange.2.1 (by omega) hnull hu) ?_
      rintro ok m' ⟨rfl, hbytes⟩
      rw [if_neg (by simp), wp_pure]
      refine ⟨rfl, s, mem_cons_self, pushed sp s.length % PGSIZE,
        Nat.mod_lt _ (by decide), fun i hi hoff => ?_⟩
      obtain ⟨j, hj, hbyte⟩ := hbytes i hi hoff
      rw [hbyte]
      exact cstring_mem (by omega)

theorem wp_execArgs_null {argv : List (List UInt8)} (h : Stacked sz d)
    (hlen : ∀ s ∈ argv, s.length < PHYSTOP)
    (hfit : ¬ ArgsFit sz (argv.take MAXARG) sz) (hnull : ∀ i, m.null i = some y)
    (hu : y.user = true) :
    wp E (execArgs d sz argv) (fun r m' => r = none ∧ Overwritten argv (m'.bytes y.frame)) m := by
  unfold execArgs
  refine wp_seq (wp_pushArgs_null h (Nat.sub_le _ _) le_rfl hlen hfit hnull hu) ?_
  rintro r m' ⟨rfl, hover⟩
  rw [wp_pure]
  exact ⟨rfl, hover⟩

variable {f : Nat}

/-- `exec` with a string that starts one page below the devices fails and leaves the page
overwritten. -/
theorem wp_exec_null {t : List UInt8} {old : Pgdir} {m1 : Mem}
    (himage : execImage L ip m = .ok (some (sz, d)) m1) (hwithin : d.Within L)
    (hstacked : Stacked sz d) (hlen : t.length + 1 = sz + DEVBYTES + PGSIZE) (hf : f ∉ d.frames) :
    wp E (exec L ip [t] old) (fun r m' => r = none ∧ ∀ i < PGSIZE, m'.bytes f i ∈ t)
      (m.withNull (some ⟨f, true, true⟩)) := by
  have himage' : execImage L ip (m.withNull (some ⟨f, true, true⟩)) =
      .ok (some (sz, d)) (m1.withNull (some ⟨f, true, true⟩)) := by
    rw [blind_execImage, himage]
    rfl
  unfold exec
  rw [wp_bind]
  refine wp_of_ok himage' ?_
  simp only
  have hargs : wp E (execArgs d sz [t]) (fun r m' => r = none ∧ ∀ i < PGSIZE, m'.bytes f i ∈ t)
      (m1.withNull (some ⟨f, true, true⟩)) := by
    have hbelow := hstacked.below
    have haligned := hstacked.aligned
    have hva : pushed sz t.length = DEVSPACE - PGSIZE := by
      simp only [pushed, DEVSPACE, PGSIZE, DEVBYTES, KERNBASE] at *
      omega
    unfold execArgs
    rw [wp_bind, pushArgs, if_neg (by simp), hva]
    refine wp_seq (wp_copyout_null hstacked (by decide) (by decide) ?_ (fun _ => rfl) rfl) ?_
    · simp only [DEVSPACE, PGSIZE, DEVBYTES] at hlen ⊢
      omega
    rintro ok m' ⟨rfl, hbytes⟩
    rw [if_neg (by simp), wp_pure]
    simp only
    rw [wp_pure]
    refine ⟨rfl, fun i hi => ?_⟩
    obtain ⟨j, hj, hbyte⟩ := hbytes i hi (by simp [DEVSPACE, PGSIZE])
    have hjt : j < t.length := by
      simp only [DEVSPACE, PGSIZE, DEVBYTES] at hlen hj
      omega
    rw [hbyte]
    exact cstring_mem hjt
  refine wp_seq hargs ?_
  rintro r m2 ⟨rfl, hbytes⟩
  simp only
  refine wp_seq (wp_freevm_within hwithin) ?_
  intro _ m' hfrees
  rw [wp_pure, hfrees.bytes f hf]
  exact ⟨rfl, hbytes⟩

def Kernel.single (i : Slot) (m : Mem) (x : Proc) : Kernel := (Kernel.idle m [] i).setProc i x

theorem Kernel.owned_single (m : Mem) (y : Proc) : (Kernel.single 0 m y).owned = y.frames := by
  obtain ⟨rest, howned, hset⟩ := (Kernel.idle m [] 0).owned_proc 0
  have hidle : (Kernel.idle m [] 0).owned = 0 := by
    simp [Kernel.owned, Kernel.idle, Proc.frames]
  have hrest : rest = 0 := by
    rw [hidle] at howned
    have hle : rest ≤ 0 := howned ▸ Multiset.le_add_left rest _
    exact Multiset.le_zero.mp hle
  rw [Kernel.single, hset, hrest, add_zero]

theorem Kernel.procs_single (m : Mem) (y : Proc) : (Kernel.single 0 m y).procs 0 = y := by
  unfold Kernel.single Kernel.setProc
  simp only [Function.update_self]

theorem exists_process : ∃ (m : Mem) (d : Pgdir) (k : Nat),
    Owns (bootPages someLayout) m (d.frames + {k}) ∧
    (∀ i, m.fails i = false) ∧ (d.frames + {k}).card ≤ 13314 := by
  obtain ⟨m1, d1, howns1, hkernel, hnever1⟩ := exists_kernelSpace
  have hcard := card_someLayout
  have hpos : 0 < KERNBASE := by decide
  have halloc : wp (fun _ => False) (allocuvm someLayout d1 0 0x3000000) _ m1 :=
    wp_allocuvm_mapped howns1 hpos (.of_kernel hkernel)
  obtain ⟨⟨sz, d2⟩, m2, -, howns2, hsame2, hgrown, hroom2⟩ := wp_returns halloc
  have hpages : pageUp 0x3000000 = 12288 := by decide
  have hne := hroom2 (by omega) (by decide) (by omega) hnever1 (by
    rw [hpages, hcard, Multiset.card_zero]
    omega)
  obtain ⟨hsz, -, hmapped⟩ := hgrown hne
  have hnever2 : ∀ i, m2.fails i = false := fun i => by rw [hsame2.fails, hnever1]
  have hframes : d2.frames.card ≤ 13313 := by
    have husers : d2.users.card ≤ 12288 := by
      apply Pgdir.card_users_le
      intro j hj hlt
      have hpresent := hmapped.present j hlt
      rw [hsz] at hpresent
      change _ ↔ j < pageUp 0x3000000 at hpresent
      rw [hpages] at hpresent
      by_contra hsome
      exact absurd (hpresent.mp (Option.isSome_iff_ne_none.mpr hsome)) (by omega)
    have hle := d2.card_frames_le
    omega
  simp only [add_zero] at howns2
  have hstack : wp (fun _ => False) kalloc _ m2 := wp_kalloc howns2
  obtain ⟨r, m3, -, hsame3, -, hsome3, hroom3⟩ := wp_returns hstack
  obtain ⟨k, rfl⟩ := Option.ne_none_iff_exists'.mp (hroom3 hnever2 (by
    rw [hcard]
    omega))
  refine ⟨m3, d2, k, (hsome3 k rfl).congr ?_, fun i => by rw [hsame3.fails, hnever2], ?_⟩
  · rw [add_comm, Multiset.singleton_add]
  · rw [Multiset.card_add, Multiset.card_singleton]
    omega

def overString : List UInt8 := List.replicate 0x2002fff 97

theorem length_overString : overString.length = 0x2002fff := length_replicate

theorem next_overwritten (h : ∀ i < PGSIZE, m.bytes f i ∈ overString) : m.next f = some 923158 := by
  have hbyte : ∀ i < 4, m.bytes f i = 97 := by
    intro i hi
    apply eq_of_mem_replicate (h i _)
    simp only [PGSIZE]
    omega
  have hword : word (m.bytes f) 0 = 0x61616161 := by
    rw [word, hbyte 0 (by decide), hbyte 1 (by decide), hbyte 2 (by decide), hbyte 3 (by decide)]
    rfl
  rw [Mem.next, hword]
  rfl

/-- A page that was free and whose link leads out of memory is in no place. -/
theorem not_conserved (hall : f ∈ (bootPages L).all) (hfree : f ∉ s.owned)
    (hnext : s.mem.next f = some 923158) : ¬ s.Conserved L := by
  rintro ⟨free, hchain, hcount⟩
  have hf : f ∈ free := by
    have hone := hcount f
    rw [if_pos hall, Multiset.count_add, Multiset.count_eq_zero_of_notMem hfree] at hone
    exact Multiset.mem_coe.mp (Multiset.count_pos.mp (by omega))
  have hmem := hchain.next_mem hf hnext
  have hpos : 0 < ((free : Multiset Nat) + s.owned).count 923158 :=
    Multiset.count_pos.mpr (Multiset.mem_add.mpr (Or.inl (Multiset.mem_coe.mpr hmem)))
  rw [hcount] at hpos
  split_ifs at hpos with hboot
  · have hlt := ((bootPages L).range _ hboot).2
    exact absurd hlt (by decide)
  · omega

/-- `exec` by a process that has the string in its memory, and at address 0 an entry for a
free page. -/
theorem exec_loses_pages : ∃ s s' : Kernel, s.Conserved someLayout ∧ s.Sized ∧
    overString.length < (s.procs 0).space.sz ∧
    step someLayout s (.exec 0 bareElf [overString]) = .ok () s' ∧
    ¬ s'.Conserved someLayout := by
  obtain ⟨m, d0, k, howns, hnever, hsmall⟩ := exists_process
  have hcard := card_someLayout
  have hroomy : Roomy (bootPages someLayout) (d0.frames + {k}) m := ⟨hnever, by omega⟩
  have himage : wp (fun _ => False) (execImage someLayout bareElf) _ m := wp_execImage howns
  obtain ⟨r, m1, hrun, -, -, hsome, hroom⟩ := wp_returns himage
  obtain ⟨d, rfl⟩ := hroom (by decide) (by decide) (by decide) hroomy
  obtain ⟨howns1, hstacked, -⟩ := hsome _ d rfl
  -- some page is free once the image is there
  obtain ⟨f, hall, hnot⟩ : ∃ f ∈ (bootPages someLayout).all, f ∉ d.frames + (d0.frames + {k}) := by
    have hframes : d.frames.card ≤ 1027 := by
      have husers : d.users.card ≤ 2 := by
        apply Pgdir.card_users_le
        intro j hj hlt
        have hpresent := hstacked.present j hlt
        by_contra hsome
        have hlow := hpresent.mp (Option.isSome_iff_ne_none.mpr hsome)
        exact absurd hlow (by simp only [PGSIZE]; omega)
      have hle := d.card_frames_le
      omega
    by_contra hnone
    have hle : (bootPages someLayout).all ≤ d.frames + (d0.frames + {k}) := by
      refine (Multiset.le_iff_subset (bootPages someLayout).nodup).mpr fun f hf => ?_
      by_contra hnot
      exact hnone ⟨f, hf, hnot⟩
    have hcards := Multiset.card_le_card hle
    rw [hcard, Multiset.card_add] at hcards
    omega
  rw [Multiset.mem_add, not_or] at hnot
  have hwithin : d.Within someLayout := howns1.within (Multiset.le_add_right _ _)
  have hlen : overString.length + 1 = 2 * PGSIZE + DEVBYTES + PGSIZE := by
    rw [length_overString]
    decide
  have hexec : wp (fun _ => False) (exec someLayout bareElf [overString] d0) _ _ :=
    wp_exec_null hrun hwithin hstacked hlen hnot.1
  obtain ⟨r, m', hexec, rfl, hbytes⟩ := wp_returns hexec
  obtain ⟨y, hy⟩ : ∃ y : Proc, y = ⟨.live, k, ⟨d0, 0x3000000⟩, none⟩ := ⟨_, rfl⟩
  have howned : ∀ m, (Kernel.single 0 m y).owned = d0.frames + {k} := by
    intro m
    rw [Kernel.owned_single, hy, Proc.frames_used (by simp), add_comm, Multiset.singleton_add]
  refine ⟨Kernel.single 0 (m.withNull (some ⟨f, true, true⟩)) y, Kernel.single 0 m' y, ?_, ?_, ?_,
    ?_, ?_⟩
  · rw [Kernel.conserved_iff, howned]
    exact howns.ghost rfl rfl
  · refine Kernel.Sized.setProc (fun _ => Nat.zero_le _) ?_
    rw [hy]
    change 0x3000000 ≤ KERNBASE
    decide
  · rw [length_overString, Kernel.procs_single, hy]
    change 0x2002fff < 0x3000000
    decide
  · have hprog : wp (fun _ => False) (execProc someLayout 0 bareElf [overString])
        (fun _ t => t = Kernel.single 0 m' y)
        (Kernel.single 0 (m.withNull (some ⟨f, true, true⟩)) y) := by
      unfold execProc
      rw [wp_bind, wp_get, wp_bind, wp_vm, Kernel.procs_single, hy]
      refine wp_of_ok hexec ?_
      rw [wp_pure]
      rfl
    obtain ⟨_, t, hstep, rfl⟩ := wp_returns hprog
    have hlive : ((Kernel.single 0 (m.withNull (some ⟨f, true, true⟩)) y).procs 0).stage =
        .live := by
      rw [Kernel.procs_single, hy]
    change byProc 0 _ _ = _
    rw [byProc, if_pos hlive]
    exact hstep
  · exact not_conserved hall (by rw [howned]; exact hnot.2) (next_overwritten hbytes)

end Xv6.Vm
