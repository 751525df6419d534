import Xv6.Vm.Sbrk

/-!
# The page table as a flat map

A page directory, read through `walkpgdir`, is a partial map from page numbers to entries.
Each function that changes a directory changes this map as its name says, whether or not
`kalloc` fails on the way, and no loop runs for ever.
-/

namespace Xv6.Vm

open Lib Lib.Act Function

variable {L : Layout} {E : String → Prop} {m : Mem} {d : Pgdir} {n : Nat} {x : Pte}

abbrev FlatMap := Nat → Option Pte

/-- The entry found through `walkpgdir(pgdir, va, 0)`; it allocates nothing. -/
def lookup (d : Pgdir) (m : Mem) (va : Nat) : Option Pte :=
  match walkpgdir d (va / PGSIZE) false m with
  | .ok (some d') _ => d'.pte (va / PGSIZE)
  | _ => none

/-- The `k` pages from `lo` on are mapped to the frames from `f` on, which wrap around. -/
def FlatMap.add (φ : FlatMap) (lo k f : Nat) (w u : Bool) : FlatMap := fun j =>
  if lo ≤ j ∧ j < lo + k then some ⟨(f + (j - lo)) % 2 ^ 20, w, u⟩ else φ j

/-- The pages from `lo` on that begin below `sz` are removed. -/
def FlatMap.remove (φ : FlatMap) (lo sz : Nat) : FlatMap := fun j =>
  if lo ≤ j ∧ j * PGSIZE < sz then none else φ j

variable {φ : FlatMap} {a sz : Nat}

theorem FlatMap.remove_cons (ha : a * PGSIZE < sz) :
    FlatMap.remove (update φ a none) (a + 1) sz = φ.remove a sz := by
  funext j
  unfold FlatMap.remove
  by_cases hj : j = a
  · subst hj
    rw [if_neg (by omega), if_pos ⟨le_rfl, ha⟩, update_self]
  · rw [update_of_ne hj]
    simp only [show (a + 1 ≤ j ∧ j * PGSIZE < sz) ↔ (a ≤ j ∧ j * PGSIZE < sz) by omega]

inductive Call where
  | mappages (va size pa : Nat) (w u : Bool)
  | allocuvm (oldsz newsz : Nat)
  | deallocuvm (oldsz newsz : Nat)
  | clearpteu (va : Nat)

def Call.run (L : Layout) (d : Pgdir) : Call → VmM (Nat × Pgdir)
  | .mappages va size pa w u => do
    let r ← Vm.mappages d va size pa w u
    pure (if r.1 then 1 else 0, r.2)
  | .allocuvm oldsz newsz => Vm.allocuvm L d oldsz newsz
  | .deallocuvm oldsz newsz => Vm.deallocuvm L d oldsz newsz
  | .clearpteu va => do
    let d ← Vm.clearpteu d (va / PGSIZE)
    pure (0, d)

/-- The pages of `[PGROUNDDOWN(va), va+size)`. -/
def pageCount (va size : Nat) : Nat := (va + size - 1) / PGSIZE - va / PGSIZE + 1

/-- The low bits of `pa` would end up in the flags of the entries. -/
def Call.Pre (φ : FlatMap) : Call → Prop
  | .mappages va size pa _ _ => 0 < size ∧ va + size ≤ 2 ^ 32 ∧ pa < 2 ^ 32 ∧ PGSIZE ∣ pa ∧
      ∀ j, va / PGSIZE ≤ j → j < va / PGSIZE + pageCount va size → φ j = none
  | .allocuvm _ _ => True
  | .deallocuvm oldsz _ => oldsz ≤ KERNBASE
  | .clearpteu _ => True

/-- What a call that returns `r` does to the map. -/
def Call.Effect (φ : FlatMap) (r : Nat) (φ' : FlatMap) : Call → Prop
  | .mappages va size pa w u => ∃ k ≤ pageCount va size, (r = 1 → k = pageCount va size) ∧
      φ' = φ.add (va / PGSIZE) k (pa / PGSIZE) w u
  | .allocuvm oldsz newsz =>
    (φ' = φ ∧ r = if newsz < KERNBASE ∧ newsz < oldsz then oldsz else 0) ∨
      (r = 0 ∧ φ' = φ.remove (pageUp oldsz) newsz) ∨
      r = newsz ∧ ∃ g : Nat → Nat, φ' = fun j =>
        if pageUp oldsz ≤ j ∧ j < pageUp newsz then some ⟨g j, true, true⟩ else φ j
  | .deallocuvm oldsz newsz =>
    r = min oldsz newsz ∧ φ' = φ.remove ((newsz + (PGSIZE - 1)) / PGSIZE) oldsz
  | .clearpteu va =>
    φ' = update φ (va / PGSIZE) ((φ (va / PGSIZE)).map fun x => { x with user := false })

theorem wp_kalloc_returns : wp E kalloc (fun _ _ => True) m := by
  unfold kalloc
  rw [wp_bind, wp_get, wp_bind, wp_modify]
  split_ifs
  · exact (wp_pure _).mpr trivial
  · split
    · exact (wp_pure _).mpr trivial
    · rw [wp_bind, wp_modify]
      exact (wp_pure _).mpr trivial

theorem wp_walkpgdir_flat : wp E (walkpgdir d n true) (fun r _ => ∀ d', r = some d' →
    d'.pte = d.pte ∧ d'.HasTable (n / NPTENTRIES)) m := by
  unfold walkpgdir
  split
  · rename_i t ht
    rw [wp_pure]
    intro d' hd'
    obtain rfl := Option.some.inj hd'
    exact ⟨rfl, by simp [Pgdir.HasTable, ht]⟩
  · rename_i ht
    rw [if_pos rfl]
    refine wp_seq wp_kalloc_returns fun r m' _ => ?_
    cases r with
    | none => simp
    | some f =>
      rw [wp_pure]
      intro d' hd'
      obtain rfl := Option.some.inj hd'
      exact ⟨Pgdir.pte_addTable ht, Pgdir.hasTable_addTable.mpr (Or.inr rfl)⟩

theorem wp_mapPage_flat (h : d.pte n = none ∨ E "remap") : wp E (mapPage d n x) (fun r _ =>
      r.2.pte = if r.1 then update d.pte n (some x) else d.pte) m := by
  unfold mapPage
  refine wp_seq wp_walkpgdir_flat fun r m' hr => ?_
  cases r with
  | none => simp
  | some d' =>
    obtain ⟨hpte, htable⟩ := hr d' rfl
    simp only [hpte]
    cases hn : d.pte n with
    | none => simp only [wp_pure, if_true, Pgdir.pte_setPte htable, hpte]
    | some y => exact wp_panic.mpr (h.resolve_left (by simp [hn]))

@[simp] theorem FlatMap.add_zero (φ : FlatMap) (lo f : Nat) (w u : Bool) :
    φ.add lo 0 f w u = φ := by
  funext j
  exact if_neg (by omega)

theorem FlatMap.add_cons (φ : FlatMap) (lo k : Nat) {f : Nat} (w u : Bool) (hf : f < 2 ^ 20) :
    FlatMap.add (update φ lo (some ⟨f, w, u⟩)) (lo + 1) k ((f + 1) % 2 ^ 20) w u =
      φ.add lo (k + 1) f w u := by
  funext j
  unfold FlatMap.add
  by_cases hj : j = lo
  · subst hj
    rw [if_neg (by omega), if_pos (by omega), update_self, Nat.sub_self, Nat.add_zero,
      Nat.mod_eq_of_lt hf]
  · rw [update_of_ne hj]
    simp only [show (lo + 1 ≤ j ∧ j < lo + 1 + k) ↔ (lo ≤ j ∧ j < lo + (k + 1)) by omega]
    split_ifs
    · congr 2
      omega
    · rfl

theorem wp_mapLoop_flat {w u : Bool} {k f : Nat} (hlast : n + k < 2 ^ 20) (hf : f < 2 ^ 20)
    (hnone : ∀ j, n ≤ j → j ≤ n + k → d.pte j = none) :
    wp E (mapLoop w u k n f d) (fun r _ => ∃ i ≤ k + 1, (r.1 = true → i = k + 1) ∧
      r.2.pte = FlatMap.add d.pte n i f w u) m := by
  have hfirst := wp_mapPage_flat (E := E) (m := m) (x := ⟨f, w, u⟩)
    (Or.inl (hnone n le_rfl (by omega)))
  induction k generalizing n f d m with
  | zero =>
    refine wp_mono hfirst fun r m' hr => ?_
    obtain ⟨ok, d1⟩ := r
    cases ok with
    | false => exact ⟨0, by omega, by simp, by simpa using hr⟩
    | true =>
      have hset : d1.pte = update d.pte n (some ⟨f, w, u⟩) := hr
      refine ⟨1, le_rfl, by simp, ?_⟩
      rw [hset, ← FlatMap.add_cons _ _ _ _ _ hf, FlatMap.add_zero]
  | succ k ih =>
    rw [mapLoop]
    refine wp_seq hfirst fun r m' hr => ?_
    obtain ⟨ok, d1⟩ := r
    cases ok with
    | false => exact (wp_pure _).mpr ⟨0, by omega, by simp, by simpa using hr⟩
    | true =>
      have hset : d1.pte = update d.pte n (some ⟨f, w, u⟩) := hr
      simp only [if_true]
      -- The next page is not beyond the last one, so its number does not wrap.
      rw [Nat.mod_eq_of_lt (show n + 1 < 2 ^ 20 by omega)]
      have hnext : ∀ j, n + 1 ≤ j → j ≤ n + 1 + k → d1.pte j = none := by
        intro j hj hjl
        rw [hset, update_of_ne (by omega)]
        exact hnone j (by omega) (by omega)
      refine wp_mono (ih (by omega) (Nat.mod_lt _ (by decide)) hnext
        (wp_mapPage_flat (Or.inl (hnext _ le_rfl (by omega))))) ?_
      rintro r m1 ⟨i, hi, hok, hpte⟩
      refine ⟨i + 1, by omega, fun h => by rw [hok h], ?_⟩
      rw [hpte, hset, FlatMap.add_cons _ _ _ _ _ hf]

theorem wp_kfree_returns {f : Nat} (hE : ∀ msg, E msg) : wp E (kfree L f) (fun _ _ => True) m := by
  unfold kfree
  split_ifs
  · exact wp_panic.mpr (hE _)
  · exact wp_modify.mpr trivial

variable {oldsz : Nat}

theorem wp_deallocLoop_flat (hE : ∀ msg, E msg) :
    wp E (deallocLoop L oldsz a d) (fun d' _ => d'.pte = FlatMap.remove d.pte a oldsz) m := by
  -- what is still to be removed gives the same map
  refine wp_mono (wp_deallocLoop_rule (I := fun b d' _ =>
    FlatMap.remove d'.pte b oldsz = FlatMap.remove d.pte a oldsz) ?_ ?_ rfl) ?_
  · intro b b' d' m' hI hle hnone
    rw [← hI]
    funext j
    unfold FlatMap.remove
    by_cases hj : b ≤ j ∧ j < b'
    · simp [hnone j hj.1 hj.2]
    · have hiff : (b' ≤ j ∧ j * PGSIZE < oldsz) ↔ (b ≤ j ∧ j * PGSIZE < oldsz) := by omega
      simp only [hiff]
  · intro b d' m1 p hI hlt hp
    split_ifs
    · exact hE _
    · refine wp_mono (wp_kfree_returns hE) fun _ m' _ => ?_
      rw [Pgdir.pte_setPte (Pgdir.hasTable_of_pte hp), FlatMap.remove_cons hlt, hI]
  · rintro d' m' ⟨b, hdone, hI⟩
    rw [← hI]
    funext j
    refine (if_neg ?_).symm
    simp only [PGSIZE] at hdone ⊢
    omega

theorem FlatMap.remove_of_le {lo : Nat} (h : sz ≤ lo * PGSIZE) : φ.remove lo sz = φ := by
  funext j
  refine if_neg ?_
  simp only [PGSIZE] at h ⊢
  omega

variable {newsz : Nat}

theorem wp_deallocuvm_flat (hE : ∀ msg, E msg) (hold : oldsz ≤ KERNBASE) :
    wp E (deallocuvm L d oldsz newsz) (fun r _ => r.1 = min oldsz newsz ∧
      r.2.pte = FlatMap.remove d.pte ((newsz + (PGSIZE - 1)) / PGSIZE) oldsz) m := by
  unfold deallocuvm
  split_ifs with hge
  · rw [wp_pure, FlatMap.remove_of_le (by simp only [PGSIZE]; omega)]
    exact ⟨by simp only; omega, rfl⟩
  · have hup : pageUp newsz = (newsz + (PGSIZE - 1)) / PGSIZE := by
      simp only [pageUp, PGSIZE, KERNBASE] at *
      omega
    rw [hup]
    refine wp_seq (wp_deallocLoop_flat hE) fun d' m' hpte => ?_
    exact (wp_pure _).mpr ⟨by simp only; omega, hpte⟩

theorem wp_clearpteu_flat (hE : ∀ msg, E msg) : wp E (clearpteu d n) (fun d' _ => d'.pte =
      update d.pte n ((d.pte n).map fun x => { x with user := false })) m := by
  unfold clearpteu walkpgdir
  rw [wp_bind]
  cases ht : d.table (n / NPTENTRIES) with
  | none => exact (wp_pure _).mpr (wp_panic.mpr (hE _))
  | some t =>
    have htable : d.HasTable (n / NPTENTRIES) := by simp [Pgdir.HasTable, ht]
    exact (wp_pure _).mpr ((wp_pure _).mpr (Pgdir.pte_setPte htable))

theorem FlatMap.remove_update {lo : Nat} (y : Option Pte) (hlo : lo ≤ a)
    (ha : a * PGSIZE < sz) : FlatMap.remove (update φ a y) lo sz = φ.remove lo sz := by
  funext j
  unfold FlatMap.remove
  by_cases hj : j = a
  · subst hj
    rw [if_pos ⟨hlo, ha⟩, if_pos ⟨hlo, ha⟩]
  · rw [update_of_ne hj]

/-- Giving up after a failure removes all pages between the two sizes. -/
theorem wp_rollback (hE : ∀ msg, E msg) (hnew : newsz < KERNBASE) (hle : oldsz ≤ newsz) :
    wp E (deallocuvm L d newsz oldsz) (fun r _ =>
      r.2.pte = FlatMap.remove d.pte (pageUp oldsz) newsz) m := by
  have hup : (oldsz + (PGSIZE - 1)) / PGSIZE = pageUp oldsz := by
    simp only [pageUp, PGSIZE, KERNBASE] at *
    omega
  refine wp_mono (wp_deallocuvm_flat hE hnew.le) fun r m' hr => ?_
  rw [← hup]
  exact hr.2

theorem wp_allocLoop_flat {k : Nat} (hE : ∀ msg, E msg) (hnew : newsz < KERNBASE)
    (hle : oldsz ≤ newsz) (hlo : pageUp oldsz ≤ a) (ha : a + k = pageUp newsz ∨ k = 0) :
    wp E (allocLoop L oldsz newsz k a d) (fun r _ =>
      (r.1 = 0 ∧ r.2.pte = FlatMap.remove d.pte (pageUp oldsz) newsz) ∨
        r.1 = newsz ∧ ∃ g : Nat → Nat, r.2.pte = fun j =>
          if a ≤ j ∧ j < a + k then some ⟨g j, true, true⟩ else d.pte j) m := by
  induction k generalizing a d m with
  | zero =>
    refine (wp_pure _).mpr (Or.inr ⟨rfl, fun _ => 0, ?_⟩)
    funext j
    exact (if_neg (by omega)).symm
  | succ k ih =>
    have hin : a * PGSIZE < newsz := (lt_pageUp hnew.le).mp (by omega)
    have ha : a < KERNBASE / PGSIZE := by
      simp only [PGSIZE, KERNBASE] at *
      omega
    rw [allocLoop]
    refine wp_seq wp_kalloc_returns fun r m1 _ => ?_
    cases r with
    | none =>
      refine wp_seq (wp_rollback hE hnew hle) fun r m2 hr => ?_
      exact (wp_pure _).mpr (Or.inl ⟨rfl, hr⟩)
    | some f =>
      refine wp_seq (wp_modify.mpr trivial) fun _ m2 (_ : True) => ?_
      rw [mappages_page ha]
      refine wp_seq (wp_mapPage_flat (Or.inr (hE _))) fun r m3 hr => ?_
      obtain ⟨ok, d1⟩ := r
      cases ok with
      | false =>
        have hsame : d1.pte = d.pte := hr
        refine wp_seq (wp_rollback hE hnew hle) fun r m4 hr => ?_
        refine wp_seq (wp_kfree_returns hE) fun _ m5 _ => ?_
        exact (wp_pure _).mpr (Or.inl ⟨rfl, hsame ▸ hr⟩)
      | true =>
        have hset : d1.pte = update d.pte a (some ⟨f, true, true⟩) := hr
        refine wp_mono (ih (by omega) (by omega)) fun r m4 hr => ?_
        rcases hr with ⟨hzero, hpte⟩ | ⟨hsize, g, hpte⟩
        · rw [hset, FlatMap.remove_update _ hlo hin] at hpte
          exact Or.inl ⟨hzero, hpte⟩
        · refine Or.inr ⟨hsize, update g a f, ?_⟩
          rw [hpte, hset]
          funext j
          by_cases hj : j = a
          · subst hj
            rw [if_neg (by omega), if_pos (by omega), update_self, update_self]
          · rw [update_of_ne hj, update_of_ne hj]
            simp only [show (a + 1 ≤ j ∧ j < a + 1 + k) ↔ (a ≤ j ∧ j < a + (k + 1)) by omega]

/-- `mappages` under its conditions does not panic. -/
def Call.MayPanic : Call → Prop
  | .mappages .. => False
  | _ => True

theorem wp_run {c : Call} (hpre : c.Pre d.pte) :
    wp (fun _ => c.MayPanic) (c.run L d) (fun r _ => c.Effect d.pte r.1 r.2.pte) m := by
  cases c with
  | mappages va size pa w u =>
    obtain ⟨hsize, hend, hpa, -, hnone⟩ := hpre
    have hcount : ((((va + size - 1) % 2 ^ 32 / PGSIZE : Nat) - (va / PGSIZE : Nat) : Int) %
        2 ^ 20).toNat + 1 = pageCount va size := by
      simp only [pageCount, PGSIZE]
      omega
    have hend : va / PGSIZE + pageCount va size ≤ 2 ^ 20 := by
      simp only [pageCount, PGSIZE]
      omega
    have hframe : pa / PGSIZE < 2 ^ 20 := by
      simp only [PGSIZE]
      omega
    refine wp_seq (wp_mapLoop_flat (by omega) hframe fun j hj hjl => hnone j hj (by omega)) ?_
    rintro ⟨ok, d'⟩ m' ⟨k, hk, hok, hpte⟩
    rw [hcount] at hk hok
    refine (wp_pure _).mpr ⟨k, hk, fun hr => ?_, hpte⟩
    cases ok with
    | false => simp at hr
    | true => exact hok rfl
  | allocuvm oldsz newsz =>
    change wp _ (Vm.allocuvm L d oldsz newsz) _ m
    unfold allocuvm
    split_ifs with hbig hsmall
    · exact (wp_pure _).mpr (Or.inl ⟨rfl, (if_neg (by omega)).symm⟩)
    · exact (wp_pure _).mpr (Or.inl ⟨rfl, (if_pos ⟨by omega, hsmall⟩).symm⟩)
    · have hnew : newsz < KERNBASE := by omega
      have hpages : pageUp oldsz ≤ pageUp newsz := by
        simp only [pageUp, PGSIZE, KERNBASE] at *
        omega
      refine wp_mono (wp_allocLoop_flat (fun _ => trivial) hnew (by omega) le_rfl
        (Or.inl (Nat.add_sub_cancel' hpages))) fun r m' hr => ?_
      rw [Nat.add_sub_cancel' hpages] at hr
      exact Or.inr hr
  | deallocuvm oldsz newsz => exact wp_deallocuvm_flat (fun _ => trivial) hpre
  | clearpteu va =>
    refine wp_seq (wp_clearpteu_flat fun _ => trivial) fun d' m' hpte => ?_
    exact (wp_pure _).mpr hpte

end Xv6.Vm
