import Xv6.Vm.Load
import Xv6.Vm.Sbrk

/-!
# The arguments of `exec`

`copyout` asks for the page table of every page it copies to and follows the pointer it gets
unchecked.  Where the page tables are there it succeeds exactly for user pages and writes to
those only.  `exec` pushes strings from the top of the stack downwards: a push succeeds just
where it stays in the stack page, and a string long enough to take the stack pointer round 0
and below the device mappings meets a missing page table.
-/

namespace Xv6.Vm

open Lib Lib.Act List

def Pgdir.UserPage (d : Pgdir) (n : Nat) : Prop := ∃ x, d.pte n = some x ∧ x.user = true

/-- The page of a byte of a buffer at `va`. -/
def pageAt (va i : Nat) : Nat := (va + i) % 2 ^ 32 / PGSIZE

/-- Only user pages of `d` are written, and nothing else changes. -/
structure Copies (d : Pgdir) (m m' : Mem) : Prop where
  bytes : ∀ f, (∀ j x, d.pte j = some x → x.user = true → x.frame ≠ f) → m'.bytes f = m.bytes f
  freelist : m'.freelist = m.freelist
  fails : m'.fails = m.fails
  null : m'.null = m.null
  nulls : m'.nulls = m.nulls
  loaded : m'.loaded = m.loaded

structure Writes (m m' : Mem) : Prop where
  fails : m'.fails = m.fails
  nulls : m.nulls.length ≤ m'.nulls.length
  loaded : m'.loaded = m.loaded

variable {L : Layout} {A : Pages L} {E : String → Prop} {m m' m'' : Mem} {rest : Multiset Nat}
  {d : Pgdir} {n va len sz sp : Nat} {buf : Nat → UInt8} {argv : List (List UInt8)}

theorem Copies.refl (d : Pgdir) (m : Mem) :
    Copies d m m := ⟨fun _ _ => rfl, rfl, rfl, rfl, rfl, rfl⟩

theorem Copies.trans (h : Copies d m m') (h' : Copies d m' m'') : Copies d m m'' :=
  ⟨fun f hf => (h'.bytes f hf).trans (h.bytes f hf), h'.freelist.trans h.freelist,
    h'.fails.trans h.fails, h'.null.trans h.null, h'.nulls.trans h.nulls,
    h'.loaded.trans h.loaded⟩

theorem Writes.refl (m : Mem) : Writes m m := ⟨rfl, le_rfl, rfl⟩

theorem Writes.trans (h : Writes m m') (h' : Writes m' m'') : Writes m m'' :=
  ⟨h'.fails.trans h.fails, h.nulls.trans h'.nulls, h'.loaded.trans h.loaded⟩

theorem wp_uva2ka (h : d.HasTable (n / NPTENTRIES)) {Q : Option Nat → Mem → Prop}
    (huser : ∀ x, d.pte n = some x → x.user = true → Q (some x.frame) m)
    (hnot : ¬ d.UserPage n → Q none m) : wp E (uva2ka d n) Q m := by
  unfold uva2ka readPte
  rw [wp_bind, wp_bind]
  refine wp_walkpgdir_present h ?_
  simp only
  rw [wp_pure]
  cases hx : d.pte n with
  | none =>
    simp only
    rw [wp_pure]
    apply hnot
    rintro ⟨x, hx', -⟩
    rw [hx] at hx'
    cases hx'
  | some x =>
    simp only
    by_cases hu : x.user = true
    · rw [if_pos hu, wp_pure]
      exact huser x hx hu
    · rw [if_neg hu, wp_pure]
      apply hnot
      rintro ⟨y, hy, hyu⟩
      rw [hx] at hy
      cases hy
      exact hu hyu

theorem wp_uva2ka_missing (h : ¬ d.HasTable (n / NPTENTRIES)) :
    wp E (uva2ka d n) (fun _ m' => Writes m m' ∧ m.nulls.length < m'.nulls.length) m := by
  have hnone : d.table (n / NPTENTRIES) = none := by
    unfold Pgdir.HasTable at h
    exact not_not.mp h
  unfold uva2ka readPte walkpgdir
  rw [hnone]
  simp only [Bool.false_eq_true, if_false]
  rw [wp_bind, wp_bind, wp_pure]
  simp only
  rw [wp_bind, wp_get, wp_bind, wp_modify, wp_pure]
  have hpost : Writes m { m with nulls := n :: m.nulls } ∧
      m.nulls.length < (n :: m.nulls).length := ⟨⟨rfl, by simp, rfl⟩, by simp⟩
  cases m.null m.nulls.length with
  | none =>
    rw [wp_pure]
    exact hpost
  | some x =>
    simp only
    split
    · rw [wp_pure]
      exact hpost
    · rw [wp_pure]
      exact hpost

theorem wp_uva2ka_writes : wp E (uva2ka d n) (fun _ m' => Writes m m') m := by
  by_cases h : d.HasTable (n / NPTENTRIES)
  · exact wp_uva2ka h (fun _ _ _ => .refl m) fun _ => .refl m
  · exact wp_mono (wp_uva2ka_missing h) fun _ _ hpost => hpost.1

theorem copyout_succ (h : 0 < len) : copyout d va buf len = (do
    match ← uva2ka d (va / PGSIZE) with
    | none => pure false
    | some f => do
      let m ← Act.get
      fillPage f (copyInto (m.bytes f) (va % PGSIZE) buf (min (PGSIZE - va % PGSIZE) len))
      copyout d ((va / PGSIZE + 1) * PGSIZE % 2 ^ 32)
        (fun i => buf (i + min (PGSIZE - va % PGSIZE) len))
        (len - min (PGSIZE - va % PGSIZE) len)) :=
  (copyout.eq_def d va buf len).trans (dif_pos h)

theorem copyout_zero : copyout d va buf 0 = pure true := by
  rw [copyout, dif_neg (by omega)]

theorem wp_copyout_writes : wp E (copyout d va buf len) (fun _ m' => Writes m m') m := by
  induction len using Nat.strong_induction_on generalizing va buf m with
  | _ len ih =>
    rcases Nat.eq_zero_or_pos len with hzero | hpos
    · subst hzero
      rw [copyout_zero, wp_pure]
      exact .refl m
    · rw [copyout_succ hpos]
      refine wp_seq wp_uva2ka_writes ?_
      intro r m1 hwrites
      cases r with
      | none =>
        rw [wp_pure]
        exact hwrites
      | some f =>
        simp only
        rw [wp_bind, wp_get, wp_bind]
        unfold fillPage
        rw [wp_modify]
        have hlt : len - min (PGSIZE - va % PGSIZE) len < len := by
          simp only [PGSIZE]
          omega
        refine wp_mono (ih _ hlt) ?_
        intro _ m' hwrites'
        refine hwrites.trans (Writes.trans ?_ hwrites')
        exact ⟨rfl, le_rfl, rfl⟩

/-- With its page tables there, `copyout` returns 0 exactly if all pages are user pages. -/
theorem wp_copyout (hva : va < 2 ^ 32)
    (htables : ∀ i < len, d.HasTable (pageAt va i / NPTENTRIES)) :
    wp E (copyout d va buf len) (fun ok m' => Copies d m m' ∧
      (ok = true ↔ ∀ i < len, d.UserPage (pageAt va i))) m := by
  induction len using Nat.strong_induction_on generalizing va buf m with
  | _ len ih =>
    rcases Nat.eq_zero_or_pos len with hzero | hpos
    · subst hzero
      rw [copyout_zero, wp_pure]
      exact ⟨.refl d m, by simp⟩
    · have hfirst : pageAt va 0 = va / PGSIZE := by
        simp only [pageAt, PGSIZE]
        omega
      obtain ⟨c, hc⟩ : ∃ c, c = min (PGSIZE - va % PGSIZE) len := ⟨_, rfl⟩
      have hpos' : 0 < c ∧ c ≤ len := by
        simp only [PGSIZE] at hc
        omega
      have hsame : ∀ i < c, pageAt va i = va / PGSIZE := by
        intro i hi
        simp only [pageAt, PGSIZE] at *
        omega
      have hnext : ∀ i < len - c,
          pageAt ((va / PGSIZE + 1) * PGSIZE % 2 ^ 32) i = pageAt va (c + i) := by
        intro i hi
        simp only [pageAt, PGSIZE] at *
        omega
      rw [copyout_succ hpos, ← hc, wp_bind]
      refine wp_uva2ka (by rw [← hfirst]; exact htables 0 hpos) ?_ ?_
      · intro x hx hu
        simp only
        rw [wp_bind, wp_get, wp_bind]
        unfold fillPage
        rw [wp_modify]
        refine wp_mono (ih (len - c) (by omega) (Nat.mod_lt _ (by decide)) ?_) ?_
        · intro i hi
          rw [hnext i hi]
          exact htables (c + i) (by omega)
        rintro ok m' ⟨hcopies, hok⟩
        refine ⟨Copies.trans ?_ hcopies, ?_⟩
        · refine ⟨?_, rfl, rfl, rfl, rfl, rfl⟩
          intro f hf
          exact Function.update_of_ne (hf _ x hx hu).symm _ _
        · rw [hok]
          constructor
          · intro hrest i hi
            by_cases hic : i < c
            · rw [hsame i hic]
              exact ⟨x, hx, hu⟩
            · have hat := hrest (i - c) (by omega)
              rw [hnext _ (by omega), Nat.add_sub_cancel' (by omega)] at hat
              exact hat
          · intro hall i hi
            rw [hnext i hi]
            exact hall (c + i) (by omega)
      · intro hnot
        simp only
        rw [wp_pure]
        refine ⟨.refl d m, ?_⟩
        simp only [Bool.false_eq_true, false_iff]
        intro hall
        exact hnot (hfirst ▸ hall 0 hpos)

/-- The bytes from `DEVSPACE` to the end of the address space. -/
abbrev DEVBYTES : Nat := 0x2000000

/-- A string of this length pushed from `sp` stays in the stack page. -/
def InStack (sz sp len : Nat) : Prop := len + 1 ≤ sp ∧ sz - PGSIZE ≤ pushed sp len

/-- No string, pushed after those that stay in the stack page, is long enough to reach below
the device mappings. -/
def ArgsFit (sz : Nat) : List (List UInt8) → Nat → Prop
  | [], _ => True
  | s :: rest, sp => s.length + 1 ≤ sp + DEVBYTES ∧
    (InStack sz sp s.length → ArgsFit sz rest (pushed sp s.length))

theorem ArgsFit.take (h : ArgsFit sz argv sp) (k : Nat) : ArgsFit sz (argv.take k) sp := by
  induction argv generalizing sp k with
  | nil =>
    rw [take_nil]
    trivial
  | cons s argv ih =>
    cases k with
    | zero => trivial
    | succ k => exact ⟨h.1, fun hin => ih (h.2 hin) k⟩

namespace Stacked

variable (h : Stacked sz d)

include h

theorem hasTable (hn : n < sz / PGSIZE) : d.HasTable (n / NPTENTRIES) := by
  have hbelow := h.below
  obtain ⟨x, hx⟩ := Option.isSome_iff_exists.mp ((h.present n (by
    simp only [PGSIZE, KERNBASE] at *
    omega)).mpr hn)
  exact Pgdir.hasTable_of_pte hx

theorem hasTable_device (hlo : DEVSPACE / PGSIZE ≤ n) (hhi : n < 2 ^ 20) :
    d.HasTable (n / NPTENTRIES) := by
  simp only [DEVSPACE, PGSIZE, NPTENTRIES] at *
  exact (h.tables (n / 1024) (by omega)).mpr (by omega)

theorem not_hasTable (hlo : (KERNBASE + PHYSTOP) / PGSIZE ≤ n)
    (hhi : n < DEVSPACE / PGSIZE) : ¬ d.HasTable (n / NPTENTRIES) := by
  simp only [DEVSPACE, PGSIZE, NPTENTRIES, KERNBASE, PHYSTOP] at *
  rw [h.tables (n / 1024) (by omega)]
  omega

theorem not_user_kernel (hn : KERNBASE / PGSIZE ≤ n) : ¬ d.UserPage n := by
  rintro ⟨x, hx, hu⟩
  rw [h.kernel n x hn hx] at hu
  cases hu

theorem not_user_guard : ¬ d.UserPage (sz / PGSIZE - 2) := by
  rintro ⟨x, hx, hu⟩
  have hbelow := h.below
  exact (h.user _ x (by simp only [PGSIZE, KERNBASE] at *; omega) hx).mp hu rfl

theorem user_stack : d.UserPage (sz / PGSIZE - 1) := by
  have hbelow := h.below
  have htwo := h.two
  have hn : sz / PGSIZE - 1 < KERNBASE / PGSIZE ∧ sz / PGSIZE - 1 < sz / PGSIZE ∧
      sz / PGSIZE - 1 ≠ sz / PGSIZE - 2 := by
    simp only [PGSIZE, KERNBASE] at *
    omega
  obtain ⟨x, hx⟩ := Option.isSome_iff_exists.mp ((h.present _ hn.1).mpr hn.2.1)
  exact ⟨x, hx, (h.user _ x hn.1 hx).mpr hn.2.2⟩

end Stacked

theorem InStack.pushed_le (h : InStack sz sp len) (hhi : sp ≤ sz) (hsz : sz < KERNBASE) :
    pushed sp len ≤ sz := by
  have hfirst := h.1
  simp only [pushed, KERNBASE] at *
  omega

theorem push_range (hsp : sp ≤ sz) (hsz : sz < KERNBASE) (hfits : len + 1 ≤ sp + DEVBYTES)
    {i : Nat} (hi : i < len + 1) : pageAt (pushed sp len) i < (sz + (PGSIZE - 1)) / PGSIZE ∨
      DEVSPACE / PGSIZE ≤ pageAt (pushed sp len) i ∧ pageAt (pushed sp len) i < 2 ^ 20 := by
  simp only [pageAt, pushed, PGSIZE, DEVSPACE, KERNBASE, DEVBYTES] at *
  omega

theorem wp_push (h : Stacked sz d) (hlo : sz - PGSIZE ≤ sp) (hhi : sp ≤ sz)
    (hfits : len + 1 ≤ sp + DEVBYTES) :
    wp E (copyout d (pushed sp len) buf (len + 1)) (fun ok m' => Copies d m m' ∧
      (ok = true ↔ InStack sz sp len)) m := by
  have hbelow := h.below
  have haligned := h.aligned
  have htwo := h.two
  have hva : pushed sp len < 2 ^ 32 := by
    unfold pushed
    omega
  refine wp_mono (wp_copyout hva ?_) ?_
  · intro i hi
    rcases push_range hhi hbelow hfits hi with hin | ⟨hdev, htop⟩
    · apply h.hasTable
      simp only [PGSIZE] at *
      omega
    · exact h.hasTable_device hdev htop
  rintro ok m' ⟨hcopies, hok⟩
  refine ⟨hcopies, hok.trans ⟨?_, ?_⟩⟩
  · intro hall
    have hfirst : len + 1 ≤ sp := by
      by_contra hwrap
      refine h.not_user_kernel ?_ (hall 0 (by omega))
      simp only [pageAt, pushed, PGSIZE, KERNBASE, DEVBYTES] at *
      omega
    refine ⟨hfirst, ?_⟩
    by_contra hlow
    -- the bytes below the stack page go through the guard page
    refine h.not_user_guard ?_
    have hguard : sz - 2 * PGSIZE - pushed sp len < len + 1 ∧
        pageAt (pushed sp len) (sz - 2 * PGSIZE - pushed sp len) = sz / PGSIZE - 2 := by
      simp only [pageAt, pushed, PGSIZE, KERNBASE] at *
      omega
    rw [← hguard.2]
    exact hall _ hguard.1
  · rintro ⟨hfirst, hlow⟩ i hi
    have hpage : pageAt (pushed sp len) i = sz / PGSIZE - 1 := by
      simp only [pageAt, pushed, PGSIZE, KERNBASE] at *
      omega
    rw [hpage]
    exact h.user_stack

theorem wp_push_missing (h : Stacked sz d) (hhi : sp ≤ sz) (hlen : len < PHYSTOP)
    (hlong : ¬ len + 1 ≤ sp + DEVBYTES) :
    wp E (copyout d (pushed sp len) buf (len + 1))
      (fun _ m' => m.nulls.length < m'.nulls.length) m := by
  have hbelow := h.below
  rw [copyout_succ (by omega)]
  have hmissing : ¬ d.HasTable (pushed sp len / PGSIZE / NPTENTRIES) := by
    apply h.not_hasTable
    · simp only [pushed, PGSIZE, KERNBASE, PHYSTOP, DEVBYTES] at *
      omega
    · simp only [pushed, PGSIZE, KERNBASE, PHYSTOP, DEVBYTES, DEVSPACE] at *
      omega
  refine wp_seq (wp_uva2ka_missing hmissing) ?_
  rintro r m1 ⟨-, hnulls⟩
  cases r with
  | none =>
    rw [wp_pure]
    exact hnulls
  | some f =>
    simp only
    rw [wp_bind, wp_get, wp_bind]
    unfold fillPage
    rw [wp_modify]
    refine wp_mono wp_copyout_writes ?_
    intro _ m' hwrites
    exact lt_of_lt_of_le hnulls hwrites.nulls

variable {ws : List Nat}

theorem wp_pushArgs_writes : wp E (pushArgs d argv sp ws) (fun _ m' => Writes m m') m := by
  induction argv generalizing sp ws m with
  | nil =>
    rw [pushArgs, wp_pure]
    exact .refl m
  | cons s argv ih =>
    rw [pushArgs]
    split
    · rw [wp_pure]
      exact .refl m
    · refine wp_seq wp_copyout_writes ?_
      intro ok m1 hwrites
      cases ok with
      | false =>
        rw [if_neg (by simp), wp_pure]
        exact hwrites
      | true =>
        rw [if_pos rfl]
        exact wp_mono ih fun _ _ hwrites' => hwrites.trans hwrites'

theorem wp_pushArgs (h : Stacked sz d) (hlo : sz - PGSIZE ≤ sp) (hhi : sp ≤ sz)
    (hws : ws.length ≤ MAXARG) (hfit : ArgsFit sz (argv.take (MAXARG - ws.length)) sp) :
    wp E (pushArgs d argv sp ws) (fun r m' => Copies d m m' ∧ ∀ sp' ws', r = some (sp', ws') →
      sz - PGSIZE ≤ sp' ∧ sp' ≤ sz ∧ ws'.length ≤ MAXARG) m := by
  induction argv generalizing sp ws m with
  | nil =>
    rw [pushArgs, wp_pure]
    refine ⟨.refl d m, ?_⟩
    intro sp' ws' hr
    cases hr
    exact ⟨hlo, hhi, hws⟩
  | cons s argv ih =>
    rw [pushArgs]
    by_cases hmax : ws.length ≥ MAXARG
    · rw [if_pos hmax, wp_pure]
      exact ⟨.refl d m, by simp⟩
    have hleft : MAXARG - ws.length = MAXARG - (ws ++ [pushed sp s.length]).length + 1 := by
      rw [length_append, length_singleton]
      omega
    rw [hleft] at hfit
    rw [if_neg hmax]
    refine wp_seq (wp_push h hlo hhi hfit.1) ?_
    rintro ok m1 ⟨hcopies, hok⟩
    cases ok with
    | false =>
      rw [if_neg (by simp), wp_pure]
      exact ⟨hcopies, by simp⟩
    | true =>
      have hin := hok.mp rfl
      rw [if_pos rfl]
      refine wp_mono (ih hin.2 (hin.pushed_le hhi h.below) ?_ (hfit.2 hin)) ?_
      · rw [length_append, length_singleton]
        omega
      rintro r m' ⟨hcopies', hr⟩
      exact ⟨hcopies.trans hcopies', hr⟩

theorem wp_pushArgs_missing (h : Stacked sz d)
    (hlo : sz - PGSIZE ≤ sp) (hhi : sp ≤ sz) (hws : ws.length + argv.length ≤ MAXARG)
    (hlen : ∀ s ∈ argv, s.length < PHYSTOP) (hfit : ¬ ArgsFit sz argv sp) :
    wp E (pushArgs d argv sp ws) (fun _ m' => m.nulls.length < m'.nulls.length) m := by
  induction argv generalizing sp ws m with
  | nil => exact absurd trivial hfit
  | cons s argv ih =>
    rw [length_cons] at hws
    rw [pushArgs, if_neg (by omega)]
    by_cases hlong : s.length + 1 ≤ sp + DEVBYTES
    · have hrest : InStack sz sp s.length ∧ ¬ ArgsFit sz argv (pushed sp s.length) := by
        unfold ArgsFit at hfit
        tauto
      refine wp_seq (wp_push h hlo hhi hlong) ?_
      rintro ok m1 ⟨hcopies, hok⟩
      rw [if_pos (hok.mpr hrest.1)]
      refine wp_mono (ih hrest.1.2 (hrest.1.pushed_le hhi h.below) ?_ ?_ hrest.2) ?_
      · rw [length_append, length_singleton]
        omega
      · exact fun t ht => hlen t (mem_cons_of_mem s ht)
      · intro _ m' hnulls
        rwa [hcopies.nulls] at hnulls
    · refine wp_seq (wp_push_missing h hhi (hlen s mem_cons_self) hlong) ?_
      intro ok m1 hnulls
      cases ok with
      | false =>
        rw [if_neg (by simp), wp_pure]
        exact hnulls
      | true =>
        rw [if_pos rfl]
        exact wp_mono wp_pushArgs_writes fun _ _ hwrites => lt_of_lt_of_le hnulls hwrites.nulls

theorem wp_execArgs_writes : wp E (execArgs d sz argv) (fun _ m' => Writes m m') m := by
  unfold execArgs
  refine wp_seq wp_pushArgs_writes ?_
  intro r m1 hwrites
  cases r with
  | none =>
    rw [wp_pure]
    exact hwrites
  | some r =>
    simp only
    refine wp_seq wp_copyout_writes ?_
    intro ok m' hwrites'
    rw [wp_pure]
    exact hwrites.trans hwrites'

theorem wp_execArgs (h : Stacked sz d) (hfit : ArgsFit sz (argv.take MAXARG) sz) :
    wp E (execArgs d sz argv) (fun _ m' => Copies d m m') m := by
  unfold execArgs
  refine wp_seq (wp_pushArgs h (Nat.sub_le _ _) le_rfl (Nat.zero_le _) hfit) ?_
  rintro r m1 ⟨hcopies, hr⟩
  cases r with
  | none =>
    rw [wp_pure]
    exact hcopies
  | some r =>
    obtain ⟨sp, ws⟩ := r
    obtain ⟨hlo, hhi, hws⟩ := hr sp ws rfl
    have hbelow := h.below
    have haligned := h.aligned
    have htwo := h.two
    simp only
    refine wp_seq (wp_copyout (by unfold below; omega) ?_) ?_
    · intro i hi
      apply h.hasTable
      simp only [pageAt, below, PGSIZE, KERNBASE, MAXARG] at *
      omega
    · rintro ok m' ⟨hcopies', -⟩
      rw [wp_pure]
      exact hcopies.trans hcopies'

theorem wp_execArgs_missing (h : Stacked sz d) (hnum : argv.length ≤ MAXARG)
    (hlen : ∀ s ∈ argv, s.length < PHYSTOP) (hfit : ¬ ArgsFit sz argv sz) :
    wp E (execArgs d sz argv) (fun _ m' => m.nulls.length < m'.nulls.length) m := by
  unfold execArgs
  refine wp_seq (wp_pushArgs_missing h (Nat.sub_le _ _) le_rfl ?_ hlen hfit) ?_
  · simpa using hnum
  intro r m1 hnulls
  cases r with
  | none =>
    rw [wp_pure]
    exact hnulls
  | some r =>
    simp only
    refine wp_seq wp_copyout_writes ?_
    intro ok m' hwrites
    rw [wp_pure]
    exact lt_of_lt_of_le hnulls hwrites.nulls

/-- While `exec` pushes its arguments no page table it looks for is missing exactly if the
strings fit, and `copyout` succeeds exactly for user pages where no page table is missing. -/
theorem exec_finds_tables_iff {ip : Inode} {m1 : Mem} {argv : List (List UInt8)}
    (h : Owns A m rest) (himage : execImage L ip m = .ok (some (sz, d)) m1)
    (hnum : argv.length < MAXARG) (hlen : ∀ s ∈ argv, s.length < PHYSTOP) :
    ((∃ r m', execArgs d sz argv m1 = .ok r m' ∧ m'.nulls = m1.nulls) ↔ ArgsFit sz argv sz) ∧
    ∀ (e : Pgdir) (va : Nat) (buf : Nat → UInt8) (len : Nat) (m2 : Mem), va < 2 ^ 32 →
      (∀ i < len, e.HasTable (pageAt va i / NPTENTRIES)) →
      ∃ ok m', copyout e va buf len m2 = .ok ok m' ∧
        (ok = true ↔ ∀ i < len, e.UserPage (pageAt va i)) := by
  have hstacked : Stacked sz d := by
    have hpost := wp_ok (wp_execImage (E := fun _ => False) h) himage
    exact (hpost.2.2.1 sz d rfl).2.1
  refine ⟨⟨?_, ?_⟩, ?_⟩
  · rintro ⟨r, m', hrun, hnulls⟩
    by_contra hfit
    have hlt := wp_ok (wp_execArgs_missing (E := fun _ => False) hstacked hnum.le hlen hfit) hrun
    rw [hnulls] at hlt
    exact lt_irrefl _ hlt
  · intro hfit
    obtain ⟨r, m', hrun, hcopies⟩ := wp_returns (wp_execArgs (m := m1) hstacked (hfit.take _))
    exact ⟨r, m', hrun, hcopies.nulls⟩
  · intro e va buf len m2 hva htables
    have hcopy : wp (fun _ => False) (copyout e va buf len) _ m2 := wp_copyout hva htables
    obtain ⟨ok, m', hrun, -, hok⟩ := wp_returns hcopy
    exact ⟨ok, m', hrun, hok⟩

def bareElf : Inode where
  size := ELFHDR
  data := fun i => [0x7f, 0x45, 0x4c, 0x46].getD i 0

theorem card_someLayout : (bootPages someLayout).all.card = 57086 := by
  rw [card_bootPages]
  decide

theorem exists_kernelSpace : ∃ m d, Owns (bootPages someLayout) m (d.frames + 0) ∧
    KernelSpace d ∧ ∀ i, m.fails i = false := by
  obtain ⟨m0, howns, hfails, -⟩ := exists_booted someLayout fullMem rfl
  have hnever : ∀ i, m0.fails i = false := fun i => by rw [hfails]; rfl
  have hsetup : wp (fun _ => False) (setupkvm someLayout) _ m0 := wp_setupkvm howns
  obtain ⟨r, m, -, hsame, -, hsome, hroom⟩ := wp_returns hsetup
  obtain ⟨d, rfl⟩ := Option.ne_none_iff_exists'.mp
    (hroom hnever (by rw [card_someLayout, Multiset.card_zero]; omega))
  obtain ⟨hown, hkernel⟩ := hsome d rfl
  exact ⟨m, d, hown, hkernel, fun i => by rw [hsame.fails, hnever]⟩

theorem exists_bareImage : ∃ m d m1, Owns (bootPages someLayout) m 0 ∧
    execImage someLayout bareElf m = .ok (some (2 * PGSIZE, d)) m1 := by
  obtain ⟨m, howns, hfails, -⟩ := exists_booted someLayout fullMem rfl
  have hroomy : Roomy (bootPages someLayout) 0 m := by
    refine ⟨fun i => by rw [hfails]; rfl, ?_⟩
    rw [card_someLayout, Multiset.card_zero]
    omega
  have hpost : wp (fun _ => False) (execImage someLayout bareElf) _ m := wp_execImage howns
  obtain ⟨r, m1, hrun, -, -, -, hroom⟩ := wp_returns hpost
  obtain ⟨d, hr⟩ := hroom (by decide) (by decide) (by decide) hroomy
  exact ⟨m, d, m1, howns, hr ▸ hrun⟩

theorem exec_finds_tables_hi : ∃ m d m1, Owns (bootPages someLayout) m 0 ∧
    execImage someLayout bareElf m = .ok (some (2 * PGSIZE, d)) m1 ∧
    ∃ r m', execArgs d (2 * PGSIZE) [[104, 105]] m1 = .ok r m' ∧ m'.nulls = m1.nulls := by
  obtain ⟨m, d, m1, howns, himage⟩ := exists_bareImage
  refine ⟨m, d, m1, howns, himage, ?_⟩
  refine (exec_finds_tables_iff howns himage (by decide) ?_).1.mpr ⟨by decide, fun _ => trivial⟩
  intro s hs
  rw [mem_singleton.mp hs]
  decide

def longString : List UInt8 := List.replicate 0x2002000 97

theorem length_longString : longString.length = 0x2002000 := length_replicate

/-- `exec` of a program with this one argument follows a null pointer. -/
theorem exec_misses_table : longString.length < PHYSTOP ∧
    ∃ m d m1, Owns (bootPages someLayout) m 0 ∧
      execImage someLayout bareElf m = .ok (some (2 * PGSIZE, d)) m1 ∧
      ∃ r m', execArgs d (2 * PGSIZE) [longString] m1 = .ok r m' ∧ m'.nulls ≠ m1.nulls := by
  have hlen : longString.length < PHYSTOP := by
    rw [length_longString]
    decide
  refine ⟨hlen, ?_⟩
  obtain ⟨m, d, m1, howns, himage⟩ := exists_bareImage
  refine ⟨m, d, m1, howns, himage, ?_⟩
  have hpost := wp_ok (wp_execImage (E := fun _ => False) howns) himage
  have hstacked : Stacked (2 * PGSIZE) d := (hpost.2.2.1 _ d rfl).2.1
  have hfit : ¬ ArgsFit (2 * PGSIZE) [longString] (2 * PGSIZE) := by
    intro hfit
    have hle := hfit.1
    rw [length_longString] at hle
    exact absurd hle (by decide)
  obtain ⟨r, m', hrun, hlt⟩ := wp_returns (wp_execArgs_missing (m := m1) hstacked
    (show [longString].length ≤ MAXARG by rw [length_singleton]; decide) (fun s hs => by
      rw [mem_singleton.mp hs]
      exact hlen) hfit)
  refine ⟨r, m', hrun, ?_⟩
  intro heq
  rw [heq] at hlt
  exact lt_irrefl _ hlt

end Xv6.Vm
