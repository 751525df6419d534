import Xv6.Vm.Leak

/-!
# What `exec` puts on the stack

An `exec` that succeeds has pushed every string into the stack page, one below the other, and below
them the words that the new program starts with.  A push that leaves the page goes through the
guard page, or through the device mappings at the end of the address space if the stack pointer
wraps, and then `copyout` fails.
-/

namespace Xv6.Vm

open Lib Lib.Act Function List

variable {L : Layout} {A : Pages L} {E : String → Prop} {m m' : Mem} {rest : Multiset Nat}
  {d : Pgdir} {n va len sz sp : Nat} {buf : Nat → UInt8} {x : Pte} {argv : List (List UInt8)}
  {ws : List Nat} {f lo hi : Nat} {Q : Bool → Mem → Prop}

def Pgdir.byte (d : Pgdir) (m : Mem) (va : Nat) : Option UInt8 :=
  (d.pte (va / PGSIZE)).map fun x => m.bytes x.frame (va % PGSIZE)

def Pgdir.word (d : Pgdir) (m : Mem) (va : Nat) : Option Nat :=
  (d.pte (va / PGSIZE)).map fun x => Vm.word (m.bytes x.frame) (va % PGSIZE)

/-- `copyout` fails at a page that is there and not for the user, whatever it finds through null
pointers on its way. -/
theorem wp_copyout_true (hva : va < 2 ^ 32) : wp E (copyout d va buf len) (fun ok _ => ok = true →
    ∀ i < len, d.HasTable (pageAt va i / NPTENTRIES) → d.UserPage (pageAt va i)) m := by
  induction len using Nat.strong_induction_on generalizing va buf m with
  | _ len ih =>
    rcases Nat.eq_zero_or_pos len with rfl | hpos
    · rw [copyout_zero, wp_pure]
      exact fun _ i hi => by omega
    · obtain ⟨c, hc⟩ : ∃ c, c = min (PGSIZE - va % PGSIZE) len := ⟨_, rfl⟩
      have hpage : wp E (uva2ka d (va / PGSIZE)) (fun r _ => r ≠ none →
          d.HasTable (va / PGSIZE / NPTENTRIES) → d.UserPage (va / PGSIZE)) m := by
        by_cases htable : d.HasTable (va / PGSIZE / NPTENTRIES)
        · exact wp_uva2ka htable (fun x hx hu _ _ => ⟨x, hx, hu⟩) fun _ hne => absurd rfl hne
        · exact wp_mono wp_uva2ka_writes fun _ _ _ _ h => absurd h htable
      rw [copyout_succ hpos, ← hc]
      refine wp_seq hpage fun r m1 hr => ?_
      cases r with
      | none =>
        rw [wp_pure]
        simp
      | some f =>
        simp only
        rw [wp_bind, wp_get, wp_bind]
        unfold fillPage
        rw [wp_modify]
        have hlt : len - c < len := by
          simp only [PGSIZE] at hc
          omega
        refine wp_mono (ih (len - c) hlt (Nat.mod_lt _ (by decide))) fun ok m' hok htrue i hi => ?_
        by_cases hic : i < c
        · have hfirst : pageAt va i = va / PGSIZE := by
            simp only [pageAt, PGSIZE] at *
            omega
          rw [hfirst]
          exact hr (by simp)
        · have hnext : pageAt ((va / PGSIZE + 1) * PGSIZE % 2 ^ 32) (i - c) = pageAt va i := by
            simp only [pageAt, PGSIZE] at *
            omega
          rw [← hnext]
          exact hok htrue (i - c) (by omega)

theorem wp_copyout_page (hx : d.pte (va / PGSIZE) = some x) (hu : x.user = true) (hpos : 0 < len)
    (hfit : va % PGSIZE + len ≤ PGSIZE)
    (hQ : Q true (m.setPage x.frame (copyInto (m.bytes x.frame) (va % PGSIZE) buf len))) :
    wp E (copyout d va buf len) Q m := by
  have hmin : min (PGSIZE - va % PGSIZE) len = len := by omega
  rw [copyout_succ hpos, hmin, wp_bind]
  refine wp_uva2ka (Pgdir.hasTable_of_pte hx) (fun y hy _ => ?_) fun hnot => absurd ⟨x, hx, hu⟩ hnot
  rw [hx] at hy
  cases hy
  simp only
  rw [wp_bind, wp_get, wp_bind]
  unfold fillPage
  rw [wp_modify, Nat.sub_self, copyout_zero, wp_pure]
  exact hQ

theorem Copies.setPage {j : Nat} (hx : d.pte j = some x) (hu : x.user = true) (p : Nat → UInt8) :
    Copies d m (m.setPage x.frame p) :=
  ⟨fun _ hf => update_of_ne (hf j x hx hu).symm _ _, rfl, rfl, rfl, rfl, rfl⟩

theorem word_copyInto {p : Nat → UInt8} {off i w : Nat} (hi : ws[i]? = some w)
    (hw : w < 2 ^ 32) : Vm.word (copyInto p off (wordBytes ws) (ws.length * 4)) (off + 4 * i) =
    w := by
  obtain ⟨hlt, -⟩ := List.getElem?_eq_some_iff.mp hi
  have hbyte : ∀ j, j < 4 → copyInto p off (wordBytes ws) (ws.length * 4) (off + 4 * i + j) =
      UInt8.ofNat (w / 256 ^ j) := fun j hj => by
    have hdiv : (off + 4 * i + j - off) / 4 = i := by omega
    have hmod : (off + 4 * i + j - off) % 4 = j := by omega
    rw [copyInto, if_pos (by omega), wordBytes, hdiv, hmod, getD_eq_getElem?_getD, hi]
    rfl
  have hzero := hbyte 0 (by omega)
  rw [Nat.add_zero] at hzero
  rw [Vm.word, hzero, hbyte 1 (by omega), hbyte 2 (by omega), hbyte 3 (by omega)]
  simp only [UInt8.toNat_ofNat']
  omega

/-- The strings lie in the page `f` one below the other, between `lo` and `hi`, at the addresses
given. -/
def Laid (f : Nat) (m : Mem) (lo : Nat) : Nat → List (List UInt8) → List Nat → Prop
  | hi, [], [] => lo ≤ hi
  | hi, s :: argv, a :: ws => a + s.length + 1 ≤ hi ∧
    (∀ j, j ≤ s.length → m.bytes f ((a + j) % PGSIZE) = cstring s j) ∧ Laid f m lo a argv ws
  | _, _, _ => False

section

variable (h : Laid f m lo hi argv ws)

include h

theorem Laid.lo_le : lo ≤ hi := by
  induction argv generalizing hi ws with
  | nil =>
    cases ws with
    | nil => exact h
    | cons a ws => exact h.elim
  | cons s argv ih =>
    cases ws with
    | nil => exact h.elim
    | cons a ws =>
      have hlast := ih h.2.2
      have hfirst := h.1
      omega

theorem Laid.get {i a : Nat} (ha : ws[i]? = some a) :
    ∃ s, argv[i]? = some s ∧ lo ≤ a ∧ a + s.length + 1 ≤ hi ∧
      ∀ j, j ≤ s.length → m.bytes f ((a + j) % PGSIZE) = cstring s j := by
  induction argv generalizing hi ws i with
  | nil =>
    cases ws with
    | nil => simp at ha
    | cons a ws => exact h.elim
  | cons s argv ih =>
    cases ws with
    | nil => exact h.elim
    | cons b ws =>
      obtain ⟨hend, hbytes, hrest⟩ := h
      have hlo := hrest.lo_le
      cases i with
      | zero =>
        cases ha
        exact ⟨s, rfl, hlo, hend, hbytes⟩
      | succ i =>
        obtain ⟨t, ht, hlo', hend', hbytes'⟩ := ih hrest ha
        exact ⟨t, ht, hlo', by omega, hbytes'⟩

theorem Laid.descend {i j a b : Nat} {s : List UInt8} (hij : i < j)
    (ha : ws[i]? = some a) (hb : ws[j]? = some b) (hs : argv[j]? = some s) :
    b + s.length + 1 ≤ a := by
  induction argv generalizing hi ws i j with
  | nil => simp at hs
  | cons t argv ih =>
    cases ws with
    | nil => exact h.elim
    | cons c ws =>
      obtain ⟨j, rfl⟩ : ∃ k, j = k + 1 := ⟨j - 1, by omega⟩
      cases i with
      | zero =>
        cases ha
        obtain ⟨s', hs', -, hend, -⟩ := h.2.2.get hb
        rw [getElem?_cons_succ, hs', Option.some.injEq] at hs
        rw [← hs]
        exact hend
      | succ i => exact ih h.2.2 (by omega) ha hb hs

theorem Laid.length_eq : ws.length = argv.length := by
  induction argv generalizing hi ws with
  | nil =>
    cases ws with
    | nil => rfl
    | cons a ws => exact h.elim
  | cons s argv ih =>
    cases ws with
    | nil => exact h.elim
    | cons a ws => rw [length_cons, length_cons, ih h.2.2]

theorem Laid.congr
    (hsame : ∀ va, lo ≤ va → va < hi → m'.bytes f (va % PGSIZE) = m.bytes f (va % PGSIZE)) :
    Laid f m' lo hi argv ws := by
  induction argv generalizing hi ws with
  | nil =>
    cases ws with
    | nil => exact h
    | cons a ws => exact h.elim
  | cons s argv ih =>
    cases ws with
    | nil => exact h.elim
    | cons a ws =>
      obtain ⟨hend, hbytes, hrest⟩ := h
      have hlo := hrest.lo_le
      refine ⟨hend, fun j hj => ?_, ih hrest fun va hva hlt => hsame va hva (by omega)⟩
      rw [hsame (a + j) (by omega) (by omega), hbytes j hj]

end

section Stack

variable (h : Stacked sz d) (hx : d.pte (sz / PGSIZE - 1) = some x) (hu : x.user = true)

include h

theorem Stacked.address (hlo : sz - PGSIZE ≤ va) (hhi : va < sz) :
    va / PGSIZE = sz / PGSIZE - 1 := by
  have haligned := h.aligned
  have htwo := h.two
  simp only [PGSIZE] at *
  omega

include hx hu

theorem wp_copyout_stack (hpos : 0 < len) (hend : va + len ≤ sz) (htop : sz ≤ va + len + 3 + PGSIZE)
    (hfalse : ∀ m', Q false m')
    (htrue : sz - PGSIZE ≤ va →
      Q true (m.setPage x.frame (copyInto (m.bytes x.frame) (va % PGSIZE) buf len))) :
    wp E (copyout d va buf len) Q m := by
  have haligned := h.aligned
  have htwo := h.two
  have hbelow := h.below
  by_cases hlo : sz - PGSIZE ≤ va
  · refine wp_copyout_page ?_ hu hpos ?_ (htrue hlo)
    · rw [h.address hlo (by omega)]
      exact hx
    · simp only [PGSIZE] at *
      omega
  · refine wp_mono (wp_copyout_true ?_) fun ok m' hok => ?_
    · simp only [KERNBASE] at hbelow
      omega
    cases ok with
    | false => exact hfalse m'
    | true =>
      have hguard : sz - 2 * PGSIZE - va < len ∧
          pageAt va (sz - 2 * PGSIZE - va) = sz / PGSIZE - 2 := by
        simp only [pageAt, PGSIZE, KERNBASE] at *
        omega
      have huser := hok rfl _ hguard.1
      rw [hguard.2] at huser
      refine absurd (huser (h.hasTable ?_)) h.not_user_guard
      simp only [PGSIZE] at *
      omega

theorem wp_push_stack (hlo : sz - PGSIZE ≤ sp) (hhi : sp ≤ sz)
    (hfalse : ∀ m', Q false m') (htrue : InStack sz sp len →
      Q true (m.setPage x.frame
        (copyInto (m.bytes x.frame) (pushed sp len % PGSIZE) buf (len + 1)))) :
    wp E (copyout d (pushed sp len) buf (len + 1)) Q m := by
  have htwo := h.two
  have hbelow := h.below
  by_cases hfits : len + 1 ≤ sp
  · refine wp_copyout_stack h hx hu (Nat.succ_pos _) ?_ ?_ hfalse fun hin => htrue ⟨hfits, hin⟩
    · simp only [pushed, KERNBASE] at *
      omega
    · simp only [pushed, PGSIZE, KERNBASE] at *
      omega
  · refine wp_mono (wp_copyout_true (by unfold pushed; omega)) fun ok m' hok => ?_
    cases ok with
    | false => exact hfalse m'
    | true =>
      have hwrap : 2 ^ 32 - 1 - pushed sp len < len + 1 ∧
          pageAt (pushed sp len) (2 ^ 32 - 1 - pushed sp len) = 2 ^ 20 - 1 := by
        simp only [pageAt, pushed, PGSIZE, KERNBASE] at *
        omega
      have huser := hok rfl _ hwrap.1
      rw [hwrap.2] at huser
      refine absurd (huser (h.hasTable_device (by decide) (by decide)))
        (h.not_user_kernel (by decide))

/-- The loop over the strings: where they are, and that it writes below `sp` only. -/
theorem wp_pushArgs_stack (hlo : sz - PGSIZE ≤ sp)
    (hhi : sp ≤ sz) (hfour : sp % 4 = 0) (hws : ws.length ≤ MAXARG) :
    wp E (pushArgs d argv sp ws) (fun r m' => ∀ sp' ws', r = some (sp', ws') →
      ∃ new, ws' = ws ++ new ∧ ws'.length ≤ MAXARG ∧ Laid x.frame m' sp' sp argv new ∧
        sz - PGSIZE ≤ sp' ∧ sp' % 4 = 0 ∧ Copies d m m' ∧
        ∀ va, sp ≤ va → va < sz → m'.bytes x.frame (va % PGSIZE) = m.bytes x.frame (va % PGSIZE))
      m := by
  have haligned := h.aligned
  have htwo := h.two
  have hbelow := h.below
  induction argv generalizing sp ws m with
  | nil =>
    rw [pushArgs, wp_pure]
    rintro sp' ws' ⟨⟩
    exact ⟨[], (append_nil _).symm, hws, Nat.le_refl _, hlo, hfour, .refl d m, fun _ _ _ => rfl⟩
  | cons s argv ih =>
    rw [pushArgs]
    by_cases hmax : ws.length ≥ MAXARG
    · rw [if_pos hmax, wp_pure]
      simp
    · rw [if_neg hmax]
      refine wp_bind.mpr (wp_push_stack h hx hu hlo hhi (fun m' => ?_) fun hin => ?_)
      · rw [if_neg (by simp), wp_pure]
        simp
      · rw [if_pos rfl]
        have hfirst := hin.1
        have hplace : pushed sp s.length + s.length + 1 ≤ sp ∧ pushed sp s.length % 4 = 0 := by
          simp only [pushed, KERNBASE] at *
          omega
        have hpush := hin.2
        generalize pushed sp s.length = a at hplace hpush
        refine wp_mono (ih hpush (by omega) hplace.2 ?_) ?_
        · rw [length_append, length_singleton]
          omega
        rintro r m' hr sp' ws' hsome
        obtain ⟨new, rfl, hnum, hlaid, hlo', hfour', hcopies, hkept⟩ := hr sp' ws' hsome
        refine ⟨a :: new, by rw [append_assoc]; rfl, hnum, ⟨hplace.1, fun j hj => ?_, hlaid⟩, hlo',
          hfour', (Copies.setPage hx hu _).trans hcopies, fun va hva hlt => ?_⟩
        · have hoff : (a + j) % PGSIZE = a % PGSIZE + j := by
            simp only [PGSIZE] at *
            omega
          rw [hkept (a + j) (by omega) (by omega), hoff]
          simp only [Mem.setPage, update_self, copyInto]
          rw [if_pos (by omega), Nat.add_sub_cancel_left]
        · have hoff : a % PGSIZE + (s.length + 1) ≤ va % PGSIZE := by
            simp only [PGSIZE] at *
            omega
          rw [hkept va (by omega) hlt]
          simp only [Mem.setPage, update_self, copyInto]
          rw [if_neg (by omega)]

theorem wp_execArgs_stack :
    wp E (execArgs d sz argv) (fun r m' => ∀ esp, r = some esp → Copies d m m' ∧
      ∃ ws, Laid x.frame m' (esp + (3 + argv.length + 1) * 4) sz argv ws ∧ sz - PGSIZE ≤ esp ∧
        esp % 4 = 0 ∧ ∀ i w, ([0xffffffff, argv.length, esp + 12] ++ ws ++ [0])[i]? = some w →
          Vm.word (m'.bytes x.frame) (esp % PGSIZE + 4 * i) = w) m := by
  have haligned := h.aligned
  have htwo := h.two
  have hbelow := h.below
  unfold execArgs
  refine wp_seq (wp_pushArgs_stack h hx hu (Nat.sub_le _ _) le_rfl
    (by simp only [PGSIZE] at *; omega) (Nat.zero_le _)) fun r m1 hr => ?_
  cases r with
  | none =>
    rw [wp_pure]
    simp
  | some r =>
    obtain ⟨sp, ws⟩ := r
    obtain ⟨new, rfl, hnum, hlaid, hlo, hfour, hcopies, -⟩ := hr sp ws rfl
    have hhi := hlaid.lo_le
    have hlength := hlaid.length_eq
    simp only
    have hesp : below sp ((3 + ws.length + 1) * 4) + (3 + ws.length + 1) * 4 = sp := by
      simp only [below, PGSIZE, MAXARG, KERNBASE] at *
      omega
    have hargv : below sp ((ws.length + 1) * 4) = below sp ((3 + ws.length + 1) * 4) + 12 := by
      simp only [below, PGSIZE, MAXARG, KERNBASE] at *
      omega
    rw [hargv]
    generalize below sp ((3 + ws.length + 1) * 4) = esp at hesp
    refine wp_bind.mpr (wp_copyout_stack h hx hu (by omega) (by omega) (by omega) (fun m' => ?_)
      fun hin => ?_)
    · rw [wp_pure]
      simp
    · rw [wp_pure]
      rintro esp' ⟨⟩
      have hwords : ([0xffffffff, ws.length, esp + 12] ++ ws ++ [0]).length =
          3 + ws.length + 1 := by
        simp only [length_append, length_cons, length_nil]
      refine ⟨hcopies.trans (.setPage hx hu _), ws, ?_, hin, by omega, ?_⟩
      · rw [← hlength, hesp]
        refine hlaid.congr fun va hva hlt => ?_
        have hoff : esp % PGSIZE + (3 + ws.length + 1) * 4 ≤ va % PGSIZE := by
          simp only [PGSIZE] at *
          omega
        simp only [Mem.setPage, update_self, copyInto]
        rw [if_neg (by omega)]
      · intro i w hw
        rw [← hlength] at hw
        simp only [Mem.setPage, update_self]
        rw [← hwords]
        refine word_copyInto hw ?_
        have hmem := mem_of_getElem? hw
        simp only [cons_append, nil_append, mem_cons, mem_append, not_mem_nil, or_false] at hmem
        simp only [KERNBASE, MAXARG] at hbelow hnum
        rcases hmem with rfl | rfl | rfl | hmem | rfl
        · decide
        · omega
        · omega
        · obtain ⟨j, hj⟩ := getElem?_of_mem hmem
          obtain ⟨s, -, -, hend, -⟩ := hlaid.get hj
          omega
        · decide

end Stack

/-- The arguments in an address space of size `sz`: the words at `esp`, and the strings at the
addresses `ws`. -/
structure Delivered (d : Pgdir) (m : Mem) (sz esp : Nat) (argv : List (List UInt8))
    (ws : List Nat) : Prop where
  pc : d.word m esp = some 0xffffffff
  argc : d.word m (esp + 4) = some argv.length
  array : d.word m (esp + 8) = some (esp + 12)
  length : ws.length = argv.length
  pointer : ∀ (i : Nat) a, ws[i]? = some a → d.word m (esp + 12 + 4 * i) = some a
  null : d.word m (esp + 12 + 4 * argv.length) = some 0
  string : ∀ (i : Nat) a, ws[i]? = some a → ∃ s, argv[i]? = some s ∧
    esp + 12 + 4 * (argv.length + 1) ≤ a ∧ a + s.length + 1 ≤ sz ∧
    ∀ j, j ≤ s.length → d.byte m (a + j) = some (cstring s j)
  disjoint : ∀ (i j : Nat) a b s, i < j → ws[i]? = some a → ws[j]? = some b → argv[j]? = some s →
    b + s.length + 1 ≤ a
  page : sz - PGSIZE ≤ esp

theorem Stacked.delivered {esp : Nat} (h : Stacked sz d) (hx : d.pte (sz / PGSIZE - 1) = some x)
    (hlaid : Laid x.frame m (esp + (3 + argv.length + 1) * 4) sz argv ws) (hlo : sz - PGSIZE ≤ esp)
    (hfour : esp % 4 = 0) (hwords : ∀ i w, ([0xffffffff, argv.length, esp + 12] ++ ws ++ [0])[i]? =
      some w → Vm.word (m.bytes x.frame) (esp % PGSIZE + 4 * i) = w) :
    Delivered d m sz esp argv ws := by
  have haligned := h.aligned
  have hhi := hlaid.lo_le
  have hlength := hlaid.length_eq
  have hword : ∀ i w, ([0xffffffff, argv.length, esp + 12] ++ ws ++ [0])[i]? = some w →
      d.word m (esp + 4 * i) = some w := by
    intro i w hw
    obtain ⟨hi, -⟩ := List.getElem?_eq_some_iff.mp hw
    simp only [length_append, length_cons, length_nil] at hi
    have hoff : (esp + 4 * i) % PGSIZE = esp % PGSIZE + 4 * i := by
      simp only [PGSIZE] at *
      omega
    rw [Pgdir.word, h.address (by omega) (by omega), hx, Option.map_some, hoff, hwords i w hw]
  refine ⟨hword 0 _ rfl, hword 1 _ rfl, hword 2 _ rfl, hlength, fun i a ha => ?_, ?_,
    fun i a ha => ?_, fun i j a b s hij => hlaid.descend hij, hlo⟩
  · obtain ⟨hi, -⟩ := List.getElem?_eq_some_iff.mp ha
    have hget : (ws ++ [0])[i]? = some a := by rw [List.getElem?_append_left hi, ha]
    rw [show esp + 12 + 4 * i = esp + 4 * (i + 3) by omega]
    exact hword (i + 3) a hget
  · have hget : (ws ++ [0])[ws.length]? = some 0 := getElem?_concat_length
    rw [show esp + 12 + 4 * argv.length = esp + 4 * (ws.length + 3) by omega]
    exact hword (ws.length + 3) 0 hget
  · obtain ⟨s, hs, hle, hend, hbytes⟩ := hlaid.get ha
    refine ⟨s, hs, by omega, hend, fun j hj => ?_⟩
    rw [Pgdir.byte, h.address (by omega) (by omega), hx, Option.map_some, hbytes j hj]

theorem wp_exec_delivers {ip : Inode} {old : Pgdir} (h : Owns A m (old.frames + rest)) :
    wp E (exec L ip argv old) (fun r m' => ∀ img, r = some img →
      ∃ ws, Delivered img.space.pgdir m' img.space.sz img.esp argv ws) m := by
  unfold exec
  refine wp_seq (wp_execImage h) ?_
  rintro r m1 ⟨-, -, hsome, -⟩
  cases r with
  | none =>
    rw [wp_pure]
    exact nofun
  | some r =>
    obtain ⟨sz, d⟩ := r
    obtain ⟨howns1, hstacked, -⟩ := hsome sz d rfl
    obtain ⟨x, hx, hu⟩ := hstacked.user_stack
    simp only
    refine wp_seq (wp_execArgs_stack hstacked hx hu) ?_
    intro r m2 hr
    cases r with
    | none =>
      simp only
      refine wp_seq (wp_freevm_within (howns1.within (Multiset.le_add_right _ _))) ?_
      intro _ m' _
      rw [wp_pure]
      exact nofun
    | some esp =>
      obtain ⟨hcopies, ws, hlaid, hlo, hfour, hwords⟩ := hr esp rfl
      have howns2 := howns1.copies hcopies fun j x hx hu => hstacked.user_below hx hu
      rw [add_left_comm] at howns2
      simp only
      refine wp_seq (wp_freevm howns2) ?_
      rintro - m' ⟨hsame, -⟩
      rw [wp_pure]
      rintro img ⟨⟩
      -- the stack page is not one of those that have been freed
      have hkept : m'.bytes x.frame = m2.bytes x.frame := by
        refine hsame.bytes _ (Multiset.mem_add.mpr (Or.inl ?_))
        exact Pgdir.frame_mem_frames (hstacked.user_below hx hu) hx
      refine ⟨ws, hstacked.delivered hx (hlaid.congr fun va _ _ => by rw [hkept]) hlo hfour ?_⟩
      intro i w hw
      rw [hkept]
      exact hwords i w hw

/-- An `exec` that succeeds has delivered the arguments. -/
theorem exec_delivers_arguments {ip : Inode} {argv : List (List UInt8)} {old : Pgdir} {img : Image}
    (h : Owns A m (old.frames + rest)) (hexec : exec L ip argv old m = .ok (some img) m') :
    ∃ ws, Delivered img.space.pgdir m' img.space.sz img.esp argv ws :=
  wp_ok (wp_exec_delivers (E := fun _ => False) h) hexec img rfl

theorem wp_execArgs_hi (h : Stacked (2 * PGSIZE) d) :
    wp E (execArgs d (2 * PGSIZE) [[104, 105]]) (fun r _ => r ≠ none) m := by
  obtain ⟨x, hx, hu⟩ := h.user_stack
  have hpush : wp E (pushArgs d [[104, 105]] (2 * PGSIZE) [])
      (fun r _ => r = some (8188, [8188])) m := by
    refine wp_bind.mpr (wp_copyout_page hx hu (by decide) (by decide) ?_)
    rw [if_pos rfl, pushArgs, wp_pure]
    rfl
  refine wp_seq hpush ?_
  rintro r m1 rfl
  refine wp_bind.mpr (wp_copyout_page hx hu (by decide) (by decide) ?_)
  rw [wp_pure, if_pos rfl]
  simp

theorem exec_delivers_hi : ∃ (m : Mem) (old : Pgdir) (img : Image) (m' : Mem),
    exec someLayout bareElf [[104, 105]] old m = .ok (some img) m' ∧
    ∃ ws, Delivered img.space.pgdir m' img.space.sz img.esp [[104, 105]] ws := by
  obtain ⟨m, old, k, howns, hnever, hcard⟩ := exists_process
  have hroomy : Roomy (bootPages someLayout) (old.frames + {k}) m := by
    refine ⟨hnever, ?_⟩
    rw [card_someLayout]
    omega
  have hrun : wp (fun _ => False) (exec someLayout bareElf [[104, 105]] old) (fun r _ => r ≠ none)
      m := by
    unfold exec
    refine wp_seq (wp_execImage howns) ?_
    rintro r m1 ⟨-, -, hsome, hroom⟩
    obtain ⟨d, rfl⟩ := hroom (by decide) (by decide) (by decide) hroomy
    simp only
    refine wp_seq (wp_execArgs_hi (hsome _ d rfl).2.1) fun r m2 hr => ?_
    cases r with
    | none => exact absurd rfl hr
    | some esp =>
      refine wp_seq (wp_freevm_within (howns.within (Multiset.le_add_right _ _))) fun _ m' _ => ?_
      rw [wp_pure]
      simp
  obtain ⟨r, m', hexec, hr⟩ := wp_returns hrun
  obtain ⟨img, rfl⟩ := Option.ne_none_iff_exists'.mp hr
  exact ⟨m, old, img, m', hexec, exec_delivers_arguments howns hexec⟩

end Xv6.Vm
