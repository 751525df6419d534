import Xv6.Malloc.Heap
import Xv6.Vm.Flat

/-!
# malloc over the kernel's sbrk

`morecore` hands the bytes it wants to `sbrk` as an `int`.  For requests of up to
2147483632 bytes nothing wraps, and `malloc` returns 0 or a block in memory that `sbrk` has
added to the process.  For every larger request there is a heap in which it returns a block
that is too small, or memory the process does not have.
-/

namespace Xv6.Malloc

open Heap Lib Lib.Act List

variable {L : Vm.Layout} {m : Vm.Mem} {p p' : Vm.Space} {base nbytes : Nat} {h h' : Heap}
  {fs : List Run} {reply : Option Nat}

/-- The argument of `sbrk` when `malloc(nbytes)` needs more memory: `nu * sizeof(Header)`,
converted to an `int`. -/
def request (nbytes : Nat) : Int :=
  (BitVec.ofNat 32 (coreUnits (units nbytes) * HEADER)).toInt

/-- What `sbrk(n)` answers in the kernel, and the process after it. -/
def Answers (L : Vm.Layout) (m : Vm.Mem) (p : Vm.Space) (n : Int) (reply : Option Nat)
    (p' : Vm.Space) : Prop :=
  ∃ r m', Vm.sbrk L p n m = .ok (r, p') m' ∧ reply = if r = -1 then none else some r.toNat

/-- A heap in a process: `base` and all memory obtained so far lie below its size. -/
structure InProcess (base : Nat) (h : Heap) (p : Vm.Space) : Prop where
  started : Started base h
  base_pos : 0 < base
  base_lt : base + HEADER ≤ p.sz
  regions_le : ∀ r ∈ h.regions, r.1 + r.2 ≤ p.sz
  size_le : p.sz ≤ Vm.KERNBASE

/-- The `nbytes` bytes at `r` belong to memory obtained before or in this call, and to no
live block and no header of one. -/
structure Usable (h h' : Heap) (p p' : Vm.Space) (r nbytes : Nat) : Prop where
  obtained : ∀ x, r ≤ x → x < r + nbytes →
    h.Obtained x ∨ (h'.regions ≠ h.regions ∧ p.sz ≤ x ∧ x < p'.sz)
  apart : ∀ b ∈ h.live, ∀ x, r ≤ x → x < r + nbytes →
    ¬(b.1 ≤ x ∧ x < b.1 + HEADER + b.2)

/-- Whatever the heap, `malloc(nbytes)` returns 0 or a usable block. -/
def NeverTooSmall (nbytes : Nat) : Prop :=
  ∀ (L : Vm.Layout) (m : Vm.Mem) (base : Nat) (h : Heap) (p p' : Vm.Space) (reply : Option Nat),
    InProcess base h p → Answers L m p (request nbytes) reply p' →
    ∃ bound, ∀ fuel, bound ≤ fuel → ∃ r h', h.malloc base nbytes fuel [reply] = .ok r h' ∧
      (r = 0 ∨ Usable h h' p p' r nbytes)

theorem request_pos (hn : nbytes ≤ 2147483632) :
    request nbytes = (HEADER * coreUnits (units nbytes) : Nat) ∧
      HEADER * coreUnits (units nbytes) < 2147483648 := by
  have hunits : units nbytes < 268435456 := by
    simp only [units, wrap, HEADER]
    omega
  have hle : coreUnits (units nbytes) * 8 < 2147483648 := by
    rw [coreUnits]
    split <;> omega
  simp only [request, HEADER, BitVec.toInt_eq_toNat_cond, BitVec.toNat_ofNat]
  rw [Nat.mod_eq_of_lt (by omega), if_pos (by omega)]
  omega

theorem Answers.grow {n : Int} (h : Answers L m p n reply p') (hsz : p.sz ≤ Vm.KERNBASE)
    (hpos : 0 < n) (hn : n < 2147483648) :
    reply = none ∨ (reply = some p.sz ∧ (p'.sz : Int) = p.sz + n) := by
  obtain ⟨r, m', hrun, rfl⟩ := h
  have harg : ((p.sz + n) % 2 ^ 32).toNat = p.sz + n.toNat := by
    simp only [Vm.KERNBASE] at hsz
    omega
  have hgrow : wp (fun _ => True) (Vm.growproc L p n) (fun a _ =>
      a.1 = true → (a.2.sz : Int) = p.sz + n) m := by
    simp only [Vm.growproc, hpos, if_true, harg]
    refine wp_seq (Vm.wp_run (c := .allocuvm p.sz (p.sz + n.toNat)) trivial) fun a m1 ha => ?_
    rw [wp_pure]
    split_ifs with hzero
    · simp
    · intro _
      rcases ha with ⟨-, ha⟩ | ⟨ha, -⟩ | ⟨ha, -⟩
      · rw [if_neg (by omega)] at ha
        exact absurd ha hzero
      · exact absurd ha hzero
      · simp only [ha]
        omega
  have hsbrk : wp (fun _ => True) (Vm.sbrk L p n) (fun a _ =>
      a.1 = -1 ∨ (a.1 = p.sz ∧ (a.2.sz : Int) = p.sz + n)) m := by
    refine wp_seq hgrow fun a m1 ha => ?_
    rw [wp_pure]
    split_ifs with hok
    · exact Or.inr ⟨rfl, ha hok⟩
    · exact Or.inl rfl
  rcases wp_ok hsbrk hrun with hfail | ⟨hr, hsize⟩
  · exact Or.inl (if_pos hfail)
  · have hr' : r = p.sz := hr
    refine Or.inr ⟨?_, hsize⟩
    rw [if_neg (by omega), hr', Int.toNat_natCast]

theorem Inv.regions {fuel q : Nat} (hbase : 0 < base) (hi : Inv base h fs)
    (hloop : Heap.loop base (units nbytes) fuel h h.freep (h.mem h.freep).ptr [reply] = .ok q h') :
    h'.regions = h.regions ∨ ∃ a, reply = some a ∧
      h'.regions = (a, wrap (coreUnits (units nbytes) * HEADER)) :: h.regions := by
  have hserved := hi.served nbytes [reply] hbase (Nat.le_max_right fuel (2 * fs.length + 4))
  rw [loop_mono hloop (Nat.le_max_left fuel _)] at hserved
  cases hserved with
  | found taken => exact Or.inl taken.regions
  | grown fresh freed taken => exact Or.inr ⟨_, rfl, taken.regions.trans freed.regions⟩
  | refused => exact Or.inl rfl

theorem usable_block {r : Nat} (hi : Inv base { h' with live := (r, nbytes) :: h.live } fs)
    (hobtained : ∀ x, h'.Obtained x →
      h.Obtained x ∨ (h'.regions ≠ h.regions ∧ p.sz ≤ x ∧ x < p'.sz)) :
    Usable h h' p p' (r + HEADER) nbytes := by
  have hwf := hi.wellFormed
  have huse := hi.usable
  obtain ⟨-, hblocks, -⟩ := pairwise_append.mp hwf.apart
  simp only [Heap.blocks, map_cons, pairwise_cons] at hblocks
  have hfit := huse (r, nbytes) mem_cons_self
  simp only [HEADER] at hfit
  refine ⟨fun x hx hx' => hobtained x ((hwf.tile x).mpr ?_), fun b hb x hx hx' hin => ?_⟩
  · refine ⟨runOf h'.mem (r, nbytes), by simp [Heap.blocks], ?_⟩
    simp only [runOf, Run.stop, HEADER] at hx hx' ⊢
    omega
  · have hother := huse b (mem_cons_of_mem _ hb)
    rcases hblocks.1 _ (mem_map_of_mem hb) with h | h <;>
      simp only [runOf, Run.stop, HEADER] at h hx hx' hin hother <;> omega

theorem InProcess.fresh (hp : InProcess base h p) : Fresh base (Heap.init base h) p.sz := by
  obtain ⟨-, -, hregions, -⟩ := hp.started.init hp.base_pos
  exact ⟨hp.base_lt, fun r hr => hp.regions_le r (hregions ▸ hr)⟩

/-- `malloc` ends, whatever is asked for; with an answer or a block in the list it does not
return 0. -/
theorem InProcess.returns (hp : InProcess base h p) (nbytes : Nat)
    (hreply : reply = none ∨ reply = some p.sz) : ∃ bound, ∀ fuel, bound ≤ fuel →
      ∃ r h', h.malloc base nbytes fuel [reply] = .ok r h' ∧ (r = 0 → reply = none) := by
  obtain ⟨⟨fs, hi⟩, -, -, -⟩ := hp.started.init hp.base_pos
  refine ⟨2 * fs.length + 4, fun fuel hfuel => ?_⟩
  have hserved := hi.served nbytes [reply] hp.base_pos hfuel
  rw [Heap.malloc]
  generalize Heap.loop base (units nbytes) fuel (Heap.init base h) _ _ _ = out at hserved
  cases hserved with
  | found | grown => exact ⟨_, _, rfl, by simp [HEADER]⟩
  | refused => exact ⟨_, _, rfl, fun _ => rfl⟩
  | overlap stale =>
    have hfresh := hp.fresh
    simp only [reduceCtorEq, Option.some.injEq, false_or] at hreply
    exact absurd (hreply ▸ hfresh) stale

theorem neverTooSmall_of_le (hn : nbytes ≤ 2147483632) : NeverTooSmall nbytes := by
  intro L m base h p p' reply hp hanswer
  obtain ⟨hrequest, hlt⟩ := request_pos hn
  have hpos := (le_coreUnits (units nbytes)).2
  have hreply := hanswer.grow hp.size_le (by simp only [hrequest, HEADER]; omega) (by omega)
  obtain ⟨bound, hreturns⟩ := hp.returns nbytes (hreply.imp_right And.left)
  refine ⟨bound, fun fuel hfuel => ?_⟩
  obtain ⟨r, h', hrun, -⟩ := hreturns fuel hfuel
  refine ⟨r, h', hrun, ?_⟩
  obtain ⟨⟨fs, hi⟩, hlive, hregions, -⟩ := hp.started.init hp.base_pos
  rcases hi.loop hp.base_pos hn hrun with ⟨rfl, -⟩ | ⟨a, fs', rfl, hlive', hi', -⟩
  · exact Or.inl rfl
  · right
    rw [hlive', hlive] at hi'
    refine usable_block hi' fun x hx => ?_
    obtain ⟨region, hmem, hx⟩ := hx
    rcases hi.regions hp.base_pos hrun with hsame | ⟨s, hs, hmore⟩
    · rw [hsame, hregions] at hmem
      exact Or.inl ⟨region, hmem, hx⟩
    · rw [hmore, hregions] at hmem
      rcases mem_cons.mp hmem with rfl | hmem
      · -- the region `sbrk` has added in this call
        right
        rcases hreply with hnone | ⟨hsome, hsize⟩
        · simp [hnone] at hs
        · obtain rfl := Option.some.inj (hsome.symm.trans hs)
          rw [wrap_coreUnits hn] at hx
          refine ⟨fun heq => ?_, hx.1, by omega⟩
          have hlength := congrArg List.length (hmore.symm.trans heq)
          simp [hregions] at hlength
      · exact Or.inl ⟨region, hmem, hx⟩

/-- A request for no memory, or for less than none, succeeds. -/
theorem answers_nonpos {n : Int} (hn : n ≤ 0) (hlow : -2147483648 ≤ n) (hsz : p.sz ≤ 2048)
    (hpos : 0 < p.sz) (hne : p.sz + n ≠ 0) :
    ∃ p', Answers L m p n (some p.sz) p' ∧ p'.sz ≤ p.sz := by
  have hgrow : wp (fun _ => False) (Vm.growproc L p n) (fun a _ =>
      a.1 = true ∧ a.2.sz ≤ p.sz) m := by
    rw [Vm.growproc, if_neg (by omega)]
    split_ifs with hneg
    · rw [Vm.deallocuvm]
      split_ifs with hge
      · simp only [wp_bind, wp_pure]
        rw [if_neg (by omega)]
        exact ⟨rfl, le_rfl⟩
      · have harg : 0 < ((p.sz + n) % 2 ^ 32).toNat := by omega
        have hup : Vm.pageUp ((p.sz + n) % 2 ^ 32).toNat = 1 := by
          simp only [Vm.pageUp, Vm.PGSIZE]
          omega
        rw [hup, Vm.deallocLoop, if_neg (by simp only [Vm.PGSIZE]; omega)]
        simp only [wp_bind, wp_pure]
        rw [if_neg (by omega)]
        exact ⟨rfl, by simp only; omega⟩
    · exact (wp_pure _).mpr ⟨rfl, le_rfl⟩
  obtain ⟨⟨ok, p'⟩, m', hrun, hok, hle⟩ := wp_returns hgrow
  obtain rfl : ok = true := hok
  refine ⟨p', ⟨p.sz, m', ?_, ?_⟩, hle⟩
  · simp [Vm.sbrk, bind, hrun, pure]
  · rw [if_neg (by omega), Int.toNat_natCast]

/-- From 2147483633 bytes on the argument of `sbrk` is negative or 0. -/
theorem tooSmall_of_negative (hlow : 2147483632 < nbytes) (hhigh : nbytes ≤ 4294967288) :
    ¬NeverTooSmall nbytes := by
  have hunits : 268435456 ≤ units nbytes ∧ units nbytes ≤ 536870912 := by
    simp only [units, wrap, HEADER]
    omega
  have hrequest : request nbytes ≤ 0 ∧ -2147483648 ≤ request nbytes := by
    have hcore : coreUnits (units nbytes) = units nbytes := by
      rw [coreUnits, if_neg (by omega)]
    simp only [request, hcore, HEADER, BitVec.toInt_eq_toNat_cond, BitVec.toNat_ofNat]
    split <;> omega
  -- a process size that the request does not bring to 0
  obtain ⟨sz, hsz, hbase, hne⟩ : ∃ sz : Nat, sz ≤ 2048 ∧ 24 ≤ sz ∧ sz + request nbytes ≠ 0 := by
    by_cases h : request nbytes = -2048
    · exact ⟨1024, by omega⟩
    · exact ⟨2048, by omega⟩
  intro h
  have hp : InProcess 16 (boot fun _ => ⟨0, 0⟩) ⟨.new 0, sz⟩ :=
    ⟨Or.inl ⟨rfl, rfl, rfl⟩, by decide, hbase, by simp [boot], by simp only [Vm.KERNBASE]; omega⟩
  obtain ⟨p', hanswer, hshrunk⟩ := answers_nonpos (L := Vm.someLayout) (m := Vm.fullMem)
    (p := ⟨.new 0, sz⟩) hrequest.1 hrequest.2 hsz (by simp only; omega) hne
  obtain ⟨bound, hgood⟩ := h _ _ _ _ _ _ _ hp hanswer
  obtain ⟨bound', hreturns⟩ := hp.returns nbytes (Or.inr rfl)
  obtain ⟨r, h', hrun, hblock⟩ := hgood (max bound bound') (le_max_left _ _)
  obtain ⟨r', g, hrun', hr⟩ := hreturns (max bound bound') (le_max_right _ _)
  obtain ⟨rfl, rfl⟩ := Outcome.ok.inj (hrun.symm.trans hrun')
  rcases hblock with rfl | huse
  · simp at hr
  · rcases huse.obtained r le_rfl (by omega) with ⟨_, hmem, -⟩ | ⟨-, hlo, hhi⟩
    · simp [boot] at hmem
    · omega

/-- From 4294967289 bytes on the rounding wraps, and one unit is enough. -/
theorem tooSmall_of_wrap (hlow : 4294967288 < nbytes) (hhigh : nbytes < 4294967296) :
    ¬NeverTooSmall nbytes := by
  have hunits : units nbytes = 1 := by
    simp only [units, wrap, HEADER]
    omega
  obtain ⟨h1, hstep, hregions, r, g, hfound, hr⟩ : ∃ h1,
      step 16 (boot fun _ => ⟨0, 0⟩) (.malloc 100 8 [some 4096]) = .ok () h1 ∧
      h1.regions = [(4096, 32768)] ∧
      ∃ r g, Heap.loop 16 1 8 (Heap.init 16 h1) (Heap.init 16 h1).freep
        ((Heap.init 16 h1).mem (Heap.init 16 h1).freep).ptr [none] = .ok r g ∧ r ≠ 0 :=
    ⟨_, rfl, rfl, _, _, rfl, by decide⟩
  intro h
  have hp : InProcess 16 h1 ⟨.new 0, 2147480000⟩ :=
    ⟨Started.step (by decide) (Or.inl ⟨rfl, rfl, rfl⟩) hstep, by decide, by decide,
      by simp [hregions], by decide⟩
  have hanswer : Answers Vm.someLayout Vm.fullMem ⟨.new 0, 2147480000⟩ (request nbytes) none
      ⟨.new 0, 2147480000⟩ := by
    rw [request, hunits]
    exact ⟨-1, Vm.fullMem, rfl, rfl⟩
  obtain ⟨bound, hgood⟩ := h _ _ _ _ _ _ _ hp hanswer
  obtain ⟨r', h', hrun, hblock⟩ := hgood (max bound 8) (le_max_left _ _)
  rw [Heap.malloc, hunits, loop_mono hfound (le_max_right _ _)] at hrun
  obtain ⟨rfl, rfl⟩ := Outcome.ok.inj hrun
  rcases hblock with hzero | huse
  · exact hr hzero
  · rcases huse.obtained (r + nbytes - 1) (by omega) (by omega) with ⟨_, hmem, hx⟩ | ⟨-, hlo, hhi⟩
    · rw [hregions, mem_singleton] at hmem
      subst hmem
      simp only at hx
      omega
    · omega

/-- For which requests `malloc` never returns a block that is too small. -/
theorem malloc_neverTooSmall_iff (hn : nbytes < 4294967296) :
    NeverTooSmall nbytes ↔ nbytes ≤ 2147483632 := by
  constructor
  · intro h
    by_contra hbig
    rcases Nat.lt_or_ge 4294967288 nbytes with hwrap | hneg
    · exact tooSmall_of_wrap hwrap hn h
    · exact tooSmall_of_negative (by omega) hneg h
  · exact neverTooSmall_of_le

theorem malloc_neverTooSmall_page : NeverTooSmall 4096 :=
  (malloc_neverTooSmall_iff (by decide)).mpr (by decide)

/-- `malloc(0xffffffff)`. -/
theorem malloc_too_small : ¬NeverTooSmall 4294967295 :=
  tooSmall_of_wrap (by decide) (by decide)

end Xv6.Malloc
