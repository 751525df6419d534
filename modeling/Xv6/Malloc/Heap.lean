import Mathlib.Data.List.Pairwise
import Xv6.Lib.Transition
import Xv6.Malloc.Alloc

/-!
# The heap over whole runs

The free runs and the blocks in use tile the memory obtained from `sbrk`.  Each of the three
things the allocator does (a region is obtained, a block becomes free, a block is taken) moves
one run from one side to the other and writes no header inside another block.
-/

namespace Xv6.Malloc

open Heap Lib Function List

variable {h h' : Heap} {b c r : Run} {fs fs' bs bs' : List Run} {base x : Nat} {d : Nat × Nat}

/-- The address belongs to memory obtained from `sbrk`. -/
def Heap.Obtained (h : Heap) (x : Nat) : Prop := ∃ r ∈ h.regions, r.1 ≤ x ∧ x < r.1 + r.2

def Heap.Aligned (h : Heap) (x : Nat) : Prop :=
  ∃ r ∈ h.regions, r.1 ≤ x ∧ x < r.1 + r.2 ∧ (x - r.1) % HEADER = 0

/-- The header at `x` has a byte in the run. -/
def Overlaps (r : Run) (x : Nat) : Prop := r.1 < x + HEADER ∧ x < Run.stop r

/-- Free runs `fs` and blocks in use `bs`. -/
structure Tiling (base : Nat) (h : Heap) (fs bs : List Run) : Prop where
  ring : Ring h.mem base fs
  pos : ∀ r ∈ fs, 0 < r.2
  freep : ∃ r ∈ (base, 0) :: fs, h.freep = r.1
  sizes : ∀ r ∈ bs, 0 < r.2 ∧ (h.mem r.1).size = r.2
  apart : bs.Pairwise Apart
  disjoint : ∀ x, Covers fs x → ¬ Covers bs x
  tile : ∀ x, h.Obtained x ↔ Covers fs x ∨ Covers bs x
  above : ∀ r ∈ h.regions, base + HEADER ≤ r.1
  units : ∀ r ∈ fs ++ bs, AllUnits h.Aligned r

theorem covers_of_mem (hr : r ∈ bs) (hx : r.1 ≤ x) (hx' : x < Run.stop r) : Covers bs x :=
  ⟨r, hr, hx, hx'⟩

theorem covers_perm (hperm : bs.Perm bs') : Covers bs x ↔ Covers bs' x := by
  simp only [Covers, hperm.mem_iff]

theorem Tiling.perm (ht : Tiling base h fs bs) (hperm : bs.Perm bs') : Tiling base h fs bs' where
  ring := ht.ring
  pos := ht.pos
  freep := ht.freep
  sizes r hr := ht.sizes r (hperm.mem_iff.mpr hr)
  apart := (hperm.pairwise_iff fun hab => hab.symm).mp ht.apart
  disjoint x hx := by rw [← covers_perm hperm]; exact ht.disjoint x hx
  tile x := by rw [← covers_perm hperm]; exact ht.tile x
  above := ht.above
  units r hr := ht.units r (by
    simp only [mem_append] at hr ⊢
    exact hr.imp_right hperm.mem_iff.mpr)

theorem Tiling.above_base (ht : Tiling base h fs bs) (hx : Covers bs x) : base + HEADER ≤ x := by
  obtain ⟨r, hr, hle, -⟩ := (ht.tile x).mpr (.inr hx)
  exact Nat.le_trans (ht.above r hr) hle

theorem Tiling.outside (ht : Tiling base h fs bs) (hc : c ∈ bs) (hx : Overlaps c x)
    (hr : r ∈ (base, 0) :: fs) : r.1 ≠ x := by
  rintro rfl
  have hcsize := (ht.sizes c hc).1
  have hstart : Covers bs c.1 := covers_of_mem hc (Nat.le_refl _) (by
    simp only [Run.stop, HEADER]
    omega)
  have habove := ht.above_base hstart
  obtain ⟨hfirst, hlast⟩ := hx
  simp only [Run.stop, HEADER] at hfirst hlast habove
  rcases mem_cons.mp hr with rfl | hr
  · simp only at hfirst
    omega
  · -- the first byte that both have
    have hrsize := ht.pos r hr
    by_cases hle : r.1 ≤ c.1
    · refine ht.disjoint c.1 ⟨r, hr, hle, ?_⟩ hstart
      simp only [Run.stop, HEADER]
      omega
    · refine ht.disjoint r.1 ⟨r, hr, Nat.le_refl _, ?_⟩ (covers_of_mem hc (by omega) ?_)
      · simp only [Run.stop, HEADER]
        omega
      · simp only [Run.stop, HEADER]
        omega

instance : Std.Symm Apart := ⟨fun _ _ hab => hab.symm⟩

theorem apart_of_disjoint (hb : 0 < b.2) (hc : c ∈ bs) (hcsize : 0 < c.2)
    (hshared : ∀ x, b.1 ≤ x → x < Run.stop b → ¬ Covers bs x) : Apart b c := by
  by_contra hapart
  simp only [Apart, Run.stop, HEADER, not_or, Nat.not_le] at hapart
  by_cases hle : b.1 ≤ c.1
  · refine hshared c.1 hle (by simp only [Run.stop, HEADER]; omega) (covers_of_mem hc ?_ ?_)
    · exact Nat.le_refl _
    · simp only [Run.stop, HEADER]
      omega
  · refine hshared b.1 (Nat.le_refl _) ?_ (covers_of_mem hc (by omega) ?_)
    · simp only [Run.stop, HEADER]
      omega
    · simp only [Run.stop, HEADER]
      omega

theorem Apart.ne (hbc : Apart b c) (hb : 0 < b.2) (hx : Overlaps c x) : x ≠ b.1 := by
  rintro rfl
  obtain ⟨hfirst, hlast⟩ := hx
  simp only [Apart, Run.stop, HEADER] at hbc hfirst hlast
  omega

def Untouched (mem mem' : Memory) (bs : List Run) : Prop :=
  ∀ c ∈ bs, ∀ x, Overlaps c x → mem' x = mem x

theorem Untouched.size {mem mem' : Memory} (h : Untouched mem mem' bs) (hc : c ∈ bs)
    (hpos : 0 < c.2) : (mem' c.1).size = (mem c.1).size := by
  rw [h c hc c.1 ⟨by simp only [HEADER]; omega, by simp only [Run.stop, HEADER]; omega⟩]

theorem Tiling.untouched_freed (ht : Tiling base h fs (b :: bs)) (hf : Freed base h h' fs fs' b) :
    Untouched h.mem h'.mem bs := fun c hc x hx =>
  hf.frame x
    (((pairwise_cons.mp ht.apart).1 c hc).ne (ht.sizes b mem_cons_self).1 hx)
    fun _ hr => ht.outside (mem_cons_of_mem b hc) hx hr

theorem Apart.not_covers (hb : ∀ c ∈ bs, Apart b c) (hx : b.1 ≤ x) (hx' : x < Run.stop b) :
    ¬ Covers bs x := by
  rintro ⟨c, hc, hle, hlt⟩
  rcases hb c hc with hbc | hcb
  · omega
  · omega

theorem Tiling.freed (ht : Tiling base h fs (b :: bs)) (hf : Freed base h h' fs fs' b) :
    Tiling base h' fs' bs where
  ring := hf.ring
  pos := hf.pos
  freep := hf.freep
  sizes r hr := by
    have hsize := ht.sizes r (mem_cons_of_mem b hr)
    exact ⟨hsize.1, ((ht.untouched_freed hf).size hr hsize.1).trans hsize.2⟩
  apart := (pairwise_cons.mp ht.apart).2
  disjoint x hx hbs := by
    rcases covers_cons.mp ((hf.covers x).mp hx) with ⟨hle, hlt⟩ | hfs
    · exact Apart.not_covers (pairwise_cons.mp ht.apart).1 hle hlt hbs
    · exact ht.disjoint x hfs (covers_cons.mpr (.inr hbs))
  tile x := by
    have htile := ht.tile x
    rw [covers_cons, or_left_comm, ← or_assoc, ← covers_cons, ← hf.covers] at htile
    rw [Heap.Obtained, hf.regions]
    exact htile
  above := hf.regions ▸ ht.above
  units := by
    have haligned : h'.Aligned = h.Aligned := by funext x; rw [Heap.Aligned, hf.regions]; rfl
    rw [haligned]
    intro r hr
    rcases mem_append.mp hr with hr | hr
    · refine hf.units _ (fun s hs => ht.units s ?_) r hr
      simp only [mem_append, mem_cons] at hs ⊢
      tauto
    · exact ht.units r (by simp [hr])

section

variable (ht : Tiling base h fs bs) (hk : Taken base h h' fs fs' b) (hb : 0 < b.2)

include ht hk hb

theorem Tiling.apart_taken (hc : c ∈ bs) : Apart b c :=
  apart_of_disjoint hb hc (ht.sizes c hc).1 fun x hle hlt =>
    ht.disjoint x ((hk.covers x).mpr (covers_cons.mpr (.inl ⟨hle, hlt⟩)))

theorem Tiling.untouched_taken
    : Untouched h.mem h'.mem bs := fun _ hc x hx =>
  hk.frame x ((ht.apart_taken hk hb hc).ne hb hx) fun _ hr => ht.outside hc hx hr

theorem Tiling.taken : Tiling base h' fs' (b :: bs) where
  ring := hk.ring
  pos := hk.pos
  freep := hk.freep
  sizes r hr := by
    rcases mem_cons.mp hr with rfl | hr
    · exact ⟨hb, hk.size⟩
    · have hsize := ht.sizes r hr
      exact ⟨hsize.1, ((ht.untouched_taken hk hb).size hr hsize.1).trans hsize.2⟩
  apart := pairwise_cons.mpr ⟨fun _ hc => ht.apart_taken hk hb hc, ht.apart⟩
  disjoint x hx hbs := by
    rcases covers_cons.mp hbs with ⟨hle, hlt⟩ | hbs
    · exact hk.apart x hle hlt hx
    · exact ht.disjoint x ((hk.covers x).mpr (covers_cons.mpr (.inr hx))) hbs
  tile x := by
    rw [Heap.Obtained, hk.regions, covers_cons, or_left_comm, ← or_assoc, ← covers_cons,
      ← hk.covers]
    exact ht.tile x
  above := hk.regions ▸ ht.above
  units := by
    have haligned : h'.Aligned = h.Aligned := by funext x; rw [Heap.Aligned, hk.regions]; rfl
    rw [haligned]
    obtain ⟨hunits, hunits'⟩ := hk.units _ fun r hr => ht.units r (mem_append_left bs hr)
    intro r hr
    simp only [mem_append, mem_cons] at hr
    rcases hr with hr | rfl | hr
    · exact hunits' r hr
    · exact hunits
    · exact ht.units r (by simp [hr])

end

variable {a : Nat}

theorem Fresh.lt (hfresh : Fresh base h a) (hx : h.Obtained x) : x < a := by
  obtain ⟨r, hr, -, hlt⟩ := hx
  exact Nat.lt_of_lt_of_le hlt (hfresh.2 r hr)

theorem Tiling.stop_le (ht : Tiling base h fs bs) (hfresh : Fresh base h a)
    (hc : c ∈ bs) : Run.stop c ≤ a := by
  have hcsize := (ht.sizes c hc).1
  have hlast : Covers bs (Run.stop c - 1) := by
    refine covers_of_mem hc ?_ ?_
    · simp only [Run.stop, HEADER]
      omega
    · simp only [Run.stop, HEADER]
      omega
  have hlt := Fresh.lt hfresh ((ht.tile _).mpr (.inr hlast))
  omega

variable {nu : Nat}

section

variable (ht : Tiling base h fs bs)

include ht

theorem Tiling.untouched_extend
    (hfresh : Fresh base h a) : Untouched h.mem (h.extend a nu).mem bs := fun c hc x hx => by
  refine update_of_ne (fun heq => ?_) ..
  have hstop := ht.stop_le hfresh hc
  have hlt := hx.2
  omega

theorem Tiling.extend (hfresh : Fresh base h a)
    (hnu : 0 < nu) (hwrap : wrap (nu * HEADER) = HEADER * nu) :
    Tiling base (h.extend a nu) fs ((a, nu) :: bs) where
  ring := by
    refine ⟨ht.ring.path.congr fun r hr => update_of_ne ?_ .., ht.ring.gaps⟩
    rcases mem_cons.mp hr with rfl | hr
    · have hle := hfresh.1
      simp only [HEADER] at hle ⊢
      omega
    · have hr0 := ht.pos r hr
      refine Nat.ne_of_lt (Fresh.lt hfresh ((ht.tile _).mpr (.inl ⟨r, hr, Nat.le_refl _, ?_⟩)))
      simp only [Run.stop, HEADER]
      omega
  pos := ht.pos
  freep := ht.freep
  sizes r hr := by
    rcases mem_cons.mp hr with rfl | hr
    · exact ⟨hnu, by simp only [Heap.extend, setSize, update_self]⟩
    · have hsize := ht.sizes r hr
      exact ⟨hsize.1, ((ht.untouched_extend hfresh).size hr hsize.1).trans hsize.2⟩
  apart := pairwise_cons.mpr ⟨fun _ hc => .inr (ht.stop_le hfresh hc), ht.apart⟩
  disjoint x hx hbs := by
    rcases covers_cons.mp hbs with ⟨hle, -⟩ | hbs
    · have hlt := Fresh.lt hfresh ((ht.tile x).mpr (.inl hx))
      simp only at hle
      omega
    · exact ht.disjoint x hx hbs
  tile x := by
    rw [covers_cons, or_left_comm, ← ht.tile]
    simp only [Heap.Obtained, Heap.extend, mem_cons, exists_eq_or_imp, Run.stop, hwrap]
  above r hr := by
    rcases mem_cons.mp hr with rfl | hr
    · exact hfresh.1
    · exact ht.above r hr
  units r hr := by
    have hmono : ∀ x, h.Aligned x → (h.extend a nu).Aligned x := fun x hx => by
      obtain ⟨s, hs, haligned⟩ := hx
      exact ⟨s, mem_cons_of_mem _ hs, haligned⟩
    simp only [mem_append, mem_cons] at hr
    rcases hr with hr | rfl | hr
    · exact fun i hi => hmono _ (ht.units r (by simp [hr]) i hi)
    · refine fun i hi => ⟨(a, wrap (nu * HEADER)), mem_cons_self, ?_, ?_, ?_⟩
      · simp only [HEADER]
        omega
      · simp only [hwrap, HEADER] at hi ⊢
        omega
      · simp only [HEADER]
        omega
    · exact fun i hi => hmono _ (ht.units r (by simp [hr]) i hi)

theorem Tiling.store (hc : c ∈ bs) (hx : c.1 + HEADER ≤ x)
    (hx' : x + HEADER ≤ Run.stop c) (v : Header) :
    Tiling base { h with mem := update h.mem x v } fs bs where
  ring := by
    have hover : Overlaps c x := by
      simp only [Overlaps, HEADER] at hx hx' ⊢
      omega
    refine ⟨ht.ring.path.congr fun r hr => update_of_ne ?_ .., ht.ring.gaps⟩
    exact ht.outside hc hover hr
  pos := ht.pos
  freep := ht.freep
  sizes r hr := by
    have hsize := ht.sizes r hr
    have hne : r.1 ≠ x := by
      by_cases hrc : r = c
      · subst hrc
        simp only [HEADER] at hx
        omega
      · have hapart := ht.apart.forall hr hc hrc
        simp only [Apart, Run.stop, HEADER] at hapart hx hx'
        omega
    simp only [update_of_ne hne]
    exact hsize
  apart := ht.apart
  disjoint := ht.disjoint
  tile := ht.tile
  above := ht.above
  units := ht.units

theorem Tiling.withLive (live : List (Nat × Nat)) : Tiling base { h with live := live } fs bs :=
  ⟨ht.ring, ht.pos, ht.freep, ht.sizes, ht.apart, ht.disjoint, ht.tile, ht.above, ht.units⟩

end

def runOf (mem : Memory) (b : Nat × Nat) : Run := (b.1, (mem b.1).size)

def Heap.blocks (h : Heap) : List Run := h.live.map (runOf h.mem)

structure Inv (base : Nat) (h : Heap) (fs : List Run) : Prop where
  tiling : Tiling base h fs h.blocks
  usable : ∀ b ∈ h.live, b.2 + HEADER ≤ HEADER * (h.mem b.1).size

variable {mem mem' : Memory} {live : List (Nat × Nat)} {n nbytes : Nat}

theorem Untouched.map_runOf (hu : Untouched mem mem' (live.map (runOf mem)))
    (hpos : ∀ c ∈ live, 0 < (mem c.1).size) : live.map (runOf mem') = live.map (runOf mem) := by
  refine map_congr_left fun c hc => ?_
  have hsize := hu.size (mem_map_of_mem (f := runOf mem) hc) (hpos c hc)
  simp only [runOf] at hsize ⊢
  rw [hsize]

theorem Tiling.pos_of_live {f : List (Nat × Nat)} (ht : Tiling base h fs (f.map (runOf h.mem)))
    (hd : d ∈ f) : 0 < (h.mem d.1).size :=
  (ht.sizes _ (mem_map_of_mem hd)).1

theorem Inv.taken (hi : Inv base h fs) (hk : Taken base h h' fs fs' (a, n))
    (hn : nbytes + HEADER ≤ HEADER * n) :
    Inv base { h' with live := (a, nbytes) :: h'.live } fs' ∧ Untouched h.mem h'.mem h.blocks := by
  have hn0 : 0 < n := by simp only [HEADER] at hn; omega
  have hu := hi.tiling.untouched_taken hk hn0
  have hblocks := hu.map_runOf fun _ hc => hi.tiling.pos_of_live hc
  have hsize : (h'.mem a).size = n := hk.size
  refine ⟨⟨?_, fun b hb => ?_⟩, hu⟩
  · have ht := (hi.tiling.taken hk hn0).withLive ((a, nbytes) :: h'.live)
    have heq : ({ h' with live := (a, nbytes) :: h'.live } : Heap).blocks = (a, n) :: h.blocks := by
      simp only [Heap.blocks, map_cons, hk.live, hblocks]
      rw [runOf, hsize]
    rwa [heq]
  · rcases mem_cons.mp hb with rfl | hb
    · simp only [hsize]
      exact hn
    · rw [hk.live] at hb
      have hsame := hu.size (mem_map_of_mem (f := runOf h.mem) hb) (hi.tiling.pos_of_live hb)
      simp only [runOf] at hsame
      simp only [hsame]
      exact hi.usable b hb

theorem Inv.freed (hi : Inv base h fs) (hd : d ∈ h.live)
    (hf : Freed base h h' fs fs' (runOf h.mem d)) :
    Inv base { h' with live := h'.live.erase d } fs' ∧
      Untouched h.mem h'.mem ((h.live.erase d).map (runOf h.mem)) := by
  have hperm : h.blocks.Perm (runOf h.mem d :: (h.live.erase d).map (runOf h.mem)) :=
    (perm_cons_erase hd).map (runOf h.mem)
  have ht := hi.tiling.perm hperm
  have hu := ht.untouched_freed hf
  have hpos : ∀ c ∈ h.live.erase d, 0 < (h.mem c.1).size := fun c hc =>
    hi.tiling.pos_of_live (mem_of_mem_erase hc)
  have hblocks := hu.map_runOf hpos
  refine ⟨⟨?_, fun b hb => ?_⟩, hu⟩
  · have heq : ({ h' with live := h'.live.erase d } : Heap).blocks
        = (h.live.erase d).map (runOf h.mem) := by
      simp only [Heap.blocks, hf.live, hblocks]
    rw [heq]
    exact (ht.freed hf).withLive _
  · simp only [hf.live] at hb
    have hsame := hu.size (mem_map_of_mem (f := runOf h.mem) hb) (hpos b hb)
    simp only [runOf] at hsame
    simp only [hsame]
    exact hi.usable b (mem_of_mem_erase hb)

theorem Inv.grown {g : Heap} {fs1 : List Run} (hi : Inv base h fs)
    (hfresh : Fresh base h a) (hnu : 0 < nu) (hwrap : wrap (nu * HEADER) = HEADER * nu)
    (hf : Freed base (h.extend a nu) g fs fs1 (a, nu)) :
    Inv base g fs1 ∧ Untouched h.mem g.mem h.blocks := by
  have ht := hi.tiling.extend hfresh hnu hwrap
  have hu : Untouched h.mem g.mem h.blocks := fun c hc x hx =>
    (ht.untouched_freed hf c hc x hx).trans (hi.tiling.untouched_extend hfresh c hc x hx)
  have hlive : g.live = h.live := hf.live
  have hblocks : g.blocks = h.blocks := by
    rw [Heap.blocks, hlive]
    exact hu.map_runOf fun _ hc => hi.tiling.pos_of_live hc
  refine ⟨⟨hblocks ▸ ht.freed hf, fun b hb => ?_⟩, hu⟩
  rw [hlive] at hb
  have hsame := hu.size (mem_map_of_mem (f := runOf h.mem) hb) (hi.tiling.pos_of_live hb)
  simp only [runOf] at hsame
  rw [hsame]
  exact hi.usable b hb

variable {fuel : Nat} {replies : List (Option Nat)} {act : Act}

theorem le_units (hn : nbytes ≤ 2147483632) : nbytes + HEADER ≤ HEADER * units nbytes := by
  simp only [units, wrap, HEADER]
  omega

theorem wrap_coreUnits (hn : nbytes ≤ 2147483632) :
    wrap (coreUnits (units nbytes) * HEADER) = HEADER * coreUnits (units nbytes) := by
  have hle : units nbytes < 268435456 := by
    simp only [units, wrap, HEADER]
    omega
  simp only [coreUnits, wrap, HEADER]
  split <;> omega

variable (nbytes replies) in
theorem Inv.served (hbase : 0 < base) (hi : Inv base h fs) (hfuel : 2 * fs.length + 4 ≤ fuel) :
    Served base h fs (units nbytes) replies
      (loop base (units nbytes) fuel h h.freep (h.mem h.freep).ptr replies) :=
  hi.tiling.ring.served hi.tiling.pos (Nat.succ_pos _) hi.tiling.freep hbase
    (fun x hx => (hi.tiling.tile x).mpr (.inl hx)) hfuel

theorem Inv.loop {p : Nat} (hbase : 0 < base) (hi : Inv base h fs) (hn : nbytes ≤ 2147483632)
    (hloop : loop base (units nbytes) fuel h h.freep (h.mem h.freep).ptr replies = .ok p h') :
    (p = 0 ∧ h' = h) ∨ ∃ a fs', p = a + HEADER ∧ h'.live = h.live ∧
      Inv base { h' with live := (a, nbytes) :: h'.live } fs' ∧
      Untouched h.mem h'.mem h.blocks := by
  have hserved := hi.served nbytes replies hbase
    (Nat.le_max_right fuel (2 * fs.length + 4))
  rw [loop_mono hloop (Nat.le_max_left fuel _)] at hserved
  cases hserved with
  | found taken =>
    exact .inr ⟨_, _, rfl, taken.live, hi.taken taken (le_units hn)⟩
  | grown fresh freed taken =>
    obtain ⟨hgrown, hu⟩ := hi.grown fresh (le_coreUnits _).2 (wrap_coreUnits hn) freed
    have hlive : _ = h.live := freed.live
    obtain ⟨htaken, hu'⟩ := hgrown.taken taken (le_units hn)
    refine .inr ⟨_, _, rfl, taken.live.trans hlive, htaken, fun c hc x hx => ?_⟩
    have hblocks := hu.map_runOf fun _ hd => hi.tiling.pos_of_live hd
    rw [← hlive] at hblocks
    refine (hu' c ?_ x hx).trans (hu c hc x hx)
    rw [Heap.blocks, hblocks, hlive]
    exact hc
  | refused => exact .inl ⟨rfl, rfl⟩

/-- Before the first call of `malloc`, and after it. -/
def Started (base : Nat) (h : Heap) : Prop :=
  (h.freep = 0 ∧ h.live = [] ∧ h.regions = []) ∨ ∃ fs, Inv base h fs

theorem Inv.freep_ne (hbase : 0 < base) (hi : Inv base h fs) : h.freep ≠ 0 := by
  obtain ⟨r, hr, heq⟩ := hi.tiling.freep
  have hle := hi.tiling.ring.base_le hr
  omega

theorem Started.init (hbase : 0 < base) (hs : Started base h) :
    (∃ fs, Inv base (Heap.init base h) fs) ∧ (Heap.init base h).live = h.live ∧
      (Heap.init base h).regions = h.regions ∧ Untouched h.mem (Heap.init base h).mem h.blocks := by
  rcases hs with ⟨hfreep, hlive, hregions⟩ | ⟨fs, hi⟩
  · have hinit : Heap.init base h
        = { h with mem := update h.mem base ⟨base, 0⟩, freep := base } := if_pos hfreep
    have hblocks : h.blocks = [] := by rw [Heap.blocks, hlive]; rfl
    have hnone : ∀ x, ¬ Covers [] x := fun x hx => by
      obtain ⟨r, hr, -⟩ := hx
      cases hr
    refine ⟨⟨[], ?_, ?_⟩, by rw [hinit], by rw [hinit], ?_⟩
    · rw [hinit, Heap.blocks]
      simp only [hlive, map_nil]
      refine ⟨⟨update_self .., pairwise_singleton _ _⟩, by simp,
        ⟨(base, 0), mem_cons_self, rfl⟩, by simp, .nil, fun x _ => hnone x, fun x => ?_, ?_,
        by simp⟩
      · simp [Heap.Obtained, hregions, hnone]
      · simp [hregions]
    · rw [hinit]
      simp [hlive]
    · rw [hblocks]
      intro c hc
      cases hc
  · have hinit : Heap.init base h = h := if_neg (hi.freep_ne hbase)
    rw [hinit]
    exact ⟨⟨fs, hi⟩, rfl, rfl, fun _ _ _ _ => rfl⟩

def KeepsBlocks (h h' : Heap) : Prop :=
  ∀ b ∈ h.live, b ∈ h'.live → ∀ x, Overlaps (runOf h.mem b) x → h'.mem x = h.mem x

theorem Started.malloc (hbase : 0 < base) (hs : Started base h)
    (hstep : step base h (.malloc nbytes fuel replies) = .ok () h') :
    Started base h' ∧ KeepsBlocks h h' := by
  obtain ⟨⟨fs, hi⟩, hlive, -, hinit⟩ := hs.init hbase
  have hpos : ∀ c ∈ h.live, 0 < (h.mem c.1).size := fun c hc => by
    rcases hs with ⟨-, hnil, -⟩ | ⟨fs, hi⟩
    · rw [hnil] at hc
      cases hc
    · exact hi.tiling.pos_of_live hc
  have hblocks : h.live.map (runOf (Heap.init base h).mem) = h.live.map (runOf h.mem) :=
    hinit.map_runOf hpos
  have hkeep : ∀ g : Heap, Untouched (Heap.init base h).mem g.mem (Heap.init base h).blocks →
      KeepsBlocks h g := fun g hu b hb _ x hx => by
    have hb' : runOf h.mem b ∈ h.blocks := mem_map_of_mem hb
    refine (hu _ ?_ x hx).trans (hinit _ hb' x hx)
    rw [Heap.blocks, hlive, hblocks]
    exact hb'
  simp only [step] at hstep
  split_ifs at hstep with hn
  split at hstep
  · case _ p g hmalloc =>
    simp only [Outcome.ok.injEq, true_and] at hstep
    subst hstep
    rcases hi.loop hbase (by omega) hmalloc with ⟨rfl, rfl⟩ | ⟨a, fs', rfl, -, hi', hu⟩
    · rw [if_pos rfl]
      exact ⟨.inr ⟨fs, hi⟩, hkeep _ fun _ _ _ _ => rfl⟩
    · rw [if_neg (by simp only [HEADER]; omega), Nat.add_sub_cancel]
      exact ⟨.inr ⟨fs', hi'⟩, hkeep _ hu⟩
  · cases hstep
  · cases hstep

theorem Inv.free (hi : Inv base h fs) (hd : d ∈ h.live) (hfuel : fs.length + 1 ≤ fuel) :
    ∃ h' fs', h.free fuel d.1 = some h' ∧ Freed base h h' fs fs' (runOf h.mem d) := by
  have hmem : runOf h.mem d ∈ h.blocks := mem_map_of_mem hd
  have hpos := hi.tiling.pos_of_live hd
  have hcovers : ∀ x, d.1 ≤ x → x < Run.stop (runOf h.mem d) → Covers h.blocks x :=
    fun x hx hx' => covers_of_mem hmem hx hx'
  have habove := hi.tiling.above_base (hcovers d.1 (Nat.le_refl _) (by
    simp only [runOf, Run.stop, HEADER]
    omega))
  refine hi.tiling.ring.free (b := runOf h.mem d) hi.tiling.pos hi.tiling.freep rfl hpos ?_
    (fun x hx hx' hcov => hi.tiling.disjoint x hcov (hcovers x hx hx')) hfuel
  simp only [HEADER, runOf] at habove ⊢
  omega

theorem Started.free {ap : Nat} (hs : Started base h)
    (hstep : step base h (.free ap fuel) = .ok () h') : Started base h' ∧ KeepsBlocks h h' := by
  simp only [step] at hstep
  split at hstep
  · case _ d hfind =>
    have hd := mem_of_find?_eq_some hfind
    rcases hs with ⟨-, hnil, -⟩ | ⟨fs, hi⟩
    · rw [hnil] at hd
      cases hd
    · split at hstep
      · case _ g hfree =>
        simp only [Outcome.ok.injEq, true_and] at hstep
        subst hstep
        obtain ⟨g', fs', hfree', hfreed⟩ := hi.free hd (Nat.le_max_right fuel (fs.length + 1))
        rw [free_mono hfree (Nat.le_max_left fuel _), Option.some.injEq] at hfree'
        subst hfree'
        obtain ⟨hi', hu⟩ := hi.freed hd hfreed
        refine ⟨.inr ⟨fs', hi'⟩, fun b _ hb' x hx => ?_⟩
        simp only [hfreed.live] at hb'
        exact hu _ (mem_map_of_mem hb') x hx
      · cases hstep
  · cases hstep

theorem Started.store {v : Header} (hs : Started base h)
    (hstep : step base h (.store a v) = .ok () h') : Started base h' := by
  simp only [step] at hstep
  split_ifs at hstep with hin
  simp only [Outcome.ok.injEq, true_and] at hstep
  subst hstep
  obtain ⟨d, hd, hrange⟩ := any_eq_true.mp hin
  simp only [Bool.and_eq_true, decide_eq_true_eq] at hrange
  rcases hs with ⟨-, hnil, -⟩ | ⟨fs, hi⟩
  · rw [hnil] at hd
    cases hd
  · have hmem : runOf h.mem d ∈ h.blocks := mem_map_of_mem hd
    have ht := hi.tiling.store hmem hrange.1 hrange.2 v
    have hsizes : ∀ c ∈ h.live, (update h.mem a v c.1).size = (h.mem c.1).size :=
      fun c hc => (ht.sizes _ (mem_map_of_mem hc)).2
    refine .inr ⟨fs, ?_, fun b hb => ?_⟩
    · have hblocks : ({ h with mem := update h.mem a v } : Heap).blocks = h.blocks :=
        map_congr_left fun c hc => by simp only [runOf, hsizes c hc]
      rwa [hblocks]
    · simp only [hsizes b hb]
      exact hi.usable b hb

theorem Started.step (hbase : 0 < base) (hs : Started base h)
    (hstep : step base h act = .ok () h') : Started base h' := by
  cases act with
  | malloc nbytes fuel replies => exact (hs.malloc hbase hstep).1
  | free ap fuel => exact (hs.free hstep).1
  | store a v => exact hs.store hstep

/-- The search loops end: a bound on their rounds after which every call returns. -/
def Ends (base : Nat) (h : Heap) (fuel : Nat) : Prop :=
  (∀ b ∈ h.live, ∃ h', step base h (.free (b.1 + HEADER) fuel) = .ok () h') ∧
    ∀ nbytes reply replies, nbytes < 1073741824 → (∀ a, reply = some a → Fresh base h a) →
      ∃ h', step base h (.malloc nbytes fuel (reply :: replies)) = .ok () h'

theorem Inv.free_ends (hi : Inv base h fs) (hfuel : fs.length + 1 ≤ fuel)
    (hd : d ∈ h.live) : ∃ h', step base h (.free (d.1 + HEADER) fuel) = .ok () h' := by
  have hsome : (h.live.find? fun b => b.1 + HEADER == d.1 + HEADER).isSome := by
    rw [List.find?_isSome]
    exact ⟨d, hd, by simp⟩
  obtain ⟨e, he⟩ := Option.isSome_iff_exists.mp hsome
  obtain ⟨h', fs', hfree, -⟩ := hi.free (mem_of_find?_eq_some he) hfuel
  exact ⟨{ h' with live := h'.live.erase e }, by simp only [step, he, hfree]⟩

theorem Started.ends (hbase : 0 < base) (hs : Started base h) :
    ∃ bound, ∀ fuel, bound ≤ fuel → Ends base h fuel := by
  obtain ⟨⟨fs, hi⟩, hlive, hregions, -⟩ := hs.init hbase
  refine ⟨2 * fs.length + 4, fun fuel hfuel => ⟨fun b hb => ?_,
    fun nbytes reply replies hn hreply => ?_⟩⟩
  · rcases hs with ⟨-, hnil, -⟩ | ⟨fs', hi'⟩
    · rw [hnil] at hb
      cases hb
    · have hinit : Heap.init base h = h := if_neg (hi'.freep_ne hbase)
      rw [hinit] at hi
      exact hi.free_ends (by omega) hb
  · have hserved := hi.served nbytes (reply :: replies) hbase hfuel
    have hloop : ∃ p g, h.malloc base nbytes fuel (reply :: replies) = .ok p g := by
      rw [Heap.malloc]
      generalize Heap.loop base (units nbytes) fuel (Heap.init base h) _ _ _ = out at hserved
      cases hserved with
      | found | grown | refused => exact ⟨_, _, rfl⟩
      | overlap stale =>
        have hfresh := hreply _ rfl
        rw [Fresh, ← hregions] at hfresh
        exact absurd hfresh stale
    obtain ⟨p, g, hmalloc⟩ := hloop
    exact ⟨_, by rw [Malloc.step, if_pos hn, hmalloc]⟩

/-- What the list, the blocks and the memory obtained so far look like between calls. -/
structure WellFormed (base : Nat) (h : Heap) (fs : List Run) : Prop where
  circular : ∃ u f v, (base, 0) :: fs = u ++ f :: v ∧ h.freep = f.1 ∧ Path h.mem f (v ++ u) f.1
  /-- addresses increase from `base` on, and no two free blocks touch -/
  ordered : Gaps ((base, 0) :: fs)
  apart : (fs ++ h.blocks).Pairwise Apart
  tile : ∀ x, h.Obtained x ↔ Covers (fs ++ h.blocks) x
  usable : ∀ b ∈ h.live, b.2 + HEADER ≤ HEADER * (h.mem b.1).size
  /-- blocks begin at a multiple of the header size from the start of their region -/
  aligned : ∀ b ∈ h.live, h.Aligned b.1
  multiple : (∀ r ∈ h.regions, r.1 % HEADER = 0) → ∀ b ∈ h.live, (b.1 + HEADER) % HEADER = 0

theorem Inv.wellFormed (hi : Inv base h fs) : WellFormed base h fs := by
  have ht := hi.tiling
  have haligned : ∀ b ∈ h.live, h.Aligned b.1 := fun b hb => by
    have hunits := ht.units (runOf h.mem b) (mem_append_right _ (mem_map_of_mem hb))
    simpa [runOf] using hunits 0 (ht.pos_of_live hb)
  refine ⟨?_, ht.ring.gaps, pairwise_append.mpr ⟨?_, ht.apart, fun r hr c hc => ?_⟩,
    fun x => ?_, hi.usable, haligned, fun hregions b hb => ?_⟩
  · obtain ⟨f, hf, hfeq⟩ := ht.freep
    obtain ⟨u, v, hsplit, hpath⟩ := ht.ring.rotate hf
    exact ⟨u, f, v, hsplit, hfeq, hpath⟩
  · exact (pairwise_cons.mp ht.ring.gaps).2.imp fun hlt => .inl (Nat.le_of_lt hlt)
  · exact apart_of_disjoint (ht.pos r hr) hc (ht.sizes c hc).1 fun x hle hlt =>
      ht.disjoint x ⟨r, hr, hle, hlt⟩
  · rw [covers_append]
    exact ht.tile x
  · obtain ⟨r, hr, hle, -, hmod⟩ := haligned b hb
    have hstart := hregions r hr
    simp only [HEADER] at hmod hstart ⊢
    omega

theorem Started.of_trace {tr : List (Heap × Act)} (hbase : 0 < base)
    (htr : Trace (Malloc.step base) (boot mem) tr h) : Started base h :=
  htr.invariant (I := fun _ h => Started base h) (.inl ⟨rfl, rfl, rfl⟩)
    fun _ _ _ _ _ hs hstep => hs.step hbase hstep

/-- In every state of every run the heap is well formed, the next call leaves the blocks that
stay live untouched, and the loops end. -/
theorem heap_wellFormed {tr : List (Heap × Act)} (hbase : 0 < base)
    (htr : Trace (step base) (boot mem) tr h) :
    ((h.freep = 0 ∧ h.live = [] ∧ h.regions = []) ∨ ∃ fs, WellFormed base h fs) ∧
      (∀ act h', step base h act = .ok () h' → (∀ x v, act ≠ .store x v) → KeepsBlocks h h') ∧
      ∃ bound, ∀ fuel, bound ≤ fuel → Ends base h fuel := by
  have hs := Started.of_trace hbase htr
  refine ⟨hs.imp_right fun hi => ?_, fun act h' hstep hcall => ?_, hs.ends hbase⟩
  · obtain ⟨fs, hi⟩ := hi
    exact ⟨fs, hi.wellFormed⟩
  · cases act with
    | malloc nbytes fuel replies => exact (hs.malloc hbase hstep).2
    | free ap fuel => exact (hs.free hstep).2
    | store x v => exact absurd rfl (hcall x v)

/-- Two blocks from one region, one of them freed again. -/
theorem twoBlocks_wellFormed : ∃ tr h, Trace (step 16) (boot fun _ => ⟨0, 0⟩) tr h ∧
    h.live.length = 1 ∧ ∃ fs, WellFormed 16 h fs := by
  obtain ⟨tr, h, htr, -, hlive⟩ := Trace.of_actions (step 16) (boot fun _ => ⟨0, 0⟩)
    [.malloc 100 8 [some 4096], .malloc 20 8 [], .free 36760 8]
    (fun h => h.live.length == 1) (by decide +kernel)
  have hlength : h.live.length = 1 := by simpa using hlive
  refine ⟨tr, h, htr, hlength, ?_⟩
  rcases (heap_wellFormed (by decide) htr).1 with ⟨-, hnil, -⟩ | hfs
  · rw [hnil] at hlength
    cases hlength
  · exact hfs

end Xv6.Malloc
