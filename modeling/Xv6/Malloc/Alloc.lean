import Mathlib.Tactic.SplitIfs
import Mathlib.Tactic.Tauto
import Xv6.Malloc.Free

/-!
# malloc

The loop of `malloc` goes once around the list.  It stops at the first block that is large
enough and takes the units asked for off its end; if there is none, `morecore` puts a new
block into the list, and the second round finds one.
-/

namespace Xv6.Malloc

open Heap Lib Function List

variable {mem : Memory} {x y z : Run} {l fs pre post : List Run} {base n fuel : Nat} {h : Heap}
  {replies : List (Option Nat)}

/-- What `malloc` leaves when it takes the run `b` off the list. -/
structure Taken (base : Nat) (h h' : Heap) (fs fs' : List Run) (b : Run) : Prop where
  live : h'.live = h.live
  regions : h'.regions = h.regions
  ring : Ring h'.mem base fs'
  freep : ∃ r ∈ (base, 0) :: fs', h'.freep = r.1
  pos : ∀ r ∈ fs', 0 < r.2
  size : (h'.mem b.1).size = b.2
  covers : ∀ a, Covers fs a ↔ Covers (b :: fs') a
  apart : ∀ a, b.1 ≤ a → a < Run.stop b → ¬ Covers fs' a
  units : ∀ P, (∀ r ∈ fs, AllUnits P r) → AllUnits P b ∧ ∀ r ∈ fs', AllUnits P r
  frame : ∀ a, a ≠ b.1 → (∀ r ∈ (base, 0) :: fs, r.1 ≠ a) → h'.mem a = h.mem a

theorem gaps_remove (h : Gaps (pre ++ y :: z :: post)) : Gaps (pre ++ y :: post) :=
  h.sublist ((List.Sublist.refl pre).append ((sublist_cons_self z post).cons_cons y))

variable {k : Nat}

theorem gaps_shrink (h : Gaps (pre ++ z :: post)) (hk : k ≤ z.2) :
    Gaps (pre ++ (z.1, k) :: post) := by
  obtain ⟨hpre, hzpost, hcross⟩ := pairwise_append.mp h
  obtain ⟨hz, hpost⟩ := pairwise_cons.mp hzpost
  refine pairwise_append.mpr ⟨hpre, pairwise_cons.mpr ⟨fun r hr => ?_, hpost⟩,
    fun r hr s hs => ?_⟩
  · have hzr := hz r hr
    simp only [Run.stop, HEADER] at hzr ⊢
    omega
  · rcases mem_cons.mp hs with rfl | hs
    · exact hcross r hr z mem_cons_self
    · exact hcross r hr s (mem_cons_of_mem z hs)

theorem not_covers_of_gaps (h : Gaps (pre ++ z :: post)) {a : Nat} (ha : z.1 ≤ a)
    (ha' : a < Run.stop z) : ¬ Covers (pre ++ post) a := by
  obtain ⟨-, hzpost, hcross⟩ := pairwise_append.mp h
  rintro ⟨r, hr, hra, har⟩
  rcases mem_append.mp hr with hr | hr
  · have hrz := hcross r hr z mem_cons_self
    omega
  · have hzr := (pairwise_cons.mp hzpost).1 r hr
    omega

theorem Ring.mem_of_split (hsplit : (base, 0) :: fs = l) (hx : x ∈ l) (hne : x ≠ (base, 0)) :
    x ∈ fs := by
  have hmem : x ∈ (base, 0) :: fs := hsplit ▸ hx
  exact (mem_cons.mp hmem).resolve_left hne

theorem Ring.size_of_first (hsplit : (base, 0) :: fs = pre ++ y :: post) (hnil : pre = []) :
    y.2 = 0 := by
  subst hnil
  obtain ⟨rfl, -⟩ := List.cons.inj hsplit
  rfl

section

variable (hring : Ring h.mem base fs) (hpos : ∀ r ∈ fs, 0 < r.2)

include hring hpos

theorem Ring.takeWhole (hsplit : (base, 0) :: fs = pre ++ y :: z :: post) (hz : 0 < z.2) :
    ∃ fs', Taken base h { h with mem := setPtr h.mem y.1 (h.mem z.1).ptr, freep := y.1 }
      fs fs' z := by
  have hy := hring.path_from hsplit
  have hgaps : Gaps (pre ++ y :: z :: post) := hsplit ▸ hring.gaps
  have hyz := (pairwise_cons.mp (gaps_right hgaps)).1
  have hzfs : z ∈ fs := by
    refine Ring.mem_of_split hsplit (by simp) fun heq => ?_
    rw [heq] at hz
    exact Nat.lt_irrefl 0 hz
  have hframe : ∀ a, a ≠ y.1 → setPtr h.mem y.1 (h.mem z.1).ptr a = h.mem a := fun a ha =>
    update_of_ne ha ..
  have hbehind : ∀ r ∈ z :: post, r.1 ≠ y.1 := fun r hr => by
    have hyr := hyz r hr
    simp only [Run.stop, HEADER] at hyr
    omega
  have hbefore : ∀ r ∈ pre, r.1 ≠ y.1 := fun r hr => by
    have hry := hring.lt_of_split hsplit hr mem_cons_self
    simp only [Run.stop, HEADER] at hry
    omega
  have hpath : Path (setPtr h.mem y.1 (h.mem z.1).ptr) (y.1, y.2) post base := by
    refine hy.2.replace ?_ fun r hr => hframe r.1 (hbehind r (mem_cons_of_mem z hr))
    simp only [setPtr, update_self, hy.size mem_cons_self]
  obtain ⟨fs', hfs', hring'⟩ := hring.rebuild hsplit (Ring.size_of_first hsplit)
    (fun r hr => hframe r.1 (hbefore r hr)) hpath (gaps_remove hgaps)
  have hin : ∀ r ∈ fs', r ∈ fs := fun r hr => by
    refine Ring.mem_of_split hsplit ?_ (hring'.ne_base hr)
    have hmem : r ∈ pre ++ y :: post := by rw [hfs']; exact mem_cons_of_mem _ hr
    simp only [mem_append, mem_cons] at hmem ⊢
    tauto
  have hcovers : ∀ a, Covers fs' a ↔ Covers (pre ++ y :: post) a := fun a => by
    rw [← covers_base base, ← hfs']
  refine ⟨fs', rfl, rfl, hring', ⟨y, hfs' ▸ by simp, rfl⟩, fun r hr => hpos r (hin r hr), ?_,
    fun a => ?_, fun a ha ha' => ?_, fun P hP => ⟨hP z hzfs, fun r hr => hP r (hin r hr)⟩,
    fun a _ ha => hframe a fun heq => ?_⟩
  · have hzsize := hy.2.size mem_cons_self
    rw [← hzsize]
    exact congrArg Header.size (hframe z.1 (hbehind z mem_cons_self))
  · rw [covers_cons, hcovers, ← covers_base base, hsplit]
    simp only [covers_append, covers_cons, or_left_comm]
  · rw [hcovers]
    have hsides : Gaps ((pre ++ [y]) ++ z :: post) := by simpa using hgaps
    simpa using not_covers_of_gaps hsides ha ha'
  · exact ha y (by rw [hsplit]; simp) heq.symm

theorem Ring.takeEnd
    (hsplit : (base, 0) :: fs = pre ++ y :: z :: post) (hz : z.2 = k + n) (hk : 0 < k) :
    ∃ fs', Taken base h { h with
        mem := setSize (setSize h.mem z.1 k) (z.1 + HEADER * k) n
        freep := y.1 } fs fs' (z.1 + HEADER * k, n) := by
  have hy := hring.path_from hsplit
  have hgaps : Gaps (pre ++ y :: z :: post) := hsplit ▸ hring.gaps
  have hsides : Gaps ((pre ++ [y]) ++ z :: post) := by simpa using hgaps
  have hzfs : z ∈ fs := by
    refine Ring.mem_of_split hsplit (by simp) fun heq => ?_
    rw [heq] at hz
    simp only at hz
    omega
  generalize hmem' : setSize (setSize h.mem z.1 k) (z.1 + HEADER * k) n = mem'
  have hqz : z.1 + HEADER * k ≠ z.1 := by simp only [HEADER]; omega
  have hframe : ∀ a, a ≠ z.1 → a ≠ z.1 + HEADER * k → mem' a = h.mem a := fun a haz haq => by
    rw [← hmem', setSize, update_of_ne haq, setSize, update_of_ne haz]
  -- no other header lies in the block
  have hother : ∀ r ∈ (pre ++ [y]) ++ post, mem' r.1 = h.mem r.1 := fun r hr => by
    obtain ⟨-, hzpost, hcross⟩ := pairwise_append.mp hsides
    rcases mem_append.mp hr with hr | hr
    · have hrz := hcross r hr z mem_cons_self
      simp only [Run.stop, HEADER] at hrz
      exact hframe r.1 (by omega) (by simp only [HEADER]; omega)
    · have hzr := (pairwise_cons.mp hzpost).1 r hr
      simp only [Run.stop, HEADER] at hzr
      exact hframe r.1 (by omega) (by simp only [HEADER]; omega)
  have hzmem : mem' z.1 = ⟨(h.mem z.1).ptr, k⟩ := by
    rw [← hmem', setSize, update_of_ne hqz.symm, setSize, update_self]
  have hpath : Path mem' (y.1, y.2) ((z.1, k) :: post) base :=
    ⟨(hother y (by simp)).trans hy.1, hy.2.replace hzmem fun r hr => hother r (by simp [hr])⟩
  have hgaps' : Gaps (pre ++ (y.1, y.2) :: (z.1, k) :: post) := by
    have hshrunk := gaps_shrink (k := k) hsides (by omega)
    simpa using hshrunk
  obtain ⟨fs', hfs', hring'⟩ := hring.rebuild hsplit (Ring.size_of_first hsplit)
    (fun r hr => hother r (by simp [hr])) hpath hgaps'
  have hin : ∀ r ∈ fs', r = (z.1, k) ∨ r ∈ fs := fun r hr => by
    by_cases hrz : r = (z.1, k)
    · exact .inl hrz
    · refine .inr (Ring.mem_of_split hsplit ?_ (hring'.ne_base hr))
      have hmem : r ∈ pre ++ y :: (z.1, k) :: post := by rw [hfs']; exact mem_cons_of_mem _ hr
      simp only [mem_append, mem_cons] at hmem ⊢
      tauto
  have hcovers : ∀ a, Covers fs' a ↔ Covers (pre ++ y :: (z.1, k) :: post) a := fun a => by
    rw [← covers_base base, ← hfs']
  refine ⟨fs', rfl, rfl, hring', ⟨y, hfs' ▸ by simp, rfl⟩, fun r hr => ?_, ?_,
    fun a => ?_, fun a ha ha' => ?_, fun P hP => ⟨fun i hi => ?_, fun r hr => ?_⟩,
    fun a hab ha => hframe a (fun heq => ha z (mem_cons_of_mem _ hzfs) heq.symm) hab⟩
  · rcases hin r hr with rfl | hr
    · exact hk
    · exact hpos r hr
  · simp only [← hmem', setSize, update_self]
  · have hparts : (z.1 ≤ a ∧ a < Run.stop z) ↔
        (z.1 + HEADER * k ≤ a ∧ a < Run.stop (z.1 + HEADER * k, n)) ∨
          (z.1 ≤ a ∧ a < Run.stop (z.1, k)) := by
      simp only [Run.stop, HEADER]
      omega
    rw [covers_cons, hcovers, ← covers_base base, hsplit]
    simp only [covers_append, covers_cons, hparts, or_assoc, or_left_comm]
  · simp only [HEADER] at ha
    simp only [Run.stop, HEADER] at ha'
    have hrest : ¬ Covers ((pre ++ [y]) ++ post) a :=
      not_covers_of_gaps hsides (by omega) (by simp only [Run.stop, HEADER]; omega)
    have hfront : ¬ (z.1 ≤ a ∧ a < Run.stop (z.1, k)) := by
      simp only [Run.stop, HEADER]
      omega
    rw [hcovers]
    simp only [covers_append, covers_cons, not_or] at hrest ⊢
    exact ⟨hrest.1.1, hrest.1.2.1, hfront, hrest.2⟩
  · have hunit := hP z hzfs (k + i) (by simp only at hi; omega)
    have haddr : z.1 + HEADER * (k + i) = z.1 + HEADER * k + HEADER * i := by
      simp only [HEADER]
      omega
    rwa [haddr] at hunit
  · rcases hin r hr with rfl | hr
    · exact fun i hi => hP z hzfs i (by simp only at hi; omega)
    · exact hP r hr

theorem Ring.take (hn : 0 < n) (hsplit : (base, 0) :: fs = pre ++ y :: z :: post) (hle : n ≤ z.2) :
    ∃ fs', Taken base h (h.take n y.1 z.1).1 fs fs' ((h.take n y.1 z.1).2, n) := by
  have hsize : (h.mem z.1).size = z.2 := (hring.path_from hsplit).2.size mem_cons_self
  by_cases hexact : z.2 = n
  · subst hexact
    have htaken := hring.takeWhole hpos hsplit hn
    rwa [Heap.take, if_pos hsize]
  · have htaken := hring.takeEnd (n := n) (k := z.2 - n) hpos hsplit (by omega) (by omega)
    rwa [Heap.take, if_neg (by omega), hsize]

end

theorem Ring.rotate {f : Run} (hring : Ring mem base fs) (hf : f ∈ (base, 0) :: fs) :
    ∃ u v, (base, 0) :: fs = u ++ f :: v ∧ Path mem f (v ++ u) f.1 := by
  obtain ⟨u, v, hsplit⟩ := append_of_mem hf
  refine ⟨u, v, hsplit, ?_⟩
  cases u with
  | nil =>
    obtain ⟨rfl, rfl⟩ := List.cons.inj hsplit
    rw [append_nil]
    exact hring.path
  | cons z u =>
    obtain ⟨rfl, rfl⟩ := List.cons.inj hsplit
    exact hring.path.rotate

variable (base n replies) in
/-- The loop stops in front of a block that is large enough, or comes to `freep`. -/
theorem loop_walk (hpath : Path h.mem x l h.freep) (hne : ∀ r ∈ l, r.1 ≠ h.freep)
    (hfuel : l.length + 1 ≤ fuel) :
    (∃ y ∈ x :: l, n ≤ (h.mem (h.mem y.1).ptr).size ∧
      loop base n fuel h x.1 (h.mem x.1).ptr replies =
        .ok ((h.take n y.1 (h.mem y.1).ptr).2 + HEADER) (h.take n y.1 (h.mem y.1).ptr).1) ∨
    ((∀ r ∈ l, r.2 < n) ∧ (h.mem h.freep).size < n ∧ ∃ w rest, fuel = rest + (l.length + 1) ∧
      loop base n fuel h x.1 (h.mem x.1).ptr replies
        = loop base n (rest + 1) h w h.freep replies) := by
  induction l generalizing x fuel with
  | nil =>
    obtain ⟨fuel, rfl⟩ : ∃ k, fuel = k + 1 := ⟨fuel - 1, by simp at hfuel; omega⟩
    have hnext : (h.mem x.1).ptr = h.freep := by rw [hpath]
    by_cases hfit : n ≤ (h.mem h.freep).size
    · refine .inl ⟨x, mem_cons_self, by rw [hnext]; exact hfit, ?_⟩
      rw [hnext, loop, if_pos hfit]
    · exact .inr ⟨by simp, by omega, x.1, fuel, rfl, by rw [hnext]⟩
  | cons y l ih =>
    obtain ⟨fuel, rfl⟩ : ∃ k, fuel = k + 1 := ⟨fuel - 1, by simp at hfuel; omega⟩
    have hnext : (h.mem x.1).ptr = y.1 := by rw [hpath.1]
    have hysize : (h.mem y.1).size = y.2 := hpath.2.size mem_cons_self
    by_cases hfit : n ≤ (h.mem y.1).size
    · refine .inl ⟨x, mem_cons_self, by rw [hnext]; exact hfit, ?_⟩
      rw [hnext, loop, if_pos hfit]
    · have hstep : loop base n (fuel + 1) h x.1 (h.mem x.1).ptr replies
          = loop base n fuel h y.1 (h.mem y.1).ptr replies := by
        rw [hnext, loop, if_neg hfit, if_neg (hne y mem_cons_self)]
      rw [hstep]
      rcases ih hpath.2 (fun r hr => hne r (mem_cons_of_mem y hr))
        (by simp at hfuel ⊢; omega) with ⟨w, hw, hfound⟩ | ⟨hsmall, hfreep, w, rest, heq, hloop⟩
      · exact .inl ⟨w, mem_cons_of_mem x hw, hfound⟩
      · refine .inr ⟨fun r hr => ?_, hfreep, w, rest, by simp only [length_cons]; omega, hloop⟩
        rcases mem_cons.mp hr with rfl | hr
        · omega
        · exact hsmall r hr

def coreUnits (n : Nat) : Nat := if n < 4096 then 4096 else n

theorem le_coreUnits (n : Nat) : n ≤ coreUnits n ∧ 0 < coreUnits n := by
  simp only [coreUnits]
  split <;> omega

def Heap.extend (h : Heap) (a nu : Nat) : Heap :=
  { h with mem := setSize h.mem a nu, regions := (a, wrap (nu * HEADER)) :: h.regions }

/-- The ways a call of `malloc` for `n` units can end. -/
inductive Served (base : Nat) (h : Heap) (fs : List Run) (n : Nat) :
    List (Option Nat) → Outcome Heap Nat → Prop where
  | found {rs h' fs' b} (taken : Taken base h h' fs fs' (b, n)) :
    Served base h fs n rs (.ok (b + HEADER) h')
  | grown {a rs g fs1 h' fs' b} (fresh : Fresh base h a)
    (freed : Freed base (h.extend a (coreUnits n)) g fs fs1 (a, coreUnits n))
    (taken : Taken base g h' fs1 fs' (b, n)) :
    Served base h fs n (some a :: rs) (.ok (b + HEADER) h')
  | refused {rs} : Served base h fs n (none :: rs) (.ok 0 h)
  | silent : Served base h fs n [] .blocked
  | overlap {a rs} (stale : ¬ Fresh base h a) :
    Served base h fs n (some a :: rs) .blocked

section

variable (hring : Ring h.mem base fs) (hpos : ∀ r ∈ fs, 0 < r.2) (hn : 0 < n)
  (hfreep : ∃ r ∈ (base, 0) :: fs, h.freep = r.1)

include hring hpos hn

theorem Ring.found (hy : y ∈ (base, 0) :: fs) (hfit : n ≤ (h.mem (h.mem y.1).ptr).size) :
    ∃ fs', Taken base h (h.take n y.1 (h.mem y.1).ptr).1 fs fs'
      ((h.take n y.1 (h.mem y.1).ptr).2, n) := by
  have hbase : (h.mem base).size = 0 := hring.path.size (r := (base, 0)) mem_cons_self
  have hne : (h.mem y.1).ptr ≠ base := fun heq => by
    rw [heq, hbase] at hfit
    omega
  obtain ⟨pre, z, post, hsplit, hz⟩ := hring.path.next hy hne
  have hzsize : (h.mem z.1).size = z.2 := (hring.path_from hsplit).2.size mem_cons_self
  rw [hz] at hfit ⊢
  exact hring.take hpos hn hsplit (hzsize ▸ hfit)

include hfreep

theorem Ring.round (replies : List (Option Nat)) (hfuel : fs.length + 1 ≤ fuel) :
    (∃ b h' fs', loop base n fuel h h.freep (h.mem h.freep).ptr replies = .ok (b + HEADER) h' ∧
      Taken base h h' fs fs' (b, n)) ∨
    ((∀ r ∈ fs, r.2 < n) ∧ (h.mem h.freep).size < n ∧ ∃ w rest, fuel = rest + (fs.length + 1) ∧
      loop base n fuel h h.freep (h.mem h.freep).ptr replies
        = loop base n (rest + 1) h w h.freep replies) := by
  obtain ⟨f, hf, hfeq⟩ := hfreep
  obtain ⟨u, v, hsplit, hpath⟩ := hring.rotate hf
  have hlength : (v ++ u).length = fs.length := by
    have hlen := congrArg List.length hsplit
    simp only [length_cons, length_append] at hlen ⊢
    omega
  have hmem : ∀ r, r ∈ f :: (v ++ u) ↔ r ∈ (base, 0) :: fs := fun r => by
    rw [hsplit]
    simp only [mem_cons, mem_append]
    tauto
  have hne : ∀ r ∈ v ++ u, r.1 ≠ h.freep := fun r hr => by
    obtain ⟨-, hv, hu⟩ := pairwise_append.mp (hsplit ▸ hring.gaps)
    rw [hfeq]
    rcases mem_append.mp hr with hr | hr
    · have hfr := (pairwise_cons.mp hv).1 r hr
      simp only [Run.stop, HEADER] at hfr
      omega
    · have hrf := hu r hr f mem_cons_self
      simp only [Run.stop, HEADER] at hrf
      omega
  rw [← hfeq] at hpath
  have hwalk := loop_walk base n replies hpath hne (hlength ▸ hfuel)
  rw [← hfeq, hlength] at hwalk
  rcases hwalk with ⟨y, hy, hfit, hloop⟩ | ⟨hsmall, hsize, hrest⟩
  · obtain ⟨fs', htaken⟩ := hring.found hpos hn ((hmem y).mp hy) hfit
    exact .inl ⟨_, _, fs', hloop, htaken⟩
  · refine .inr ⟨fun r hr => ?_, hsize, hrest⟩
    rcases mem_cons.mp ((hmem r).mpr (mem_cons_of_mem _ hr)) with rfl | hr'
    · have hrsize := hring.path.size (mem_cons_of_mem _ hr)
      rw [hfeq, hrsize] at hsize
      exact hsize
    · exact hsmall r hr'

omit hring hpos hfreep hn in
theorem Ring.extend {a nu : Nat} (hring : Ring h.mem base fs) (hpos : ∀ r ∈ fs, 0 < r.2)
    (hfreep : ∃ r ∈ (base, 0) :: fs, h.freep = r.1)
    (hin : ∀ x, Covers fs x → ∃ r ∈ h.regions, r.1 ≤ x ∧ x < r.1 + r.2) (hfresh : Fresh base h a)
    (hnu : 0 < nu) (hfuel : fs.length + 1 ≤ fuel) :
    ∃ g fs1, (h.extend a nu).free fuel a = some g ∧
      Freed base (h.extend a nu) g fs fs1 (a, nu) := by
  have hbase : base < a := by
    have hle := hfresh.1
    simp only [HEADER] at hle
    omega
  have hbelow : ∀ x, Covers fs x → x < a := fun x hx => by
    obtain ⟨r, hr, -, hlt⟩ := hin x hx
    exact Nat.lt_of_lt_of_le hlt (hfresh.2 r hr)
  have hframe : ∀ r ∈ (base, 0) :: fs, (h.extend a nu).mem r.1 = h.mem r.1 := fun r hr => by
    refine update_of_ne ?_ ..
    rcases mem_cons.mp hr with rfl | hr
    · exact Nat.ne_of_lt hbase
    · refine Nat.ne_of_lt (hbelow r.1 ⟨r, hr, Nat.le_refl _, ?_⟩)
      have hr0 := hpos r hr
      simp only [Run.stop, HEADER]
      omega
  have hsize : ((h.extend a nu).mem a).size = nu := by
    simp only [Heap.extend, setSize, update_self]
  have hring' : Ring (h.extend a nu).mem base fs := ⟨hring.path.congr hframe, hring.gaps⟩
  refine hring'.free (b := (a, nu)) hpos hfreep hsize hnu hbase (fun x hx _ hcov => ?_) hfuel
  have hlt := hbelow x hcov
  simp only at hx
  omega

theorem Ring.served (hbase : 0 < base)
    (hin : ∀ x, Covers fs x → ∃ r ∈ h.regions, r.1 ≤ x ∧ x < r.1 + r.2)
    (hfuel : 2 * fs.length + 4 ≤ fuel) :
    Served base h fs n replies (loop base n fuel h h.freep (h.mem h.freep).ptr replies) := by
  have hround : fs.length + 1 ≤ fuel := by omega
  rcases hring.round hpos hn hfreep replies hround with
    ⟨b, h', fs', hloop, htaken⟩ | ⟨-, hsize, w, rest, hrest, hloop⟩
  · rw [hloop]
    exact .found htaken
  · -- nothing fits
    rw [hloop, loop, if_neg (by omega), if_pos rfl]
    cases replies with
    | nil => exact .silent
    | cons reply replies =>
      cases reply with
      | none => exact .refused
      | some a =>
        by_cases hfresh : Fresh base h a
        · have hunits := le_coreUnits n
          have hfuel' : fs.length + 2 ≤ rest := by omega
          obtain ⟨g, fs1, hfree, hfreed⟩ :=
            hring.extend hpos hfreep hin hfresh hunits.2 (Nat.le_of_succ_le hfuel')
          have hcore : morecore base h rest n (some a :: replies) = .ok g.freep g := by
            rw [morecore, if_pos hfresh]
            simp only [Heap.extend, coreUnits] at hfree
            rw [hfree]
          have hne : g.freep ≠ 0 := by
            obtain ⟨r, hr, heq⟩ := hfreed.freep
            have hle := hfreed.ring.base_le hr
            omega
          have hagain : fs1.length + 1 ≤ rest := by
            have hlength := hfreed.length
            omega
          rw [hcore]
          simp only [hne, if_false]
          rcases hfreed.ring.round hfreed.pos hn hfreed.freep replies hagain with
            ⟨b, h', fs', hloop, htaken⟩ | ⟨hsmall, -⟩
          · rw [drop_succ_cons, drop_zero, hloop]
            exact .grown hfresh hfreed htaken
          · obtain ⟨r, hr, hlarge⟩ := hfreed.large
            have hlt := hsmall r hr
            simp only at hlarge
            omega
        · rw [morecore, if_neg hfresh]
          exact .overlap hfresh

end

theorem search_mono {bp p q : Nat} (hsearch : search mem bp fuel p = some q) (hle : fuel ≤ k) :
    search mem bp k p = some q := by
  induction fuel generalizing p k with
  | zero => cases hsearch
  | succ fuel ih =>
    obtain ⟨k, rfl⟩ : ∃ j, k = j + 1 := ⟨k - 1, by omega⟩
    rw [search] at hsearch ⊢
    split_ifs at hsearch ⊢
    · exact hsearch
    · exact hsearch
    · exact ih hsearch (by omega)

variable {h' : Heap}

theorem free_mono {bp : Nat} (hfree : h.free fuel bp = some h') (hle : fuel ≤ k) :
    h.free k bp = some h' := by
  simp only [Heap.free] at hfree ⊢
  cases hsearch : search h.mem bp fuel h.freep with
  | none => rw [hsearch] at hfree; cases hfree
  | some p => rwa [search_mono hsearch hle, ← hsearch]

theorem morecore_mono {r : Nat} (hcore : morecore base h fuel n replies = .ok r h')
    (hle : fuel ≤ k) : morecore base h k n replies = .ok r h' := by
  match replies with
  | [] => cases hcore
  | none :: _ => exact hcore
  | some a :: _ =>
    simp only [morecore] at hcore ⊢
    split_ifs at hcore ⊢
    all_goals
      split at hcore
      · case _ g hfree => rwa [free_mono hfree hle]
      · cases hcore

theorem loop_mono {prevp p r : Nat}
    (hloop : loop base n fuel h prevp p replies = .ok r h') (hle : fuel ≤ k) :
    loop base n k h prevp p replies = .ok r h' := by
  induction fuel generalizing h prevp p replies k with
  | zero => cases hloop
  | succ fuel ih =>
    obtain ⟨k, rfl⟩ : ∃ j, k = j + 1 := ⟨k - 1, by omega⟩
    rw [loop] at hloop ⊢
    by_cases hfit : (h.mem p).size ≥ n
    · rwa [if_pos hfit] at hloop ⊢
    · rw [if_neg hfit] at hloop ⊢
      by_cases hround : p = h.freep
      · rw [if_pos hround] at hloop ⊢
        split at hloop
        · case _ p' g hcore =>
          rw [morecore_mono hcore (by omega)]
          by_cases hnull : p' = 0
          · rw [if_pos hnull] at hloop
            simpa only [hnull, if_true] using hloop
          · rw [if_neg hnull] at hloop
            simpa only [hnull, if_false] using ih hloop (by omega)
        · cases hloop
        · cases hloop
      · rw [if_neg hround] at hloop ⊢
        exact ih hloop (by omega)

end Xv6.Malloc
