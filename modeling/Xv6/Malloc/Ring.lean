import Xv6.Malloc.Code

/-!
# The circular free list

A run is a block of memory: the address of its header and its size in units.  The free list
is a path of headers through a list of runs that ends where it began; `free` joins runs that
touch.
-/

namespace Xv6.Malloc

open List

abbrev Run := Nat × Nat

def Run.stop (r : Run) : Nat := r.1 + HEADER * r.2

def Covers (l : List Run) (x : Nat) : Prop := ∃ r ∈ l, r.1 ≤ x ∧ x < Run.stop r

def Apart (r s : Run) : Prop := Run.stop r ≤ s.1 ∨ Run.stop s ≤ r.1

def Gaps (l : List Run) : Prop := l.Pairwise fun r s => Run.stop r < s.1

/-- From the node `x` the headers lead through the nodes of `l` to the address `q`. -/
def Path (mem : Memory) : Run → List Run → Nat → Prop
  | x, [], q => mem x.1 = ⟨q, x.2⟩
  | x, y :: l, q => mem x.1 = ⟨y.1, x.2⟩ ∧ Path mem y l q

variable {mem mem' : Memory} {x y p b r : Run} {l l' pre post : List Run} {q : Nat}

theorem path_append : Path mem x (l ++ y :: l') q ↔ Path mem x l y.1 ∧ Path mem y l' q := by
  induction l generalizing x with
  | nil => exact Iff.rfl
  | cons z l ih => simp only [cons_append, Path, ih, and_assoc]

theorem Path.congr (h : Path mem x l q) (hsame : ∀ r ∈ x :: l, mem' r.1 = mem r.1) :
    Path mem' x l q := by
  induction l generalizing x with
  | nil => exact (hsame x mem_cons_self).trans h
  | cons y l ih =>
    exact ⟨(hsame x mem_cons_self).trans h.1,
      ih h.2 fun r hr => hsame r (mem_cons_of_mem x hr)⟩

theorem Path.size (h : Path mem x l q) (hr : r ∈ x :: l) : (mem r.1).size = r.2 := by
  induction l generalizing x with
  | nil =>
    obtain rfl := mem_singleton.mp hr
    rw [h]
  | cons y l ih =>
    rcases mem_cons.mp hr with rfl | hr
    · rw [h.1]
    · exact ih h.2 hr

theorem Path.replace (h : Path mem x l q) (hb : mem' b.1 = ⟨(mem x.1).ptr, b.2⟩)
    (hsame : ∀ r ∈ l, mem' r.1 = mem r.1) : Path mem' b l q := by
  cases l with
  | nil =>
    rw [Path, hb, h]
  | cons y l =>
    refine ⟨?_, h.2.congr hsame⟩
    rw [hb, h.1]

theorem Path.next (h : Path mem x l q) (hr : r ∈ x :: l) (hne : (mem r.1).ptr ≠ q) :
    ∃ pre y post, x :: l = pre ++ r :: y :: post ∧ (mem r.1).ptr = y.1 := by
  induction l generalizing x with
  | nil =>
    obtain rfl := mem_singleton.mp hr
    rw [h] at hne
    exact absurd rfl hne
  | cons y l ih =>
    rcases mem_cons.mp hr with rfl | hr
    · exact ⟨[], y, l, rfl, by rw [h.1]⟩
    · obtain ⟨pre, z, post, heq, hz⟩ := ih h.2 hr
      exact ⟨x :: pre, z, post, by rw [heq]; rfl, hz⟩

theorem Path.rotate (h : Path mem x (l ++ y :: l') x.1) : Path mem y (l' ++ x :: l) y.1 := by
  obtain ⟨hfirst, hsecond⟩ := path_append.mp h
  exact path_append.mpr ⟨hsecond, hfirst⟩

def join (r : Run) : List Run → List Run
  | [] => [r]
  | s :: l => if Run.stop r = s.1 then (r.1, r.2 + s.2) :: l else r :: s :: l

theorem covers_append {x : Nat} : Covers (l ++ l') x ↔ Covers l x ∨ Covers l' x := by
  simp only [Covers, mem_append, or_and_right, exists_or]

theorem covers_cons {x : Nat} : Covers (r :: l) x ↔ (r.1 ≤ x ∧ x < Run.stop r) ∨ Covers l x := by
  simp only [Covers, mem_cons, or_and_right, exists_or, exists_eq_left]

theorem covers_join {x : Nat} : Covers (join r l) x ↔ Covers (r :: l) x := by
  cases l with
  | nil => exact Iff.rfl
  | cons s l =>
    simp only [join]
    split
    · case isTrue htouch =>
      rw [covers_cons, covers_cons, covers_cons, ← or_assoc]
      refine or_congr_left ?_
      simp only [Run.stop, HEADER] at htouch ⊢
      omega
    · exact Iff.rfl

theorem join_eq_cons (r : Run) (l : List Run) :
    ∃ n rest, join r l = (r.1, n) :: rest ∧ r.2 ≤ n := by
  cases l with
  | nil => exact ⟨r.2, [], rfl, Nat.le_refl _⟩
  | cons s l =>
    simp only [join]
    split
    · exact ⟨r.2 + s.2, l, rfl, Nat.le_add_right _ _⟩
    · exact ⟨r.2, s :: l, rfl, Nat.le_refl _⟩

theorem gaps_join (hl : Gaps l) (hr : ∀ s ∈ l, Run.stop r ≤ s.1) : Gaps (join r l) := by
  cases l with
  | nil => exact pairwise_singleton _ _
  | cons s l =>
    obtain ⟨hs, hl⟩ := pairwise_cons.mp hl
    have hrs := hr s mem_cons_self
    simp only [join]
    split
    · case isTrue htouch =>
      refine pairwise_cons.mpr ⟨fun z hz => ?_, hl⟩
      have hsz := hs z hz
      simp only [Run.stop, HEADER] at htouch hsz ⊢
      omega
    · case isFalse hgap =>
      refine pairwise_cons.mpr ⟨fun z hz => ?_, pairwise_cons.mpr ⟨hs, hl⟩⟩
      rcases mem_cons.mp hz with rfl | hz
      · omega
      · have hsz := hs z hz
        simp only [Run.stop, HEADER] at hsz hrs hgap ⊢
        omega

theorem mem_join {P : Run → Prop} (hr : P r) (hl : ∀ s ∈ l, P s)
    (hjoin : ∀ s ∈ l, Run.stop r = s.1 → P (r.1, r.2 + s.2)) : ∀ s ∈ join r l, P s := by
  cases l with
  | nil => simpa [join] using hr
  | cons s l =>
    have hs := hl s mem_cons_self
    simp only [join]
    split
    · case isTrue htouch =>
      intro z hz
      rcases mem_cons.mp hz with rfl | hz
      · exact hjoin s mem_cons_self htouch
      · exact hl z (mem_cons_of_mem s hz)
    · intro z hz
      rcases mem_cons.mp hz with rfl | hz
      · exact hr
      · exact hl z hz

def AllUnits (P : Nat → Prop) (r : Run) : Prop := ∀ i < r.2, P (r.1 + HEADER * i)

theorem allUnits_join {P : Nat → Prop} (hr : AllUnits P r) (hl : ∀ s ∈ l, AllUnits P s) :
    ∀ s ∈ join r l, AllUnits P s := by
  refine mem_join hr hl fun s hs htouch i hi => ?_
  by_cases hfirst : i < r.2
  · exact hr i hfirst
  · simp only at hi
    have hunit := hl s hs (i - r.2) (by omega)
    have haddr : s.1 + HEADER * (i - r.2) = r.1 + HEADER * i := by
      simp only [Run.stop, HEADER] at htouch ⊢
      omega
    rwa [haddr] at hunit

open Heap Function

theorem joinNext_of_ne {bp q a : Nat} (ha : a ≠ bp) : joinNext mem bp q a = mem a := by
  simp only [joinNext]
  split <;> simp [setPtr, setSize, ha]

theorem joinPrev_of_ne {bp q a : Nat} (ha : a ≠ q) : joinPrev mem bp q a = mem a := by
  simp only [joinPrev]
  split <;> simp [setPtr, setSize, ha]

theorem Path.joinNext (h : Path mem p post q) (hsize : (mem b.1).size = b.2)
    (hb : ∀ r ∈ p :: post, r.1 ≠ b.1) (hq : q < b.1) {n : Nat} {rest : List Run}
    (hjoin : join b post = (b.1, n) :: rest) : Path (joinNext mem b.1 p.1) (b.1, n) rest q := by
  obtain ⟨bp, k⟩ := b
  cases post with
  | nil =>
    cases hjoin
    have hnext : (mem p.1).ptr = q := by rw [h]
    have hne : ¬ bp + HEADER * n = q := by simp only [HEADER] at hq ⊢; omega
    simp only [Path, Heap.joinNext, hnext, hsize, hne, if_false, setPtr, update_self]
  | cons y l =>
    have hnext : (mem p.1).ptr = y.1 := by rw [h.1]
    have hy := h.2.size mem_cons_self
    have hrest : ∀ r ∈ y :: l, joinNext mem bp p.1 r.1 = mem r.1 := fun r hr =>
      joinNext_of_ne (hb r (mem_cons_of_mem p hr))
    simp only [join] at hjoin
    split at hjoin
    · case isTrue htouch =>
      cases hjoin
      refine h.2.replace ?_ fun r hr => hrest r (mem_cons_of_mem y hr)
      have htouch' : bp + HEADER * k = y.1 := htouch
      simp only [Heap.joinNext, hnext, hsize, htouch', if_true, setPtr, setSize, update_self, hy]
    · case isFalse hgap =>
      cases hjoin
      have hgap' : ¬ bp + HEADER * n = y.1 := hgap
      refine ⟨?_, h.2.congr hrest⟩
      simp only [Heap.joinNext, hnext, hsize, hgap', if_false, setPtr, update_self]

theorem Path.joinPrev {n m : Nat} {rest rest' : List Run} (h : Path mem (b.1, n) rest q)
    (hsize : (mem p.1).size = p.2) (hp : ∀ r ∈ (b.1, n) :: rest, r.1 ≠ p.1)
    (hjoin : join p ((b.1, n) :: rest) = (p.1, m) :: rest') :
    Path (joinPrev mem b.1 p.1) (p.1, m) rest' q := by
  obtain ⟨a, k⟩ := p
  have hn := h.size mem_cons_self
  have hrest : ∀ r ∈ (b.1, n) :: rest, Heap.joinPrev mem b.1 a r.1 = mem r.1 := fun r hr =>
    joinPrev_of_ne (hp r hr)
  simp only [join] at hjoin
  split at hjoin
  · case isTrue htouch =>
    cases hjoin
    refine h.replace ?_ fun r hr => hrest r (mem_cons_of_mem _ hr)
    have htouch' : a + HEADER * k = b.1 := htouch
    simp only at hn
    simp only [Heap.joinPrev, hsize, htouch', if_true, setPtr, setSize, update_self, hn]
  · case isFalse hgap =>
    cases hjoin
    have hgap' : ¬ a + HEADER * m = b.1 := hgap
    refine ⟨?_, h.congr hrest⟩
    simp only [Heap.joinPrev, hsize, hgap', if_false, setPtr, update_self]

end Xv6.Malloc
