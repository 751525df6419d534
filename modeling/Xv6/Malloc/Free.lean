import Xv6.Malloc.Ring

/-!
# free

The loop of `free` ends at the node behind which the block belongs, wherever on the list it
starts, and the list with the block put in is again in order and without touching runs.
-/

namespace Xv6.Malloc

open Heap List

variable {mem : Memory} {s p b : Run} {l fs pre post : List Run} {q base bp : Nat}

theorem search_ahead (hpath : Path mem s l q) (hgaps : Gaps (s :: l)) (hq : ∀ r ∈ s :: l, q ≤ r.1)
    (hsplit : s :: l = pre ++ p :: post) (hp : p.1 < bp) (hpost : ∀ r ∈ post, bp < r.1) {fuel : Nat}
    (hfuel : pre.length + 1 ≤ fuel) : search mem bp fuel s.1 = some p.1 := by
  induction pre generalizing s l fuel with
  | nil =>
    obtain ⟨fuel, rfl⟩ : ∃ n, fuel = n + 1 := ⟨fuel - 1, by simp at hfuel; omega⟩
    obtain ⟨rfl, rfl⟩ := cons.inj hsplit
    cases l with
    | nil =>
      have hqs := hq s mem_cons_self
      have hnext : (mem s.1).ptr = q := by rw [hpath]
      rw [search, hnext, if_neg (by omega), if_pos ⟨hqs, .inl hp⟩]
    | cons y l =>
      have hy := hpost y mem_cons_self
      have hnext : (mem s.1).ptr = y.1 := by rw [hpath.1]
      rw [search, hnext, if_pos ⟨hp, hy⟩]
  | cons z pre ih =>
    obtain ⟨fuel, rfl⟩ : ∃ n, fuel = n + 1 := ⟨fuel - 1, by simp at hfuel; omega⟩
    rw [cons_append] at hsplit
    obtain ⟨rfl, rfl⟩ := cons.inj hsplit
    -- the next node is not behind the place of `bp`
    obtain ⟨y, rest, hrest⟩ : ∃ y rest, pre ++ p :: post = y :: rest := by
      cases pre with
      | nil => exact ⟨p, post, rfl⟩
      | cons y pre => exact ⟨y, pre ++ p :: post, rfl⟩
    rw [hrest] at hpath hgaps hq
    obtain ⟨hs, hgaps'⟩ := pairwise_cons.mp hgaps
    have hsy := hs y mem_cons_self
    have hyp : y.1 ≤ p.1 := by
      have hmem : p ∈ y :: rest := by rw [← hrest]; simp
      rcases mem_cons.mp hmem with rfl | hmem
      · exact Nat.le_refl _
      · have hyp := (pairwise_cons.mp hgaps').1 p hmem
        simp only [Run.stop, HEADER] at hyp
        omega
    have hnext : (mem s.1).ptr = y.1 := by rw [hpath.1]
    simp only [Run.stop, HEADER] at hsy
    rw [search, hnext, if_neg (by omega), if_neg (by omega)]
    refine ih hpath.2 hgaps' (fun r hr => hq r (mem_cons_of_mem s hr)) hrest.symm ?_
    simp at hfuel
    omega

theorem search_behind (hpath : Path mem s l q) (hgaps : Gaps (s :: l)) (hq : q < bp)
    (hbp : ∀ r ∈ s :: l, bp < r.1) (fuel : Nat) :
    search mem bp (fuel + (l.length + 1)) s.1 = search mem bp fuel q := by
  induction l generalizing s with
  | nil =>
    have hs := hbp s mem_cons_self
    have hnext : (mem s.1).ptr = q := by rw [hpath]
    rw [length_nil, search, hnext, if_neg (by omega), if_neg (by omega)]
  | cons y l ih =>
    have hs := hbp s mem_cons_self
    obtain ⟨hsl, hgaps'⟩ := pairwise_cons.mp hgaps
    have hsy := hsl y mem_cons_self
    have hnext : (mem s.1).ptr = y.1 := by rw [hpath.1]
    have hstep := ih hpath.2 hgaps' fun r hr => hbp r (mem_cons_of_mem s hr)
    simp only [Run.stop, HEADER] at hsy
    rw [length_cons, ← Nat.add_assoc, search, hnext, if_neg (by omega), if_neg (by omega)]
    exact hstep

theorem exists_place (hgaps : Gaps (s :: l)) (hs : s.1 < bp) (hne : ∀ r ∈ l, r.1 ≠ bp) :
    ∃ pre p post, s :: l = pre ++ p :: post ∧ p.1 < bp ∧ ∀ r ∈ post, bp < r.1 := by
  induction l generalizing s with
  | nil => exact ⟨[], s, [], rfl, hs, by simp⟩
  | cons y l ih =>
    obtain ⟨hsl, hgaps'⟩ := pairwise_cons.mp hgaps
    by_cases hy : y.1 < bp
    · obtain ⟨pre, p, post, heq, hp, hpost⟩ := ih hgaps' hy fun r hr =>
        hne r (mem_cons_of_mem y hr)
      exact ⟨s :: pre, p, post, by rw [heq]; rfl, hp, hpost⟩
    · refine ⟨[], s, y :: l, rfl, hs, fun r hr => ?_⟩
      have hyne := hne y mem_cons_self
      rcases mem_cons.mp hr with rfl | hr
      · omega
      · have hyr := (pairwise_cons.mp hgaps').1 r hr
        simp only [Run.stop, HEADER] at hyr
        omega

/-- The free list: a ring from `base`, in order, without touching runs. -/
structure Ring (mem : Memory) (base : Nat) (fs : List Run) : Prop where
  path : Path mem (base, 0) fs base
  gaps : Gaps ((base, 0) :: fs)

section

variable (h : Ring mem base fs)

include h

theorem Ring.base_le {r : Run} (hr : r ∈ (base, 0) :: fs) : base ≤ r.1 := by
  rcases mem_cons.mp hr with rfl | hr
  · exact Nat.le_refl _
  · have hlt := (pairwise_cons.mp h.gaps).1 r hr
    simp only [Run.stop, HEADER] at hlt
    omega

theorem Ring.path_from (hsplit : (base, 0) :: fs = pre ++ s :: post) : Path mem s post base := by
  cases pre with
  | nil =>
    obtain ⟨rfl, rfl⟩ := cons.inj hsplit
    exact h.path
  | cons z pre =>
    obtain ⟨rfl, rfl⟩ := cons.inj hsplit
    exact (path_append.mp h.path).2

theorem Ring.rebuild {mem' : Memory} {k : Nat} {l' : List Run}
    (hsplit : (base, 0) :: fs = pre ++ s :: post) (hk : pre = [] → k = 0)
    (hsame : ∀ r ∈ pre, mem' r.1 = mem r.1) (hpath : Path mem' (s.1, k) l' base)
    (hgaps : Gaps (pre ++ (s.1, k) :: l')) :
    ∃ fs', pre ++ (s.1, k) :: l' = (base, 0) :: fs' ∧ Ring mem' base fs' := by
  cases pre with
  | nil =>
    obtain ⟨rfl, -⟩ := cons.inj hsplit
    obtain rfl := hk rfl
    exact ⟨l', rfl, hpath, hgaps⟩
  | cons z pre =>
    obtain ⟨rfl, rfl⟩ := cons.inj hsplit
    refine ⟨pre ++ (s.1, k) :: l', rfl, path_append.mpr ⟨?_, hpath⟩, hgaps⟩
    exact (path_append.mp h.path).1.congr hsame

theorem Ring.ne_base {r : Run} (hr : r ∈ fs) : r ≠ (base, 0) := by
  rintro rfl
  have hlt := (pairwise_cons.mp h.gaps).1 _ hr
  simp only [Run.stop, HEADER] at hlt
  omega

theorem Ring.lt_of_split (hsplit : (base, 0) :: fs = pre ++ post) {r t : Run}
    (hr : r ∈ pre) (ht : t ∈ post) : Run.stop r < t.1 :=
  (pairwise_append.mp (hsplit ▸ h.gaps)).2.2 r hr t ht

end

theorem gaps_right (h : Gaps (pre ++ post)) : Gaps post := (pairwise_append.mp h).2.1

/-- Wherever it starts, the loop finds the place of `bp` within one round. -/
theorem Ring.search (h : Ring mem base fs) (hsplit : (base, 0) :: fs = pre ++ p :: post)
    (hp : p.1 < bp) (hpost : ∀ r ∈ post, bp < r.1) (hbase : base < bp) (hs : s ∈ (base, 0) :: fs)
    {fuel : Nat} (hfuel : fs.length + 1 ≤ fuel) : Heap.search mem bp fuel s.1 = some p.1 := by
  have hlength : fs.length + 1 = pre.length + (post.length + 1) := by
    rw [← length_cons (a := ((base, 0) : Run)), hsplit, length_append, length_cons]
  rw [hsplit] at hs
  rcases mem_append.mp hs with hs | hs
  · -- before the place
    obtain ⟨u, v, rfl⟩ := append_of_mem hs
    have hfrom : (base, 0) :: fs = u ++ s :: (v ++ p :: post) := by rw [hsplit]; simp
    have hhere : s :: (v ++ p :: post) = (s :: v) ++ p :: post := rfl
    refine search_ahead (h.path_from hfrom) (gaps_right (hfrom ▸ h.gaps))
      (fun r hr => h.base_le (hfrom ▸ mem_append_right u hr)) hhere hp hpost ?_
    simp at hlength ⊢
    omega
  · rcases mem_cons.mp hs with rfl | hs
    · have hhere : s :: post = [] ++ s :: post := rfl
      refine search_ahead (h.path_from hsplit) (gaps_right (hsplit ▸ h.gaps))
        (fun r hr => h.base_le (hsplit ▸ mem_append_right pre hr)) hhere hp hpost ?_
      simp only [length_nil]
      omega
    · -- behind the place
      obtain ⟨u, v, rfl⟩ := append_of_mem hs
      have hfrom : (base, 0) :: fs = (pre ++ p :: u) ++ s :: v := by rw [hsplit]; simp
      obtain ⟨rest, rfl⟩ : ∃ n, fuel = n + (v.length + 1) :=
        ⟨fuel - (v.length + 1), by simp at hlength; omega⟩
      rw [search_behind (h.path_from hfrom) (gaps_right (hfrom ▸ h.gaps)) hbase
        (fun r hr => hpost r (mem_append_right u hr))]
      refine search_ahead h.path h.gaps (fun r hr => h.base_le hr) hsplit hp hpost ?_
      simp at hlength
      omega

/-- What lies behind the node `p` once `b` has been put in. -/
def behind (p b : Run) (post : List Run) : List Run := join p (join b post)

theorem gaps_behind (hgaps : Gaps (pre ++ p :: post)) (hp : Run.stop p ≤ b.1)
    (hb : ∀ r ∈ post, Run.stop b ≤ r.1) : Gaps (pre ++ behind p b post) := by
  obtain ⟨hpre, hppost, hcross⟩ := pairwise_append.mp hgaps
  have hpost := (pairwise_cons.mp hppost).2
  have hbp : p.1 ≤ b.1 := by simp only [Run.stop, HEADER] at hp; omega
  have hpb : ∀ s ∈ join b post, Run.stop p ≤ s.1 := by
    refine mem_join hp (fun s hs => ?_) fun s _ _ => hp
    have hbs := hb s hs
    simp only [Run.stop, HEADER] at hp hbs ⊢
    omega
  refine pairwise_append.mpr ⟨hpre, gaps_join (gaps_join hpost hb) hpb, fun r hr => ?_⟩
  have hrp := hcross r hr p mem_cons_self
  refine mem_join hrp (mem_join (by omega) (fun s hs => ?_) fun s _ _ => ?_) fun s _ _ => hrp
  · exact hcross r hr s (mem_cons_of_mem p hs)
  · simp only
    omega

theorem covers_behind {x : Nat} : Covers (behind p b post) x ↔ Covers (p :: b :: post) x := by
  rw [behind, covers_join, covers_cons, covers_join, ← covers_cons]

theorem Path.behind (hpath : Path mem p post q) (hsize : (mem b.1).size = b.2)
    (hpb : p.1 < b.1) (hpost : ∀ r ∈ post, b.1 < r.1) (hq : q < b.1) :
    ∃ m rest, Malloc.behind p b post = (p.1, m) :: rest ∧
      Path (Heap.joinPrev (Heap.joinNext mem b.1 p.1) b.1 p.1) (p.1, m) rest q := by
  obtain ⟨n, rest, hn, -⟩ := join_eq_cons b post
  obtain ⟨m, rest', hm, -⟩ := join_eq_cons p (join b post)
  refine ⟨m, rest', hm, ?_⟩
  have hne : ∀ r ∈ p :: post, r.1 ≠ b.1 := by
    intro r hr
    rcases mem_cons.mp hr with rfl | hr
    · omega
    · have hlt := hpost r hr
      omega
  have hfirst := hpath.joinNext hsize hne hq hn
  have hlater : ∀ r ∈ (b.1, n) :: rest, r.1 ≠ p.1 := by
    rw [← hn]
    refine mem_join (by omega) (fun r hr => ?_) fun r _ _ => ?_
    · have hlt := hpost r hr
      omega
    · simp only
      omega
  rw [hn] at hm
  refine hfirst.joinPrev ?_ hlater hm
  rw [joinNext_of_ne (by omega)]
  exact hpath.size mem_cons_self

/-- What `free` of the run `b` leaves. -/
structure Freed (base : Nat) (h h' : Heap) (fs fs' : List Run) (b : Run) : Prop where
  live : h'.live = h.live
  regions : h'.regions = h.regions
  ring : Ring h'.mem base fs'
  freep : ∃ r ∈ (base, 0) :: fs', h'.freep = r.1
  covers : ∀ x, Covers fs' x ↔ Covers (b :: fs) x
  pos : ∀ r ∈ fs', 0 < r.2
  units : ∀ P, (∀ r ∈ b :: fs, AllUnits P r) → ∀ r ∈ fs', AllUnits P r
  frame : ∀ a, a ≠ b.1 → (∀ r ∈ (base, 0) :: fs, r.1 ≠ a) → h'.mem a = h.mem a
  large : ∃ r ∈ fs', b.2 ≤ r.2
  length : fs'.length ≤ fs.length + 1

theorem length_join_le (r : Run) (l : List Run) : (join r l).length ≤ l.length + 1 := by
  cases l with
  | nil => exact Nat.le_refl _
  | cons s l =>
    simp only [join]
    split <;> simp

theorem covers_base (base : Nat) {x : Nat} : Covers ((base, 0) :: l) x ↔ Covers l x := by
  rw [covers_cons]
  refine or_iff_right fun hx => ?_
  simp only [Run.stop, HEADER] at hx
  omega

theorem exists_large (p b : Run) (post : List Run) : ∃ r ∈ behind p b post, b.2 ≤ r.2 := by
  obtain ⟨n, rest, hn, hle⟩ := join_eq_cons b post
  rw [behind, hn, join]
  split
  · exact ⟨_, mem_cons_self, by simp only; omega⟩
  · exact ⟨(b.1, n), by simp, hle⟩

theorem Ring.free {h : Heap} (hring : Ring h.mem base fs) (hpos : ∀ r ∈ fs, 0 < r.2)
    (hfreep : ∃ r ∈ (base, 0) :: fs, h.freep = r.1) (hsize : (h.mem b.1).size = b.2)
    (hb : 0 < b.2) (hbase : base < b.1) (hapart : ∀ x, b.1 ≤ x → x < Run.stop b → ¬ Covers fs x)
    {fuel : Nat} (hfuel : fs.length + 1 ≤ fuel) :
    ∃ h' fs', h.free fuel b.1 = some h' ∧ Freed base h h' fs fs' b := by
  have hstop : b.1 < Run.stop b := by simp only [Run.stop, HEADER]; omega
  have hne : ∀ r ∈ fs, r.1 ≠ b.1 := fun r hr heq => by
    refine hapart b.1 (Nat.le_refl _) hstop ⟨r, hr, by omega, ?_⟩
    have hr0 := hpos r hr
    simp only [Run.stop, HEADER]
    omega
  obtain ⟨pre, p, post, hsplit, hp, hpost⟩ := exists_place hring.gaps hbase hne
  have hmemfs : ∀ r ∈ (base, 0) :: fs, r = (base, 0) ∨ r ∈ fs := fun r hr => mem_cons.mp hr
  have hpmem : p ∈ (base, 0) :: fs := by rw [hsplit]; simp
  -- the runs around the place do not overlap the block
  have hpstop : Run.stop p ≤ b.1 := by
    rcases hmemfs p hpmem with rfl | hpfs
    · exact Nat.le_of_lt hbase
    · by_contra hover
      exact hapart b.1 (Nat.le_refl _) hstop ⟨p, hpfs, by omega, by omega⟩
  have hpostfs : ∀ r ∈ post, r ∈ fs := fun r hr => by
    rcases hmemfs r (by rw [hsplit]; simp [hr]) with rfl | hrfs
    · have hlt := hpost _ hr
      simp only at hlt
      omega
    · exact hrfs
  have hbpost : ∀ r ∈ post, Run.stop b ≤ r.1 := fun r hr => by
    by_contra hover
    have hlt := hpost r hr
    have hr0 := hpos r (hpostfs r hr)
    refine hapart r.1 (by omega) (by omega) ⟨r, hpostfs r hr, Nat.le_refl _, ?_⟩
    simp only [Run.stop, HEADER]
    omega
  obtain ⟨f, hf, hfeq⟩ := hfreep
  have hsearch := hring.search hsplit hp hpost hbase hf hfuel
  obtain ⟨m, rest, hbehind, hpath⟩ := (hring.path_from hsplit).behind hsize hp hpost hbase
  have hgaps : Gaps (pre ++ behind p b post) := gaps_behind (hsplit ▸ hring.gaps) hpstop hbpost
  have hframe : ∀ a, a ≠ b.1 → a ≠ p.1 →
      joinPrev (joinNext h.mem b.1 p.1) b.1 p.1 a = h.mem a := fun a hab hap => by
    rw [joinPrev_of_ne hap, joinNext_of_ne hab]
  -- the new list begins with `base` again
  obtain ⟨fs', hfs', hring'⟩ : ∃ fs', pre ++ behind p b post = (base, 0) :: fs' ∧
      Ring (joinPrev (joinNext h.mem b.1 p.1) b.1 p.1) base fs' := by
    rw [hbehind] at hgaps ⊢
    refine hring.rebuild hsplit (fun hnil => ?_) (fun r hr => hframe r.1 ?_ ?_) hpath hgaps
    · subst hnil
      obtain ⟨rfl, -⟩ := cons.inj hsplit
      obtain ⟨n, rest', hn, -⟩ := join_eq_cons b post
      rw [behind, hn, join, if_neg (by simp only [Run.stop, HEADER]; omega)] at hbehind
      simp only [cons.injEq, Prod.mk.injEq] at hbehind
      omega
    · have hrp := hring.lt_of_split hsplit hr mem_cons_self
      simp only [Run.stop, HEADER] at hrp
      omega
    · have hrp := hring.lt_of_split hsplit hr mem_cons_self
      simp only [Run.stop, HEADER] at hrp
      omega
  have hsizes : ∀ r ∈ pre ++ behind p b post, r = (base, 0) ∨ 0 < r.2 := by
    have hold : ∀ r ∈ (base, 0) :: fs, r = (base, 0) ∨ 0 < r.2 := fun r hr =>
      (hmemfs r hr).imp_right (hpos r)
    intro r hr
    rcases mem_append.mp hr with hr | hr
    · exact hold r (by rw [hsplit]; simp [hr])
    · refine mem_join (P := fun r => r = (base, 0) ∨ 0 < r.2) (hold p hpmem) ?_ ?_ r hr
      · exact mem_join (.inr hb) (fun s hs => .inr (hpos s (hpostfs s hs)))
          fun s _ _ => .inr (by simp only; omega)
      · refine mem_join (fun _ => .inr (by simp only; omega)) (fun s hs _ => ?_) fun s _ _ _ => ?_
        · have hs0 := hpos s (hpostfs s hs)
          exact .inr (by simp only; omega)
        · exact .inr (by simp only; omega)
  refine ⟨{ h with mem := joinPrev (joinNext h.mem b.1 p.1) b.1 p.1, freep := p.1 }, fs', ?_,
    rfl, rfl, hring', ?_, fun x => ?_, fun r hr => ?_, fun P hP r hr => ?_,
    fun a hab ha => ?_, ?_, ?_⟩
  · rw [Heap.free, hfeq, hsearch]
  · refine ⟨(p.1, m), ?_, rfl⟩
    rw [← hfs', hbehind]
    simp
  · rw [← covers_base base, ← hfs', covers_append, covers_behind, covers_cons,
      covers_cons, covers_cons, ← covers_base base (l := fs), hsplit, covers_append,
      covers_cons]
    exact ⟨fun h => by rcases h with h | h | h | h <;> simp [h],
      fun h => by rcases h with h | h | h | h <;> simp [h]⟩
  · have hr0 := hsizes r (by rw [hfs']; exact mem_cons_of_mem _ hr)
    exact hr0.resolve_left (hring'.ne_base hr)
  · have hold : ∀ r ∈ (base, 0) :: fs, AllUnits P r := fun r hr => by
      rcases hmemfs r hr with rfl | hrfs
      · exact fun i hi => absurd hi (Nat.not_lt_zero i)
      · exact hP r (mem_cons_of_mem b hrfs)
    have hmem : r ∈ pre ++ behind p b post := by rw [hfs']; exact mem_cons_of_mem _ hr
    rcases mem_append.mp hmem with hmem | hmem
    · exact hold r (by rw [hsplit]; simp [hmem])
    · refine allUnits_join (hold p hpmem) (allUnits_join (hP b mem_cons_self) ?_) r hmem
      exact fun s hs => hP s (mem_cons_of_mem b (hpostfs s hs))
  · exact hframe a hab fun heq => ha p hpmem heq.symm
  · obtain ⟨r, hr, hle⟩ := exists_large p b post
    have hr' : r ∈ (base, 0) :: fs' := hfs' ▸ mem_append_right pre hr
    rcases mem_cons.mp hr' with rfl | hr'
    · simp only at hle
      omega
    · exact ⟨r, hr', hle⟩
  · have hlen := congrArg length hfs'
    have hlen' := congrArg length hsplit
    have hjoin := length_join_le p (join b post)
    have hjoin' := length_join_le b post
    simp only [length_append, length_cons, behind] at hlen hlen' hjoin
    omega

end Xv6.Malloc
