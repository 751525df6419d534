import Mathlib.Order.Interval.Finset.Nat
import Xv6.Fs.ByteArray
import Xv6.Mkfs.Code

/-!
# mkfs does what the kernel would do

`iappend` takes its blocks from the counter `freeblock`, the kernel's `writei` takes them
from the free map.  With the map marked up to `freeblock` and the blocks from there on
still zero, the two allocators pick the same block, and `iappend` is `writei` at the end
of the file.
-/

namespace Xv6.Mkfs

open Fs Lib Function List

/-- The layout of the image, as the kernel reads it from the superblock, for `n` inodes. -/
def layout (n : Nat) (hn : n ≤ IPB * ninodeblocks) : Superblock where
  size := FSSIZE
  ninodes := n
  inodestart := inodestart
  bmapstart := bmapstart
  nmeta := nmeta
  size_lt := by decide
  nmeta_le := by decide
  inode_lt := by
    intro inum hinum
    have hlt : inum < 8 * 26 := lt_of_lt_of_le hinum hn
    change 32 + inum / 8 < 58
    omega
  bmap_lt := by
    intro b hb
    have hlt : b < 1000 := hb
    change 58 + b / 4096 < 59
    omega

theorem sizes : FSSIZE = 1000 ∧ nmeta = 59 ∧ bmapstart = 58 ∧ BPB = 4096 := by decide

theorem getBit_bitmap {used : Nat} (hused : used ≤ BPB) (j : Nat) :
    getBit (Builder.bitmap used) j = decide (j < used) := by
  induction used with
  | zero => simp [Builder.bitmap, getBit]
  | succ used ih =>
    have hstep : Builder.bitmap (used + 1) = putBit (Builder.bitmap used) used true := by
      simp [Builder.bitmap, range_succ]
    rw [hstep, getBit_putBit _ _ _ (by omega), ih (by omega)]
    by_cases hj : j = used
    · simp [hj]
    · rw [if_neg hj]
      exact decide_eq_decide.mpr (by omega)

/-- The disk with the free map that `balloc` would write. -/
def marked (disk : Disk) (used : Nat) : Disk :=
  update disk bmapstart (Builder.bitmap used)

variable {b : Nat}

theorem marked_of_ne (disk : Disk) (used : Nat) (hb : b ≠ bmapstart) :
    marked disk used b = disk b := update_of_ne hb _ _

theorem marked_update (disk : Disk) (used : Nat) (hb : b ≠ bmapstart) (x : Block) :
    update (marked disk used) b x = marked (update disk b x) used :=
  (update_comm hb _ _ _).symm

section

variable {n : Nat} {hn : n ≤ IPB * ninodeblocks} {disk : Disk} {used : Nat}

theorem bitAt_marked (hused : used ≤ FSSIZE) (hb : b < FSSIZE) :
    bitAt (layout n hn) (marked disk used) b = decide (b < used) := by
  obtain ⟨hsize, -, -, hbpb⟩ := sizes
  have hblock : (layout n hn).bblock b = bmapstart := by
    change b / 4096 + 58 = 58
    omega
  have hmod : b % BPB = b := Nat.mod_eq_of_lt (by omega)
  unfold bitAt
  rw [hblock, hmod, marked, update_self]
  exact getBit_bitmap (by omega) b

theorem freeBlocks_marked (hused : used ≤ FSSIZE) :
    (freeBlocks (layout n hn) (marked disk used)).card = FSSIZE - used := by
  have hset : freeBlocks (layout n hn) (marked disk used) = Finset.Ico used FSSIZE := by
    ext b
    simp only [freeBlocks, Finset.mem_filter, Finset.mem_range, Finset.mem_Ico]
    constructor
    · rintro ⟨hb, hfree⟩
      rw [bitAt_marked hused hb, decide_eq_false_iff_not] at hfree
      exact ⟨by omega, hb⟩
    · rintro ⟨hlo, hb⟩
      refine ⟨hb, ?_⟩
      rw [bitAt_marked hused hb]
      exact decide_eq_false (by omega)
  rw [hset, Nat.card_Ico]

theorem findFree_marked (hused : used ≤ FSSIZE) :
    findFree (layout n hn) (marked disk used) = if used < FSSIZE then some (0, used) else none := by
  obtain ⟨hsize, -, -, hbpb⟩ := sizes
  have hone : ((layout n hn).size + BPB - 1) / BPB = 1 := by
    change (FSSIZE + BPB - 1) / BPB = 1
    decide
  have hscan : scanBitmap (layout n hn) (marked disk used) 0 =
      if used < FSSIZE then some used else none := by
    have htest : ∀ bi, (0 + bi < (layout n hn).size &&
        !getBit (marked disk used ((layout n hn).bblock 0)) bi) = true ↔
          bi < FSSIZE ∧ used ≤ bi := by
      intro bi
      have hblock : marked disk used ((layout n hn).bblock 0) = Builder.bitmap used :=
        update_self _ _ _
      rw [hblock, getBit_bitmap (by omega), Nat.zero_add, Bool.and_eq_true, decide_eq_true_iff,
        Bool.not_eq_true', decide_eq_false_iff_not, Nat.not_lt]
      exact Iff.rfl
    unfold scanBitmap
    split_ifs with hlt
    · rw [List.find?_range_eq_some]
      refine ⟨(htest used).mpr ⟨hlt, Nat.le_refl _⟩, mem_range.mpr (by omega), ?_⟩
      intro j hj
      rw [Bool.not_eq_true', ← Bool.not_eq_true, htest]
      omega
    · rw [List.find?_eq_none]
      intro j _
      rw [htest]
      omega
  unfold findFree
  rw [hone]
  simp only [range_one, List.findSome?_cons, List.findSome?_nil, Nat.zero_mul, hscan]
  split_ifs
  · rfl
  · rfl

theorem balloc_marked (hlt : used < FSSIZE) (hlo : nmeta ≤ used) (hzero : disk used = 0) :
    Fs.balloc (layout n hn) (marked disk used) = .ok (used, marked disk (used + 1)) := by
  obtain ⟨-, hmeta, hbmap, -⟩ := sizes
  have hne : used ≠ bmapstart := by omega
  have hmap : putBit (Builder.bitmap used) used true = Builder.bitmap (used + 1) := by
    simp [Builder.bitmap, range_succ]
  have hblock : (layout n hn).bblock 0 = bmapstart := rfl
  unfold Fs.balloc
  rw [findFree_marked (by omega), if_pos hlt]
  simp only [hblock, Nat.zero_add, Except.ok.injEq, Prod.mk.injEq, true_and]
  have hself : marked disk used bmapstart = Builder.bitmap used := update_self _ _ _
  rw [hself, hmap, bzero, marked, update_idem, update_comm hne.symm]
  rw [← hzero, update_eq_self]
  rfl

theorem balloc_marked_full : Fs.balloc (layout n hn) (marked disk FSSIZE) =
    .error "balloc: out of blocks" := by
  unfold Fs.balloc
  rw [findFree_marked (Nat.le_refl _), if_neg (Nat.lt_irrefl _)]

end

/-- What `mkfs` keeps true of the image while it works. -/
structure Clear (m : Builder) : Prop where
  lo : nmeta ≤ m.freeblock
  hi : m.freeblock ≤ FSSIZE
  zero : ∀ b, m.freeblock ≤ b → m.disk b = 0

/-- The image as the kernel would see it, were `mkfs` to stop here. -/
def Builder.seen (m : Builder) : Disk := marked m.disk m.freeblock

/-- `freeblock++` -/
def Builder.bump (m : Builder) : Builder := { m with freeblock := m.freeblock + 1 }

theorem Clear.bump {m : Builder} (h : Clear m) (hlt : m.freeblock < FSSIZE) : Clear m.bump where
  lo := Nat.le_succ_of_le h.lo
  hi := hlt
  zero := fun b hb => h.zero b (Nat.le_of_succ_le hb)

variable {sec : Nat}

theorem Clear.wsect {m : Builder} (h : Clear m) (hlt : Builder.seek sec < m.freeblock)
    (buf : Block) : Clear (m.wsect sec buf) where
  lo := h.lo
  hi := h.hi
  zero := by
    intro b hb
    have hne : b ≠ Builder.seek sec := by
      rintro rfl
      exact absurd hlt (Nat.not_lt.mpr hb)
    rw [Builder.wsect]
    exact (update_of_ne hne _ _).trans (h.zero b hb)

theorem seek_of_le (h : sec ≤ FSSIZE) : Builder.seek sec = sec := by
  have hsec : sec ≤ 1000 := h
  change sec * 512 % 4294967296 / 512 = sec
  omega

theorem rsect_ok (m : Builder) (h : sec < FSSIZE) : m.rsect sec = .ok (m.disk sec) := by
  rw [Builder.rsect, seek_of_le (Nat.le_of_lt h), if_pos h]

theorem rsect_full (m : Builder) : m.rsect FSSIZE = .error "read" := by
  rw [Builder.rsect, seek_of_le (Nat.le_refl _), if_neg (Nat.lt_irrefl _)]

section Simulation

variable {n : Nat} {hn : n ≤ IPB * ninodeblocks} {m : Builder} {d : Dinode}

theorem alloc_sim (n : Nat) (hn : n ≤ IPB * ninodeblocks) (hclear : Clear m) :
    (m.freeblock < FSSIZE ∧
      Fs.balloc (layout n hn) m.seen = .ok (m.freeblock, m.bump.seen) ∧ Clear m.bump) ∨
    (m.freeblock = FSSIZE ∧ ∃ e, Fs.balloc (layout n hn) m.seen = .error e) := by
  rcases Nat.lt_or_ge m.freeblock FSSIZE with hlt | hge
  · exact Or.inl ⟨hlt, balloc_marked hlt hclear.lo (hclear.zero _ (Nat.le_refl _)), hclear.bump hlt⟩
  · have hfull : m.freeblock = FSSIZE := Nat.le_antisymm hclear.hi hge
    refine Or.inr ⟨hfull, "balloc: out of blocks", ?_⟩
    rw [Builder.seen, hfull]
    exact balloc_marked_full

theorem addrAt_sim (n : Nat) (hn : n ≤ IPB * ninodeblocks) (hclear : Clear m) (d : Dinode)
    (i : Fin (NDIRECT + 1)) :
    (∃ a m' d', Fs.addrAt (layout n hn) m.seen d i = .ok (a, m'.seen, d') ∧
      m.addrAt d i = (a, m', d') ∧ Clear m' ∧ (m' = m ∧ a = (d.addrs i).toNat ∧ d.addrs i ≠ 0 ∨
        m' = m.bump ∧ a = m.freeblock ∧ d.addrs i = 0)) ∨
    ((∃ e, Fs.addrAt (layout n hn) m.seen d i = .error e) ∧
      ∃ m' d', m.addrAt d i = (FSSIZE, m', d')) := by
  unfold Fs.addrAt Builder.addrAt
  by_cases hzero : d.addrs i = 0
  · rw [if_pos hzero, if_pos hzero]
    rcases alloc_sim n hn hclear with ⟨hlt, halloc, hbump⟩ | ⟨hfull, e, halloc⟩
    · left
      rw [halloc]
      exact ⟨_, m.bump, _, rfl, rfl, hbump, Or.inr ⟨rfl, rfl, hzero⟩⟩
    · right
      rw [halloc]
      exact ⟨⟨e, rfl⟩, _, _, by rw [hfull]⟩
  · rw [if_neg hzero, if_neg hzero]
    exact Or.inl ⟨_, m, d, rfl, rfl, hclear, Or.inl ⟨rfl, rfl, hzero⟩⟩

def Within (m : Builder) (d : Dinode) : Prop :=
  ∀ s, slotAt m.seen d s ≠ 0 → nmeta ≤ slotAt m.seen d s ∧ slotAt m.seen d s < m.freeblock

/-- `bmap` and `iappend` find or give the same block, or both fail: the kernel for want of
a block, `mkfs` because it reads past the image. -/
theorem sectorOf_sim (n : Nat) (hn : n ≤ IPB * ninodeblocks) (hclear : Clear m)
    (hwithin : Within m d) (fbn : Nat) :
    (∃ a m' d', bmap (layout n hn) m.seen d fbn = .ok (a, m'.seen, d') ∧
      m.sectorOf d fbn = .ok (a, m', d') ∧ Clear m' ∧ m'.freeinode = m.freeinode) ∨
    ((∃ e, bmap (layout n hn) m.seen d fbn = .error e) ∧ ((∃ e, m.sectorOf d fbn = .error e) ∨
        ∃ m' d', m.sectorOf d fbn = .ok (FSSIZE, m', d'))) := by
  obtain ⟨hsize, hmeta, hbmap, -⟩ := sizes
  unfold bmap Builder.sectorOf
  by_cases hdirect : fbn < NDIRECT
  · rw [dif_pos hdirect, dif_pos hdirect]
    rcases addrAt_sim n hn hclear d ⟨fbn, Nat.lt_succ_of_lt hdirect⟩ with
      ⟨a, m', d', hkernel, hhost, hclear', hcase⟩ | ⟨hkernel, m', d', hhost⟩
    · refine Or.inl ⟨a, m', d', hkernel, by rw [hhost], hclear', ?_⟩
      rcases hcase with ⟨rfl, -, -⟩ | ⟨rfl, -, -⟩ <;> rfl
    · exact Or.inr ⟨hkernel, Or.inr ⟨m', d', by rw [hhost]⟩⟩
  · rw [dif_neg hdirect, dif_neg hdirect]
    have hmax : fbn - NDIRECT < NINDIRECT ↔ fbn < MAXFILE := by
      have hsum : MAXFILE = NDIRECT + NINDIRECT := rfl
      omega
    by_cases hrange : fbn < MAXFILE
    swap
    · rw [if_neg (fun h => hrange (hmax.mp h)), if_neg hrange]
      exact Or.inr ⟨⟨_, rfl⟩, Or.inl ⟨_, rfl⟩⟩
    rw [if_pos (hmax.mpr hrange), if_pos hrange]
    rcases addrAt_sim n hn hclear d (Fin.last NDIRECT) with
      ⟨addr, m1, d1, hkernel, hhost, hclear1, hcase⟩ | ⟨⟨e, hkernel⟩, m1, d1, hhost⟩
    swap
    · right
      rw [hkernel, hhost]
      refine ⟨⟨_, rfl⟩, Or.inl ⟨"read", ?_⟩⟩
      simp only [rsect_full, bind, Except.bind]
    -- the indirect block lies among the data blocks, so both read the same one
    have haddr : nmeta ≤ addr ∧ addr < m1.freeblock := by
      rcases hcase with ⟨rfl, rfl, hne⟩ | ⟨rfl, rfl, -⟩
      · have hlast := hwithin NDIRECT
        rw [slotAt_direct _ _ (Nat.lt_succ_self _)] at hlast
        exact hlast (toNat_ne_zero.mpr hne)
      · exact ⟨hclear.lo, Nat.lt_succ_self _⟩
    have hhi := hclear1.hi
    have hread : m1.rsect addr = .ok (m1.disk addr) := rsect_ok m1 (by omega)
    have hseen : m1.seen addr = m1.disk addr := marked_of_ne _ _ (by omega)
    have hino : m1.freeinode = m.freeinode := by
      rcases hcase with ⟨rfl, -, -⟩ | ⟨rfl, -, -⟩ <;> rfl
    rw [hkernel, hhost]
    simp only [bind, Except.bind, pure, Except.pure, hread, hseen]
    by_cases hword : (m1.disk addr).word (fbn - NDIRECT) = 0
    · rw [if_pos hword, if_pos hword]
      rcases alloc_sim n hn hclear1 with ⟨hlt, halloc, hbump⟩ | ⟨hfull, e, halloc⟩
      · left
        have hseek : Builder.seek addr = addr := seek_of_le (by omega)
        have hold : m1.bump.seen addr = m1.disk addr := marked_of_ne _ _ (by omega)
        refine ⟨m1.freeblock, _, d1, ?_, rfl, hbump.wsect ?_ _, hino⟩
        · simp only [halloc, hold]
          rw [Builder.seen, marked_update _ _ (by omega)]
          simp only [Builder.seen, Builder.wsect, hseek]
          rfl
        · rw [hseek]
          exact Nat.lt_succ_of_lt haddr.2
      · right
        simp only [halloc]
        exact ⟨⟨_, rfl⟩, Or.inr ⟨_, _, by rw [hfull]⟩⟩
    · rw [if_neg hword, if_neg hword]
      exact Or.inl ⟨_, m1, d1, rfl, rfl, hclear1, hino⟩

variable {din : Nat → Dinode} {inum k off : Nat} {src : List Byte}

theorem within_of_pooled (hclear : Clear m) (hpool : Pooled (layout n hn) m.seen din ∅)
    (hd : din inum = d) (hinum : inum < n) (htype : d.type ≠ 0) : Within m d := by
  intro s hne
  have hown : own (layout n hn) m.seen din (inum, s) = slotAt m.seen d s := by
    rw [own_of_allocated hinum (by rw [hd]; exact htype), hd]
  rw [← hown] at hne ⊢
  obtain ⟨hlo, hhi⟩ := hpool.range _ hne
  have htaken := (bitAt_marked hclear.hi hhi).symm.trans (hpool.taken_own hne)
  exact ⟨hlo, of_decide_eq_true htaken⟩

theorem seen_wsect {a : Nat} (hlo : nmeta ≤ a) (hhi : a < FSSIZE) (buf : Block) :
    (m.wsect a buf).seen = update m.seen a buf := by
  obtain ⟨-, hmeta, hbmap, -⟩ := sizes
  rw [Builder.seen, Builder.seen, marked_update _ _ (by omega)]
  simp only [Builder.wsect, seek_of_le (Nat.le_of_lt hhi)]

section Loop

variable (hinum : inum < n)

include hinum

theorem loop_sim (hclear : Clear m) (hpool : Pooled (layout n hn) m.seen din ∅) (hd : din inum = d)
    (htype : d.type ≠ 0) (hholes : NoHoles m.seen d k) (hoff : off ≤ k * BSIZE)
    (hmax : off + src.length ≤ MAXFILE * BSIZE) (rounds : Nat) (hrounds : src.length ≤ rounds) :
    (∃ m' d', writeLoop (layout n hn) rounds m.seen d off src = .ok (m'.seen, d') ∧
      Builder.iappendLoop rounds m d off src = .ok (m', d', off + src.length) ∧ Clear m' ∧
      m'.freeinode = m.freeinode) ∨
    ((∃ e, writeLoop (layout n hn) rounds m.seen d off src = .error e) ∧
      ∃ e, Builder.iappendLoop rounds m d off src = .error e) := by
  induction rounds generalizing m d din k off src with
  | zero =>
    obtain rfl : src = [] := length_eq_zero_iff.mp (by omega)
    exact Or.inl ⟨m, d, rfl, rfl, hclear, rfl⟩
  | succ rounds ih =>
    unfold writeLoop Builder.iappendLoop
    by_cases hnil : src = []
    · rw [if_pos hnil, if_pos hnil, hnil]
      exact Or.inl ⟨m, d, rfl, rfl, hclear, rfl⟩
    rw [if_neg hnil, if_neg hnil]
    have hwithin := within_of_pooled hclear hpool hd hinum htype
    rcases sectorOf_sim n hn hclear hwithin (off / BSIZE) with
      ⟨a, m1, d1, hbmap, hsector, hclear1, hino⟩ | ⟨⟨e, hbmap⟩, hsector⟩
    swap
    · right
      rw [hbmap]
      refine ⟨⟨e, rfl⟩, ?_⟩
      rcases hsector with ⟨e', hsector⟩ | ⟨m', d', hsector⟩
      · refine ⟨e', ?_⟩
        simp only [hsector, bind, Except.bind]
      · refine ⟨"read", ?_⟩
        simp only [hsector, bind, Except.bind, rsect_full]
    have hlen : 0 < src.length := length_pos_iff.mpr hnil
    have hmapped := bmap_spec hpool hd hinum htype hholes
      (by simp only [BSIZE] at hoff ⊢; omega) (by simp only [BSIZE] at hmax ⊢; omega) hbmap
    have htype1 : d1.type ≠ 0 := by
      rw [fields_type hmapped.fields]
      exact htype
    have hwithin1 := within_of_pooled hclear1 hmapped.pooled (update_self _ _ _) hinum
      htype1
    have hrange : nmeta ≤ a ∧ a < m1.freeblock := by
      have hblock : slotAt m1.seen d1 (slotOf (off / BSIZE)) = a := hmapped.block
      have hslot := hwithin1 (slotOf (off / BSIZE))
      rw [hblock] at hslot
      exact hslot hmapped.ne
    have hhi : a < FSSIZE := lt_of_lt_of_le hrange.2 hclear1.hi
    obtain ⟨j, hj⟩ : ∃ j, j = min src.length (BSIZE - off % BSIZE) := ⟨_, rfl⟩
    have hround := write_round hinum hpool hd htype hholes hoff hmax hnil hj hbmap
    have hseen : m1.seen a = m1.disk a := by
      obtain ⟨-, hmeta, hbmapstart, -⟩ := sizes
      exact marked_of_ne _ _ (by omega)
    have hn1 : min src.length ((off / BSIZE + 1) * BSIZE - off) = j := by
      rw [hj]
      simp only [BSIZE]
      omega
    have hpos : off - off / BSIZE * BSIZE = off % BSIZE := by
      simp only [BSIZE]
      omega
    have hread : m1.rsect a = .ok (m1.disk a) := rsect_ok m1 hhi
    simp only [hbmap, hsector, bind, Except.bind, hread, hn1, hpos, ← hj]
    have htake : (src.take j).length = j := by
      rw [length_take]
      omega
    have hstored := seen_wsect (m := m1) hrange.1 hhi
      (putBytes (m1.disk a) (off % BSIZE) (src.take j))
    rw [hseen] at hround ⊢
    rw [← hstored] at hround ⊢
    have hseek : Builder.seek a < m1.freeblock := by
      rw [seek_of_le hhi.le]
      exact hrange.2
    have hclear2 := hclear1.wsect hseek (putBytes (m1.disk a) (off % BSIZE) (src.take j))
    have hoff' : off + j ≤ max k (blocksFor (off + (src.take j).length)) * BSIZE := by
      rw [htake]
      exact le_blocks_written k (off + j)
    have hsum : off + j + (src.drop j).length = off + src.length := by
      rw [length_drop]
      omega
    have hmax' : off + j + (src.drop j).length ≤ MAXFILE * BSIZE := by omega
    have hjpos : 0 < j := by
      have hmod : off % BSIZE < BSIZE := Nat.mod_lt _ (by decide)
      omega
    have hrounds' : (src.drop j).length ≤ rounds := by omega
    have hrest := ih hclear2 hround.pooled (update_self _ _ _) htype1 hround.noHoles
      hoff' hmax' hrounds'
    rw [hsum] at hrest
    rcases hrest with ⟨m', d', hwrite, happend, hclear', hino'⟩ | hfail
    · exact Or.inl ⟨m', d', hwrite, happend, hclear', hino'.trans hino⟩
    · exact Or.inr hfail

end Loop

theorem iblock_bounds (hinum : inum < n) (hn : n ≤ IPB * ninodeblocks) :
    iblock inum < bmapstart ∧ iblock inum < FSSIZE := by
  have hlt : inum < 8 * 26 := lt_of_lt_of_le hinum hn
  change inum / 8 + 32 < 58 ∧ inum / 8 + 32 < 1000
  omega

theorem seen_of_lt (m : Builder) (hb : b < bmapstart) : m.seen b = m.disk b :=
  marked_of_ne _ _ (Nat.ne_of_lt hb)

def Builder.inode (m : Builder) (inum : Nat) : Dinode :=
  getDinode (m.seen (iblock inum)) (inum % IPB)

theorem dinodeAt_seen (hn : n ≤ IPB * ninodeblocks) (m : Builder) (inum : Nat) :
    dinodeAt (layout n hn) m.seen inum = m.inode inum := rfl

theorem rinode_ok (hn : n ≤ IPB * ninodeblocks) (hinum : inum < n) :
    m.rinode inum = .ok (m.inode inum) := by
  obtain ⟨hmap, hsize⟩ := iblock_bounds hinum hn
  rw [Builder.rinode, rsect_ok m hsize, ← seen_of_lt m hmap]
  rfl

theorem winode_ok (hn : n ≤ IPB * ninodeblocks) (hclear : Clear m) (hinum : inum < n) (d : Dinode) :
    ∃ m', m.winode inum d = .ok m' ∧ m'.seen = iupdate (layout n hn) m.seen inum d ∧ Clear m' ∧
      m'.freeinode = m.freeinode ∧ m'.freeblock = m.freeblock := by
  obtain ⟨hmap, hsize⟩ := iblock_bounds hinum hn
  have hseek : Builder.seek (iblock inum) = iblock inum := seek_of_le hsize.le
  have hlt : Builder.seek (iblock inum) < m.freeblock := by
    have hlo := hclear.lo
    obtain ⟨-, hmeta, hbmap, -⟩ := sizes
    omega
  refine ⟨m.wsect (iblock inum) (putDinode (m.disk (iblock inum)) (inum % IPB) d), ?_, ?_,
    hclear.wsect hlt _, rfl, rfl⟩
  · rw [Builder.winode, rsect_ok m hsize]
    rfl
  · rw [Builder.seen, Builder.wsect, hseek, ← marked_update _ _ (Nat.ne_of_lt hmap),
      ← seen_of_lt m hmap]
    rfl

structure Built (n : Nat) (hn : n ≤ IPB * ninodeblocks) (m : Builder) : Prop where
  clear : Clear m
  sound : Sound (layout n hn) m.seen
  superblock : m.seen 1 = superblock

theorem iupdate_one (hn : n ≤ IPB * ninodeblocks) (disk : Disk) (inum : Nat) (d : Dinode) :
    iupdate (layout n hn) disk inum d 1 = disk 1 :=
  update_of_ne (by change 1 ≠ inum / 8 + 32; omega) _ _

/-- The bytes `src` have been appended to inode `inum`. -/
structure Appended (n : Nat) (hn : n ≤ IPB * ninodeblocks) (m m' : Builder) (inum : Nat)
    (src : List Byte) : Prop where
  built : Built n hn m'
  freeinode : m'.freeinode = m.freeinode
  fits : (m.inode inum).size.toNat + src.length ≤ MAXFILE * BSIZE
  stored : Stored (layout n hn) m.seen m'.seen inum (m.inode inum)
    (m'.inode inum) (m.inode inum).size.toNat src
  cost : m'.freeblock = m.freeblock +
    growCost (blocksFor (m.inode inum).size.toNat)
      (blocksFor ((m.inode inum).size.toNat + src.length))

theorem sectorOf_lt {fbn : Nat} {x : Nat × Builder × Dinode} (h : m.sectorOf d fbn = .ok x) :
    fbn < MAXFILE := by
  unfold Builder.sectorOf at h
  have hsum : MAXFILE = NDIRECT + NINDIRECT := rfl
  split_ifs at h with hdirect hrange
  · omega
  · exact hrange

theorem iappendLoop_le {rounds off' : Nat} {m' : Builder} {d' : Dinode}
    (hrounds : src.length ≤ rounds) (hsrc : src ≠ [])
    (h : Builder.iappendLoop rounds m d off src = .ok (m', d', off')) :
    off + src.length ≤ MAXFILE * BSIZE := by
  induction rounds generalizing m d off src with
  | zero => exact absurd (length_eq_zero_iff.mp (by omega)) hsrc
  | succ rounds ih =>
    unfold Builder.iappendLoop at h
    rw [if_neg hsrc] at h
    obtain ⟨⟨x, m1, d1⟩, hsector, h⟩ := bind_eq_ok.mp h
    obtain ⟨buf, -, h⟩ := bind_eq_ok.mp h
    have hfbn := sectorOf_lt hsector
    obtain ⟨j, hj⟩ : ∃ j, j = min src.length ((off / BSIZE + 1) * BSIZE - off) := ⟨_, rfl⟩
    simp only [← hj] at h
    have hlen : 0 < src.length := length_pos_iff.mpr hsrc
    by_cases hrest : src.drop j = []
    · have hdone : (src.drop j).length = 0 := by rw [hrest]; rfl
      rw [length_drop] at hdone
      simp only [BSIZE] at hj hfbn ⊢
      omega
    · have hjpos : 0 < j := by
        simp only [BSIZE] at hj
        omega
      have hle := ih (by rw [length_drop]; omega) hrest h
      rw [length_drop] at hle
      have hjle : j ≤ src.length := hj ▸ Nat.min_le_left _ _
      omega

section Append

variable (hbuilt : Built n hn m) (hinum : inum < n)
  (htype : (m.inode inum).type ≠ 0)

include hbuilt hinum htype

theorem append_sim (hmax : (m.inode inum).size.toNat + src.length ≤ MAXFILE * BSIZE) :
    (∃ m' d', writeLoop (layout n hn) src.length m.seen (m.inode inum)
        (m.inode inum).size.toNat src = .ok (m'.seen, d') ∧
      Builder.iappendLoop src.length m (m.inode inum)
        (m.inode inum).size.toNat src = .ok (m', d', (m.inode inum).size.toNat + src.length) ∧
      Clear m' ∧ m'.freeinode = m.freeinode) ∨
    ((∃ e, writeLoop (layout n hn) src.length m.seen (m.inode inum)
        (m.inode inum).size.toNat src = .error e) ∧
      ∃ e, Builder.iappendLoop src.length m (m.inode inum)
        (m.inode inum).size.toNat src = .error e) :=
  loop_sim hinum hbuilt.clear hbuilt.sound.pooled rfl htype
    (hbuilt.sound.noHoles inum hinum htype) (blocksFor_le.mp (Nat.le_refl _)) hmax _
    (Nat.le_refl _)

theorem iappend_appended (hfile : (m.inode inum).type ≠ T_DEV) (hsrc : src ≠ []) {m' : Builder}
    (h : m.iappend inum src = .ok m') : Appended n hn m m' inum src := by
  have hlen : 0 < src.length := length_pos_iff.mpr hsrc
  unfold Builder.iappend at h
  obtain ⟨d, hd, h⟩ := bind_eq_ok.mp h
  rw [rinode_ok hn hinum, Except.ok.injEq] at hd
  obtain ⟨⟨m1, d1, off1⟩, hloop, h⟩ := bind_eq_ok.mp h
  rw [← hd] at hloop
  have hmax := iappendLoop_le (Nat.le_refl _) hsrc hloop
  rcases append_sim hbuilt hinum htype hmax with
    ⟨m2, d2, hwrite, happend, hclear, hino⟩ | ⟨-, e, happend⟩
  swap
  · rw [happend] at hloop
    cases hloop
  rw [happend] at hloop
  cases hloop
  have hholes : NoHoles m.seen (m.inode inum) (blocksFor (m.inode inum).size.toNat) :=
    hbuilt.sound.noHoles inum hinum htype
  have hwritten := writeLoop_spec hinum hbuilt.sound.pooled (dinodeAt_seen hn m inum) htype hholes
    (blocksFor_le.mp (Nat.le_refl _)) hmax _ (Nat.le_refl _) hwrite
  rw [hd] at hmax hfile hwrite hwritten htype
  have hbound : MAXFILE * BSIZE < 2 ^ 32 := by decide
  have hacc : ¬ Refused d d.size src.length := by
    unfold Refused
    omega
  have hgrow : d1.size.toNat < d.size.toNat + src.length ∧ src ≠ [] := by
    obtain ⟨addrs, rfl⟩ := hwritten.fields
    exact ⟨by change d.size.toNat < _; omega, hsrc⟩
  obtain ⟨m3, hwinode, hseen, hclear3, hino3, hfb⟩ := winode_ok hn hclear hinum
    { d1 with size := BitVec.ofNat 32 (d.size.toNat + src.length) }
  simp only [hd, hwinode, Except.ok.injEq] at h
  subst h
  have hsize : BitVec.ofNat 32 (d.size.toNat + src.length) =
      d.size + BitVec.ofNat 32 src.length := by
    rw [BitVec.ofNat_add, BitVec.ofNat_toNat, BitVec.setWidth_eq]
  have hwritei : writei (layout n hn) noDevs m.seen inum d d.size src =
      .ok ((src.length : Int), m3.seen,
        { d1 with size := d.size + BitVec.ofNat 32 src.length }) := by
    rw [writei_accepted hfile (by omega) hacc, hwrite]
    simp only [Except.bind, if_pos hgrow]
    rw [hseen, hsize]
  obtain ⟨-, hstored⟩ := writei_stores hfile (by omega) hbuilt.sound hinum hd htype hacc hwritei
  have hcard := hwritten.card
  have hle : blocksFor d.size.toNat ≤ blocksFor (d.size.toNat + src.length) := by
    rw [blocksFor_le]
    have hlast := blocksFor_le.mp (Nat.le_refl (blocksFor (d.size.toNat + src.length)))
    omega
  rw [Nat.max_eq_right hle] at hcard
  have hdinode : m3.inode inum = _ := hstored.dinode
  have hsuper : m3.seen 1 = superblock := by
    rw [hseen, iupdate_one, hwritten.frame.inodes 1 (by change 1 < 58; omega)]
    exact hbuilt.superblock
  refine ⟨⟨hclear3, hstored.sound, hsuper⟩, hino3.trans hino, ?_, ?_, ?_⟩
  · rw [hd]
    exact hmax
  · rw [hd, hdinode]
    exact hstored
  · rw [hd, hfb]
    have hcard1 : (freeBlocks (layout n hn) m1.seen).card = FSSIZE - m1.freeblock :=
      freeBlocks_marked hclear.hi
    have hcard0 : (freeBlocks (layout n hn) m.seen).card = FSSIZE - m.freeblock :=
      freeBlocks_marked hbuilt.clear.hi
    have hhi := hclear.hi
    have hhi0 := hbuilt.clear.hi
    omega

theorem iappend_isOk (hsrc : src ≠ [])
    (hmax : (m.inode inum).size.toNat + src.length ≤ MAXFILE * BSIZE)
    (hcost : m.freeblock + growCost (blocksFor (m.inode inum).size.toNat)
      (blocksFor ((m.inode inum).size.toNat + src.length)) ≤ FSSIZE) :
    ∃ m', m.iappend inum src = .ok m' := by
  have hlen : 0 < src.length := length_pos_iff.mpr hsrc
  have hholes : NoHoles m.seen (m.inode inum) (blocksFor (m.inode inum).size.toNat) :=
    hbuilt.sound.noHoles inum hinum htype
  have hcard : (freeBlocks (layout n hn) m.seen).card = FSSIZE - m.freeblock :=
    freeBlocks_marked hbuilt.clear.hi
  have hle : blocksFor (m.inode inum).size.toNat ≤
      blocksFor ((m.inode inum).size.toNat + src.length) := by
    rw [blocksFor_le]
    have hlast := blocksFor_le.mp (Nat.le_refl (blocksFor ((m.inode inum).size.toNat + src.length)))
    omega
  obtain ⟨disk1, d1, hwrite⟩ := writeLoop_isOk hinum hbuilt.sound.pooled
    (dinodeAt_seen hn m inum) htype hholes (blocksFor_le.mp (Nat.le_refl _)) hmax src.length
    (by rw [Nat.max_eq_right hle, hcard]; omega)
  rcases append_sim hbuilt hinum htype hmax with
    ⟨m2, d2, -, happend, hclear, -⟩ | ⟨⟨e, hfail⟩, -⟩
  · obtain ⟨m3, hwinode, -⟩ := winode_ok hn hclear hinum
      { d2 with size := BitVec.ofNat 32 ((m.inode inum).size.toNat + src.length) }
    refine ⟨m3, ?_⟩
    simp only [Builder.iappend, rinode_ok hn hinum, bind, Except.bind, happend, hwinode]
  · rw [hwrite] at hfail
    cases hfail

end Append

end Simulation

end Xv6.Mkfs
