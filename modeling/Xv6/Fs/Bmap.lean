import Xv6.Fs.Ownership

/-!
# Allocating blocks for an inode

`bmap` gives an inode its next block.  One allocation fills one empty slot of the
inode with a zeroed block and leaves every other inode, and the data blocks the
inode already has, alone; `bmap` makes none, one or two of them.
-/

namespace Xv6.Fs

open Lib Function Finset

variable {sb : Superblock} {disk disk' disk'' : Disk} {din : Nat → Dinode} {inum : Nat}
  {d d' d'' : Dinode} {a s k bn : Nat}

def freeBlocks (sb : Superblock) (disk : Disk) : Finset Nat :=
  (range sb.size).filter fun b => bitAt sb disk b = false

theorem Allocated.card (h : Allocated sb disk disk' a) :
    (freeBlocks sb disk').card + 1 = (freeBlocks sb disk).card := by
  have hmem : a ∈ freeBlocks sb disk := by
    simp [freeBlocks, h.lt, h.free]
  have herase : freeBlocks sb disk' = (freeBlocks sb disk).erase a := by
    ext b
    simp only [freeBlocks, mem_filter, mem_range, mem_erase]
    by_cases hb : b < sb.size
    · rw [h.bits b hb]
      by_cases hba : b = a
      · simp [hba]
      · simp [hba]
    · simp [hb]
  rw [herase]
  exact card_erase_add_one hmem

theorem balloc_isOk_of_card (h : 0 < (freeBlocks sb disk).card) : ∃ r, balloc sb disk = .ok r := by
  obtain ⟨a, ha⟩ := card_pos.mp h
  simp only [freeBlocks, mem_filter, mem_range] at ha
  exact balloc_isOk ha.1 ha.2

/-- Work on inode `inum` that leaves the inode blocks and the blocks of the other
inodes alone. -/
structure Frame (sb : Superblock) (disk disk' : Disk) (din : Nat → Dinode) (inum : Nat) :
    Prop where
  inodes : ∀ b, b < sb.bmapstart → disk' b = disk b
  others : ∀ i s, i ≠ inum → own sb disk' din (i, s) = own sb disk din (i, s) ∧
    (own sb disk din (i, s) ≠ 0 →
      disk' (own sb disk din (i, s)) = disk (own sb disk din (i, s)))

theorem Frame.refl (sb : Superblock) (disk : Disk) (din : Nat → Dinode) (inum : Nat) :
    Frame sb disk disk din inum :=
  ⟨fun _ _ => rfl, fun _ _ _ => ⟨rfl, fun _ => rfl⟩⟩

theorem own_other {i : Nat} (hi : i ≠ inum) (d : Dinode) (s : Nat) :
    own sb disk (update din inum d) (i, s) = own sb disk din (i, s) := by
  unfold own
  simp [hi]

theorem Frame.trans (h1 : Frame sb disk disk' din inum)
    (h2 : Frame sb disk' disk'' (update din inum d) inum) : Frame sb disk disk'' din inum := by
  refine ⟨fun b hb => (h2.inodes b hb).trans (h1.inodes b hb), ?_⟩
  intro i s hi
  have hsame := h1.others i s hi
  have hthen := h2.others i s hi
  simp only [own_other hi] at hthen
  refine ⟨hthen.1.trans hsame.1, ?_⟩
  intro hne
  rw [hsame.1] at hthen
  exact (hthen.2 hne).trans (hsame.2 hne)

/-- Slot `s` of the inode was empty and now holds the new block `a`. -/
structure SlotSet (sb : Superblock) (disk disk' : Disk) (din : Nat → Dinode) (inum : Nat)
    (d d' : Dinode) (s a : Nat) : Prop where
  pooled : Pooled sb disk' (update din inum d') ∅
  frame : Frame sb disk disk' din inum
  fields : ∃ addrs, d' = { d with addrs := addrs }
  slots : ∀ t, slotAt disk' d' t = if t = s then a else slotAt disk d t
  data : ∀ t, t ≠ NDIRECT → slotAt disk d t ≠ 0 →
    disk' (slotAt disk d t) = disk (slotAt disk d t)
  zero : disk' a = 0
  ne : a ≠ 0
  card : (freeBlocks sb disk').card + 1 = (freeBlocks sb disk).card

theorem toNat_ofNat_lt (ha : a < sb.size) : (BitVec.ofNat 32 a).toNat = a := by
  have hsize := sb.size_lt
  rw [BitVec.toNat_ofNat]
  exact Nat.mod_eq_of_lt (by omega)

section Slots

variable (hpool : Pooled sb disk din ∅) (hd : din inum = d) (hinum : inum < sb.ninodes)
  (htype : d.type ≠ 0) (hslot : slotAt disk d s = 0)

include hpool hd hinum htype

theorem slotAt_same (ha : Allocated sb disk disk' a) (t : Nat) (ht : slotAt disk d t ≠ 0) :
    disk' (slotAt disk d t) = disk (slotAt disk d t) := by
  subst hd
  rw [← own_of_allocated hinum htype] at ht ⊢
  exact ha.same _ (hpool.own_ne ha.free _ ht) (Or.inr (hpool.range _ ht).1)

omit hd hinum htype in
theorem frame_of_allocated (ha : Allocated sb disk disk' a) : Frame sb disk disk' din inum := by
  have hlo := ha.lo
  refine ⟨?_, ?_⟩
  · intro b hb
    refine ha.same b ?_ (Or.inl hb)
    have hmap : sb.bmapstart + a / 4096 < sb.nmeta := sb.bmap_lt a ha.lt
    omega
  · intro i t _
    rw [(hpool.alloc ha).1]
    exact ⟨rfl, fun hne => ha.same _ (hpool.own_ne ha.free _ hne) (Or.inr (hpool.range _ hne).1)⟩

include hslot

theorem slotSet_addr (ha : Allocated sb disk disk' a) {i : Fin (NDIRECT + 1)} (hi : s = i) :
    SlotSet sb disk disk' din inum d (d.setAddr i (BitVec.ofNat 32 a)) s a := by
  have hnum := toNat_ofNat_lt ha.lt
  have hne : a ≠ 0 := by
    have hpos := hpool.lo_pos
    have hlo := ha.lo
    omega
  have hsame := slotAt_same hpool hd hinum htype ha
  have hind : ∀ t, slotAt disk' d t = slotAt disk d t := by
    intro t
    apply slotAt_congr
    intro hlast
    have hslot12 := slotAt_direct disk d (Nat.lt_succ_self NDIRECT)
    have h := hsame NDIRECT (by rw [hslot12]; exact toNat_ne_zero.mpr hlast)
    rwa [hslot12] at h
  have hslots : ∀ t, slotAt disk' (d.setAddr i (BitVec.ofNat 32 a)) t =
      if t = s then a else slotAt disk d t := by
    intro t
    by_cases hlast : i = Fin.last NDIRECT
    · subst hlast
      have hnone : d.addrs (Fin.last NDIRECT) = 0 := by
        rw [hi, slotAt_direct _ _ (Fin.last NDIRECT).isLt] at hslot
        by_contra hcon
        exact toNat_ne_zero.mpr hcon hslot
      have hval : BitVec.ofNat 32 a ≠ 0 := toNat_ne_zero.mp (by rw [hnum]; exact hne)
      rw [slotAt_setIndirect hnone hval (by rw [hnum]; exact ha.zero), hnum, hind, hi]
      rfl
    · rw [slotAt_setAddr hlast, hnum, hind, hi]
  refine ⟨?_, frame_of_allocated hpool ha, ⟨_, rfl⟩, hslots, ?_, ha.zero, hne, ha.card⟩
  · obtain ⟨hown, halloc⟩ := hpool.alloc ha
    have htype' : (din inum).type ≠ 0 := by rw [hd]; exact htype
    have hempty : own sb disk' din (inum, s) = 0 := by
      rw [hown, own_of_allocated hinum htype', hd, hslot]
    have hattach := Pool.attach halloc (mem_insert_self a ∅) hempty
    unfold Pooled
    have hown' : own sb disk' (update din inum (d.setAddr i (BitVec.ofNat 32 a))) =
        update (own sb disk' din) (inum, s) a := by
      apply own_update hinum htype' (by simpa [Dinode.setAddr] using htype)
      intro t
      rw [hslots, hd, hind]
    rw [hown']
    simpa using hattach
  · exact fun t _ ht => hsame t ht

theorem slotSet_entry (ha : Allocated sb disk disk' a) {j addr : Nat} (hj : j < NINDIRECT)
    (hs : s = NDIRECT + 1 + j) (haddr : (d.addrs (Fin.last NDIRECT)).toNat = addr) (hne : addr ≠ 0)
    (hentry : disk'' addr = (disk' addr).setWord j (BitVec.ofNat 32 a))
    (hrest : ∀ b, b ≠ addr → disk'' b = disk' b) : SlotSet sb disk disk'' din inum d d s a := by
  have hnum := toNat_ofNat_lt ha.lt
  have hsame := slotAt_same hpool hd hinum htype ha
  have htype' : (din inum).type ≠ 0 := by rw [hd]; exact htype
  have hlast : slotAt disk d NDIRECT = addr := by
    rw [slotAt_direct disk d (Nat.lt_succ_self NDIRECT), ← haddr]
    rfl
  have hown12 : own sb disk din (inum, NDIRECT) = addr := by
    rw [own_of_allocated hinum htype', hd, hlast]
  have hrange : sb.nmeta ≤ addr ∧ addr < sb.size := by
    have h := hpool.range (inum, NDIRECT) (by rw [hown12]; exact hne)
    rwa [hown12] at h
  -- the indirect block belongs to this inode, so it is nobody else's
  have hothers : ∀ k, k ≠ (inum, NDIRECT) → own sb disk din k ≠ 0 → own sb disk din k ≠ addr := by
    intro k hk hne' heq
    exact hk (hpool.inj _ _ hne' (heq.trans hown12.symm))
  have haddr_ne : a ≠ addr := by
    rw [← hown12]
    exact (hpool.own_ne ha.free _ (by rw [hown12]; exact hne)).symm
  have hind : ∀ t, slotAt disk' d t = slotAt disk d t := by
    intro t
    apply slotAt_congr
    intro _
    have h := hsame NDIRECT (by rw [hlast]; exact hne)
    rwa [hlast, ← haddr] at h
  have hslots : ∀ t, slotAt disk'' d t = if t = s then a else slotAt disk d t := by
    intro t
    rw [slotAt_setWord haddr hne hj hentry, hnum, hind, hs]
  have hbits : ∀ b, b < sb.size → bitAt sb disk'' b = bitAt sb disk' b := by
    intro b hb
    apply bitAt_congr _ hb
    intro c _ hc
    apply hrest
    omega
  obtain ⟨hown, halloc⟩ := hpool.alloc ha
  have hotherslots : ∀ i t, i ≠ inum → own sb disk'' din (i, t) = own sb disk' din (i, t) := by
    intro i t hi
    apply own_congr_at
    rw [hown]
    intro hne'
    exact hrest _ (hothers (i, NDIRECT) (by simp [hi]) hne')
  have hframe : Frame sb disk disk' din inum := frame_of_allocated hpool ha
  refine ⟨?_, ⟨?_, ?_⟩, ⟨d.addrs, rfl⟩, hslots, ?_, ?_, ?_, ?_⟩
  · have hempty : own sb disk' din (inum, s) = 0 := by
      rw [hown, own_of_allocated hinum htype', hd, hslot]
    have hattach := Pool.attach halloc (mem_insert_self a ∅) hempty
    have hown' : own sb disk'' (update din inum d) = update (own sb disk' din) (inum, s) a := by
      rw [← hd, update_eq_self]
      funext ⟨i, t⟩
      by_cases hi : i = inum
      · subst hi
        rw [own_of_allocated hinum htype', hd, hslots]
        by_cases ht : t = s
        · subst ht
          simp
        · rw [if_neg ht, update_of_ne (by simpa using ht), hown, own_of_allocated hinum htype', hd]
      · rw [hotherslots i t hi, update_of_ne (by simp [hi])]
    unfold Pooled
    rw [hown']
    have hfinal := hattach.congr sb.nmeta_le hbits
    simpa using hfinal
  · intro b hb
    have hmap : sb.bmapstart + a / 4096 < sb.nmeta := sb.bmap_lt a ha.lt
    rw [hrest b (by omega)]
    exact hframe.inodes b hb
  · intro i t hi
    refine ⟨(hotherslots i t hi).trans (hframe.others i t hi).1, ?_⟩
    intro hne'
    rw [hrest _ (hothers (i, t) (by simp [hi]) hne')]
    exact (hframe.others i t hi).2 hne'
  · intro t ht hne'
    have howned : own sb disk din (inum, t) = slotAt disk d t := by
      rw [own_of_allocated hinum htype', hd]
    rw [hrest _ (by
      rw [← howned] at hne' ⊢
      exact hothers (inum, t) (by simp [ht]) hne')]
    exact hsame t hne'
  · rw [hrest a haddr_ne]
    exact ha.zero
  · have hlo := ha.lo
    have hpos := hpool.lo_pos
    omega
  · rw [← ha.card]
    congr 2
    unfold freeBlocks
    apply filter_congr
    intro b hb
    rw [hbits b (mem_range.mp hb)]

end Slots

/-- The free blocks `bmap` needs for block `bn` of an inode with `k` blocks. -/
def bmapCost (k bn : Nat) : Nat := if bn < k then 0 else if bn = NDIRECT then 2 else 1

/-- What `bmap` does for block `bn` of an inode with `k` blocks. -/
structure Mapped (sb : Superblock) (disk disk' : Disk) (din : Nat → Dinode) (inum : Nat)
    (d d' : Dinode) (k bn a : Nat) : Prop where
  pooled : Pooled sb disk' (update din inum d') ∅
  frame : Frame sb disk disk' din inum
  fields : ∃ addrs, d' = { d with addrs := addrs }
  same : bn < k → d' = d
  block : blockOf disk' d' bn = a
  ne : a ≠ 0
  noHoles : NoHoles disk' d' (max k (bn + 1))
  old : ∀ bn', bn' < k → blockOf disk' d' bn' = blockOf disk d bn' ∧
    disk' (blockOf disk d bn') = disk (blockOf disk d bn')
  fresh : bn = k → disk' a = 0
  card : (freeBlocks sb disk').card + bmapCost k bn = (freeBlocks sb disk).card

theorem slotOf_ne (bn : Nat) : slotOf bn ≠ NDIRECT := by
  unfold slotOf
  split_ifs <;> omega

theorem slotOf_inj {m n : Nat} : slotOf m = slotOf n ↔ m = n := by
  unfold slotOf
  split_ifs <;> omega

theorem SlotSet.mapped (h : SlotSet sb disk disk' din inum d d' (slotOf k) a)
    (hk : k < MAXFILE) (hholes : NoHoles disk d k) (hindirect : NDIRECT ≤ k → NDIRECT < k) :
    Mapped sb disk disk' din inum d d' k k a := by
  have hblock : ∀ bn, blockOf disk' d' bn = if bn = k then a else blockOf disk d bn := by
    intro bn
    unfold blockOf
    rw [h.slots]
    simp only [slotOf_inj]
  refine ⟨h.pooled, h.frame, h.fields, by omega, ?_, h.ne, ?_, ?_, fun _ => h.zero, ?_⟩
  · rw [hblock, if_pos rfl]
  · refine ⟨by omega, ?_, ?_⟩
    · intro bn hbn
      rw [hblock]
      by_cases hbk : bn = k
      · rw [if_pos hbk]
        exact iff_of_true h.ne (by omega)
      · rw [if_neg hbk, hholes.blocks bn hbn]
        omega
    · have hlast := h.slots NDIRECT
      rw [if_neg (slotOf_ne k).symm, slotAt_direct _ _ (Nat.lt_succ_self NDIRECT),
        slotAt_direct _ _ (Nat.lt_succ_self NDIRECT)] at hlast
      have heq : d'.addrs (Fin.last NDIRECT) = d.addrs (Fin.last NDIRECT) :=
        BitVec.eq_of_toNat_eq hlast
      rw [heq, hholes.indirect]
      omega
  · intro bn' hbn'
    rw [hblock, if_neg (by omega)]
    refine ⟨rfl, ?_⟩
    have hle := hholes.le
    exact h.data _ (slotOf_ne bn') ((hholes.blocks bn' (by omega)).mpr hbn')
  · rw [← h.card]
    unfold bmapCost
    rw [if_neg (Nat.lt_irrefl k), if_neg (by omega)]

theorem mapped_refl (hpool : Pooled sb disk din ∅) (hd : din inum = d) (hholes : NoHoles disk d k)
    (hbn : bn < k) (ha : blockOf disk d bn = a) : Mapped sb disk disk din inum d d k bn a := by
  have hle := hholes.le
  refine ⟨?_, Frame.refl _ _ _ _, ⟨_, rfl⟩, fun _ => rfl, ha, ?_, ?_, fun _ _ => ⟨rfl, rfl⟩,
    by omega, ?_⟩
  · rwa [← hd, update_eq_self]
  · rw [← ha]
    exact (hholes.blocks bn (by omega)).mpr hbn
  · rwa [Nat.max_eq_left hbn]
  · simp [bmapCost, hbn]

theorem mapped_indirect {d1 : Dinode} {a1 : Nat} {disk1 : Disk}
    (h1 : SlotSet sb disk disk1 din inum d d1 NDIRECT a1)
    (h2 : SlotSet sb disk1 disk' (update din inum d1) inum d1 d' (slotOf NDIRECT) a)
    (hholes : NoHoles disk d NDIRECT) : Mapped sb disk disk' din inum d d' NDIRECT NDIRECT a := by
  have hslots : ∀ t, slotAt disk' d' t =
      if t = slotOf NDIRECT then a else if t = NDIRECT then a1 else slotAt disk d t := by
    intro t
    rw [h2.slots, h1.slots]
  have hblock : ∀ bn, blockOf disk' d' bn = if bn = NDIRECT then a else blockOf disk d bn := by
    intro bn
    unfold blockOf
    rw [hslots, if_neg (slotOf_ne bn)]
    simp only [slotOf_inj]
  have hold : ∀ bn', bn' < NDIRECT → blockOf disk d bn' ≠ 0 := fun bn' hbn' =>
    (hholes.blocks bn' (Nat.lt_trans hbn' (by decide))).mpr hbn'
  refine ⟨?_, h1.frame.trans h2.frame, ?_, by omega, ?_, h2.ne, ?_, ?_, fun _ => h2.zero, ?_⟩
  · have hpool := h2.pooled
    rwa [update_idem] at hpool
  · obtain ⟨addrs1, rfl⟩ := h1.fields
    obtain ⟨addrs2, rfl⟩ := h2.fields
    exact ⟨addrs2, rfl⟩
  · rw [hblock, if_pos rfl]
  · refine ⟨by decide, ?_, ?_⟩
    · intro bn hbn
      rw [hblock]
      by_cases hbk : bn = NDIRECT
      · rw [if_pos hbk]
        exact iff_of_true h2.ne (by omega)
      · rw [if_neg hbk, hholes.blocks bn hbn]
        omega
    · have hlast := hslots NDIRECT
      rw [if_neg (slotOf_ne NDIRECT).symm, if_pos rfl,
        slotAt_direct _ _ (Nat.lt_succ_self NDIRECT)] at hlast
      refine iff_of_true ?_ (by decide)
      apply toNat_ne_zero.mp
      exact fun hzero => h1.ne (hlast.symm.trans hzero)
  · intro bn' hbn'
    rw [hblock, if_neg (by omega)]
    refine ⟨rfl, ?_⟩
    have hfirst := h1.data _ (slotOf_ne bn') (hold bn' hbn')
    have hkept : slotAt disk1 d1 (slotOf bn') = slotAt disk d (slotOf bn') := by
      rw [h1.slots, if_neg (slotOf_ne bn')]
    have hsecond := h2.data (slotOf bn') (slotOf_ne bn') (by rw [hkept]; exact hold bn' hbn')
    rw [hkept] at hsecond
    exact hsecond.trans hfirst
  · have hcard1 := h1.card
    have hcard2 := h2.card
    have hcost : bmapCost NDIRECT NDIRECT = 2 := by decide
    omega

theorem bmap_spec (hpool : Pooled sb disk din ∅) (hd : din inum = d) (hinum : inum < sb.ninodes)
    (htype : d.type ≠ 0) (hholes : NoHoles disk d k) (hbn : bn ≤ k) (hmax : bn < MAXFILE)
    (h : bmap sb disk d bn = .ok (a, disk', d')) : Mapped sb disk disk' din inum d d' k bn a := by
  have hblocks := hholes.blocks bn hmax
  unfold bmap at h
  split_ifs at h with hdirect hrange
  · -- a direct block
    have hslot : slotOf bn = bn := if_pos hdirect
    have hval : blockOf disk d bn = (d.addrs ⟨bn, Nat.lt_succ_of_lt hdirect⟩).toNat := by
      unfold blockOf
      rw [hslot, slotAt_direct _ _ (Nat.lt_succ_of_lt hdirect)]
    unfold addrAt at h
    split_ifs at h with hzero
    · obtain ⟨⟨b, disk1⟩, hballoc, heq⟩ := bind_eq_ok.mp h
      cases heq
      have halloc := balloc_spec hpool.reserved hballoc
      have hempty : blockOf disk d bn = 0 := by rw [hval, hzero]; rfl
      have hbk : bn = k := by
        have hnlt : ¬ bn < k := fun hlt => hblocks.mpr hlt hempty
        omega
      subst hbk
      apply SlotSet.mapped _ hmax hholes (by omega)
      exact slotSet_addr hpool hd hinum htype hempty halloc hslot
    · cases h
      have hne : blockOf disk d bn ≠ 0 := by rw [hval]; exact toNat_ne_zero.mpr hzero
      exact mapped_refl hpool hd hholes (hblocks.mp hne) hval
  · -- a block listed in the indirect block
    have hslot : slotOf bn = NDIRECT + 1 + (bn - NDIRECT) := by
      unfold slotOf
      rw [if_neg hdirect]
      omega
    obtain ⟨⟨addr, disk1, d1⟩, haddr, h⟩ := bind_eq_ok.mp h
    simp only at h
    unfold addrAt at haddr
    split_ifs at haddr with hlast
    · obtain ⟨⟨b, disk2⟩, hballoc, heq⟩ := bind_eq_ok.mp haddr
      cases heq
      have halloc := balloc_spec hpool.reserved hballoc
      have hk : k = NDIRECT := by
        have hnlt : ¬ NDIRECT < k := fun hlt => hholes.indirect.mpr hlt hlast
        omega
      obtain rfl : bn = NDIRECT := by omega
      subst hk
      have hnone : slotAt disk d NDIRECT = 0 := by
        rw [slotAt_direct disk d (Nat.lt_succ_self NDIRECT)]
        exact congrArg BitVec.toNat hlast
      have hfirst := slotSet_addr hpool hd hinum htype hnone halloc (i := Fin.last NDIRECT) rfl
      have hnum := toNat_ofNat_lt halloc.lt
      have hempty : (disk1 addr).word (NDIRECT - NDIRECT) = 0 := by
        rw [hfirst.zero]
        simp [Block.word]
      rw [if_pos hempty] at h
      obtain ⟨⟨b, disk3⟩, hballoc2, heq⟩ := bind_eq_ok.mp h
      have halloc2 := balloc_spec hfirst.pooled.reserved hballoc2
      cases heq
      refine mapped_indirect hfirst ?_ hholes
      have hslot13 : slotAt disk1 (d.setAddr (Fin.last NDIRECT) (BitVec.ofNat 32 addr))
          (slotOf NDIRECT) = 0 := by
        rw [hfirst.slots, if_neg (slotOf_ne NDIRECT)]
        by_contra hcon
        exact absurd (hblocks.mp hcon) (Nat.lt_irrefl _)
      have hlast' : ((d.setAddr (Fin.last NDIRECT) (BitVec.ofNat 32 addr)).addrs
          (Fin.last NDIRECT)).toNat = addr := by
        simp only [Dinode.setAddr, update_self]
        exact hnum
      refine slotSet_entry hfirst.pooled (update_self _ _ _) hinum htype hslot13 halloc2
        hrange hslot hlast' hfirst.ne ?_ ?_
      · exact update_self _ _ _
      · exact fun b hb => update_of_ne hb _ _
    · cases haddr
      have hlt : NDIRECT < k := hholes.indirect.mp hlast
      have hne := toNat_ne_zero.mpr hlast
      have hval : blockOf disk d bn =
          ((disk (d.addrs (Fin.last NDIRECT)).toNat).word (bn - NDIRECT)).toNat := by
        unfold blockOf
        rw [hslot, slotAt_indirect _ hrange hlast]
      split_ifs at h with hzero
      · obtain ⟨⟨b, disk2⟩, hballoc, heq⟩ := bind_eq_ok.mp h
        have halloc := balloc_spec hpool.reserved hballoc
        have hempty : blockOf disk d bn = 0 := by rw [hval, hzero]; rfl
        have hbk : bn = k := by
          have hnlt : ¬ bn < k := fun hlt => hblocks.mpr hlt hempty
          omega
        subst hbk
        cases heq
        apply SlotSet.mapped _ hmax hholes (fun _ => hlt)
        refine slotSet_entry hpool hd hinum htype hempty halloc hrange hslot rfl hne ?_ ?_
        · exact update_self _ _ _
        · exact fun b hb => update_of_ne hb _ _
      · cases h
        have hne' : blockOf disk d bn ≠ 0 := by rw [hval]; exact toNat_ne_zero.mpr hzero
        exact mapped_refl hpool hd hholes (hblocks.mp hne') hval

theorem blockOf_cases (hne : blockOf disk d bn ≠ 0) :
    (∃ h : bn < NDIRECT, d.addrs ⟨bn, Nat.lt_succ_of_lt h⟩ ≠ 0 ∧
      blockOf disk d bn = (d.addrs ⟨bn, Nat.lt_succ_of_lt h⟩).toNat) ∨
    (¬bn < NDIRECT ∧ bn - NDIRECT < NINDIRECT ∧ d.addrs (Fin.last NDIRECT) ≠ 0 ∧
      (disk (d.addrs (Fin.last NDIRECT)).toNat).word (bn - NDIRECT) ≠ 0 ∧
      blockOf disk d bn =
        ((disk (d.addrs (Fin.last NDIRECT)).toNat).word (bn - NDIRECT)).toNat) := by
  by_cases hdirect : bn < NDIRECT
  · have hval : blockOf disk d bn = (d.addrs ⟨bn, Nat.lt_succ_of_lt hdirect⟩).toNat := by
      unfold blockOf slotOf
      rw [if_pos hdirect, slotAt_direct _ _ (Nat.lt_succ_of_lt hdirect)]
    rw [hval] at hne
    exact Or.inl ⟨hdirect, toNat_ne_zero.mp hne, hval⟩
  · have hslot : slotOf bn = NDIRECT + 1 + (bn - NDIRECT) := by
      unfold slotOf
      rw [if_neg hdirect]
      omega
    have hlast : d.addrs (Fin.last NDIRECT) ≠ 0 := by
      intro hzero
      apply hne
      unfold blockOf slotAt
      rw [hslot, dif_neg (by omega), if_pos hzero]
    have hrange : bn - NDIRECT < NINDIRECT := by
      by_contra hbig
      apply hne
      unfold blockOf
      exact slotAt_of_ge _ _ (by omega)
    have hval : blockOf disk d bn =
        ((disk (d.addrs (Fin.last NDIRECT)).toNat).word (bn - NDIRECT)).toNat := by
      unfold blockOf
      rw [hslot, slotAt_indirect _ hrange hlast]
    rw [hval] at hne
    exact Or.inr ⟨hdirect, hrange, hlast, toNat_ne_zero.mp hne, hval⟩

theorem bmap_found (hne : blockOf disk d bn ≠ 0) :
    bmap sb disk d bn = .ok (blockOf disk d bn, disk, d) := by
  rcases blockOf_cases hne with ⟨hdirect, haddr, hval⟩ | ⟨hdirect, hrange, hlast, hword, hval⟩
  · rw [hval, bmap, dif_pos hdirect, addrAt, if_neg haddr]
    rfl
  · rw [hval, bmap, dif_neg hdirect, if_pos hrange, addrAt, if_neg hlast]
    simp only [pure, Except.pure, bind, Except.bind, if_neg hword]

theorem bmap_read (hholes : NoHoles disk d k) (hbn : bn < k) :
    bmap sb disk d bn = .ok (blockOf disk d bn, disk, d) :=
  bmap_found ((hholes.blocks bn (Nat.lt_of_lt_of_le hbn hholes.le)).mpr hbn)

theorem bmap_isOk (hpool : Pooled sb disk din ∅) (hholes : NoHoles disk d k)
    (hbn : bn ≤ k) (hmax : bn < MAXFILE) (hcard : bmapCost k bn ≤ (freeBlocks sb disk).card) :
    ∃ a disk' d', bmap sb disk d bn = .ok (a, disk', d') := by
  by_cases hlt : bn < k
  · exact ⟨_, _, _, bmap_read hholes hlt⟩
  obtain rfl : bn = k := by omega
  have hcost : 0 < bmapCost bn bn := by
    unfold bmapCost
    split_ifs <;> omega
  obtain ⟨⟨b, disk1⟩, hballoc⟩ := balloc_isOk_of_card (Nat.lt_of_lt_of_le hcost hcard)
  have halloc := balloc_spec hpool.reserved hballoc
  unfold bmap
  by_cases hdirect : bn < NDIRECT
  · rw [dif_pos hdirect, addrAt]
    split_ifs with hzero
    · exact ⟨_, _, _, by rw [hballoc]; rfl⟩
    · exact ⟨_, _, _, rfl⟩
  · have hrange : bn - NDIRECT < NINDIRECT := by
      have hsum : MAXFILE = NDIRECT + NINDIRECT := rfl
      omega
    rw [dif_neg hdirect, if_pos hrange, addrAt]
    split_ifs with hlast
    · -- the indirect block comes first, so one more block must be free
      have hk : bn = NDIRECT := by
        have hnlt : ¬ NDIRECT < bn := fun hlt => hholes.indirect.mpr hlt hlast
        omega
      have hcost2 : bmapCost bn bn = 2 := by
        rw [hk]
        decide
      have hcard1 := halloc.card
      obtain ⟨⟨b2, disk2⟩, hballoc2⟩ :=
        balloc_isOk_of_card (show 0 < (freeBlocks sb disk1).card by omega)
      simp only [hballoc, bind, Except.bind, pure, Except.pure]
      split_ifs
      · exact ⟨_, _, _, by rw [hballoc2]⟩
      · exact ⟨_, _, _, rfl⟩
    · simp only [bind, Except.bind, pure, Except.pure]
      split_ifs
      · exact ⟨_, _, _, by rw [hballoc]⟩
      · exact ⟨_, _, _, rfl⟩

end Xv6.Fs
