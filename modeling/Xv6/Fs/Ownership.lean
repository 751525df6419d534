import Xv6.Fs.Blocks
import Xv6.Lib.Pool

/-!
# Which inode owns which block

The free map and the addresses in the inodes describe one pool of data blocks.
The slots of an inode are its direct addresses, the address of its indirect block
and the entries of that block.  `din` gives the inodes their current values: the
ones on disk, except that the inode being worked on has its in-memory value.
-/

namespace Xv6.Fs

open Lib Function List

/-- The block number in slot `s` of an inode, 0 if there is none. -/
def slotAt (disk : Disk) (d : Dinode) (s : Nat) : Nat :=
  if h : s < NDIRECT + 1 then
    (d.addrs ⟨s, h⟩).toNat
  else if d.addrs (Fin.last NDIRECT) = 0 then
    0
  else if s - (NDIRECT + 1) < NINDIRECT then
    ((disk (d.addrs (Fin.last NDIRECT)).toNat).word (s - (NDIRECT + 1))).toNat
  else
    0

def slotOf (bn : Nat) : Nat := if bn < NDIRECT then bn else bn + 1

/-- The block number of the `bn`-th data block of an inode. -/
def blockOf (disk : Disk) (d : Dinode) (bn : Nat) : Nat := slotAt disk d (slotOf bn)

/-- The block in a slot `(inum, s)` of an allocated inode. -/
def own (sb : Superblock) (disk : Disk) (din : Nat → Dinode) (k : Nat × Nat) : Nat :=
  if k.1 < sb.ninodes ∧ (din k.1).type ≠ 0 then slotAt disk (din k.1) k.2 else 0

/-- The free map and the inodes agree; the blocks in `loose` are marked and in no
inode. -/
def Pooled (sb : Superblock) (disk : Disk) (din : Nat → Dinode) (loose : Finset Nat) : Prop :=
  Pool sb.nmeta sb.size (bitAt sb disk) (own sb disk din) loose

/-- An inode has its first `k` data blocks, an indirect block if it needs one, and
nothing else. -/
structure NoHoles (disk : Disk) (d : Dinode) (k : Nat) : Prop where
  le : k ≤ MAXFILE
  blocks : ∀ bn, bn < MAXFILE → (blockOf disk d bn ≠ 0 ↔ bn < k)
  indirect : d.addrs (Fin.last NDIRECT) ≠ 0 ↔ NDIRECT < k

theorem slotAt_direct (disk : Disk) (d : Dinode) {s : Nat} (h : s < NDIRECT + 1) :
    slotAt disk d s = (d.addrs ⟨s, h⟩).toNat := by
  unfold slotAt
  rw [dif_pos h]

theorem slotAt_indirect (disk : Disk) {d : Dinode} {j : Nat} (hj : j < NINDIRECT)
    (hd : d.addrs (Fin.last NDIRECT) ≠ 0) :
    slotAt disk d (NDIRECT + 1 + j) = ((disk (d.addrs (Fin.last NDIRECT)).toNat).word j).toNat := by
  unfold slotAt
  rw [dif_neg (by omega), if_neg hd, Nat.add_sub_cancel_left, if_pos hj]

theorem slotAt_of_ge (disk : Disk) (d : Dinode) {s : Nat} (h : NDIRECT + 1 + NINDIRECT ≤ s) :
    slotAt disk d s = 0 := by
  unfold slotAt
  rw [dif_neg (by omega)]
  split_ifs <;> omega

theorem slotAt_congr {disk disk' : Disk} {d : Dinode} (h : d.addrs (Fin.last NDIRECT) ≠ 0 →
      disk' (d.addrs (Fin.last NDIRECT)).toNat = disk (d.addrs (Fin.last NDIRECT)).toNat)
    (s : Nat) : slotAt disk' d s = slotAt disk d s := by
  unfold slotAt
  split_ifs with h1 h2
  · rfl
  · rfl
  · rw [h h2]
  · rfl

theorem toNat_ne_zero {a : BitVec 32} : a.toNat ≠ 0 ↔ a ≠ 0 := by
  simp [← BitVec.toNat_inj]

variable {sb : Superblock} {disk disk' : Disk} {din : Nat → Dinode} {loose : Finset Nat}
  {inum : Nat} {a : Nat} {b : Nat}

theorem findFree_eq_some {b bi : Nat} (h : findFree sb disk = some (b, bi)) :
    b % BPB = 0 ∧ bi < BPB ∧ b + bi < sb.size ∧ getBit (disk (sb.bblock b)) bi = false := by
  obtain ⟨k, -, hk⟩ := exists_of_findSome?_eq_some h
  obtain ⟨bi', hscan, heq⟩ := Option.map_eq_some_iff.mp hk
  cases heq
  have hfound := List.find?_some hscan
  have hmem := mem_range.mp (mem_of_find?_eq_some hscan)
  simp only [Bool.and_eq_true, decide_eq_true_eq, Bool.not_eq_true'] at hfound
  exact ⟨Nat.mul_mod_left k BPB, hmem, hfound.1, hfound.2⟩

theorem findFree_isSome (ha : a < sb.size) (hfree : bitAt sb disk a = false) :
    (findFree sb disk).isSome := by
  unfold findFree
  rw [List.findSome?_isSome_iff]
  refine ⟨a / BPB, ?_, ?_⟩
  · rw [mem_range]
    change a / 4096 < (sb.size + 4096 - 1) / 4096
    omega
  · rw [Option.isSome_map, scanBitmap, List.find?_isSome]
    have hsplit : a / BPB * BPB + a % BPB = a := Nat.div_add_mod' a BPB
    refine ⟨a % BPB, mem_range.mpr (Nat.mod_lt a (by decide)), ?_⟩
    have hblock : sb.bblock (a / BPB * BPB) = sb.bblock a := by
      unfold Superblock.bblock
      rw [Nat.mul_div_cancel _ (by decide)]
    rw [hblock, hsplit]
    simpa [bitAt] using And.intro ha hfree

/-- What `balloc` does to the disk: one bit and one zeroed block. -/
structure Allocated (sb : Superblock) (disk disk' : Disk) (a : Nat) : Prop where
  lt : a < sb.size
  lo : sb.nmeta ≤ a
  free : bitAt sb disk a = false
  zero : disk' a = 0
  bits : ∀ b, b < sb.size → bitAt sb disk' b = update (bitAt sb disk) a true b
  same : ∀ b, b ≠ a → (b < sb.bmapstart ∨ sb.nmeta ≤ b) → disk' b = disk b

theorem bblock_lt (hb : b < sb.size) : sb.bblock b < sb.nmeta := by
  have h := sb.bmap_lt b hb
  unfold Superblock.bblock
  omega

theorem le_bblock (sb : Superblock) (b : Nat) : sb.bmapstart ≤ sb.bblock b := Nat.le_add_left _ _

theorem bitAt_update {v : Bool}
    (hdisk : ∀ b, b < sb.nmeta → sb.bmapstart ≤ b → disk' b = update disk (sb.bblock a)
      (putBit (disk (sb.bblock a)) (a % BPB) v) b) (hb : b < sb.size) :
    bitAt sb disk' b = update (bitAt sb disk) a v b := by
  unfold bitAt
  rw [hdisk _ (bblock_lt hb) (le_bblock sb b)]
  by_cases hblock : sb.bblock b = sb.bblock a
  · have hdiv : b / 4096 = a / 4096 := Nat.add_right_cancel hblock
    rw [hblock, update_self, getBit_putBit _ _ _ (Nat.mod_lt a (by decide))]
    by_cases hba : b = a
    · subst hba
      simp
    · have hmod : b % BPB ≠ a % BPB := by
        change b % 4096 ≠ a % 4096
        omega
      rw [if_neg hmod, update_of_ne hba, hblock]
  · have hba : b ≠ a := by
      rintro rfl
      exact hblock rfl
    rw [update_of_ne hblock, update_of_ne hba]

theorem balloc_spec (hmeta : ∀ b, b < sb.nmeta → bitAt sb disk b = true)
    (h : balloc sb disk = .ok (a, disk')) : Allocated sb disk disk' a := by
  unfold balloc at h
  split at h
  · rename_i b bi hfind
    obtain ⟨hb, hbi, hlt, hfree⟩ := findFree_eq_some hfind
    have hb' : b % 4096 = 0 := hb
    have hbi' : bi < 4096 := hbi
    have hblock : sb.bblock (b + bi) = sb.bblock b := by
      change (b + bi) / 4096 + _ = b / 4096 + _
      omega
    have hmod : (b + bi) % BPB = bi := by
      change (b + bi) % 4096 = bi
      omega
    cases h
    have hbit : bitAt sb disk (b + bi) = false := by
      unfold bitAt
      rw [hblock, hmod]
      exact hfree
    have hlo : sb.nmeta ≤ b + bi := by
      by_contra hcon
      rw [hmeta _ (by omega)] at hbit
      cases hbit
    refine ⟨hlt, hlo, hbit, ?_, ?_, ?_⟩
    · simp [bzero]
    · intro c hc
      apply bitAt_update _ hc
      intro e he _
      rw [bzero, update_of_ne (by omega), hblock, hmod]
    · intro c hc hout
      have hmap := bblock_lt hlt
      have hmap' := le_bblock sb (b + bi)
      rw [hblock] at hmap hmap'
      rw [bzero, update_of_ne hc, update_of_ne (by omega)]
  · cases h

theorem balloc_isOk (ha : a < sb.size) (hfree : bitAt sb disk a = false) :
    ∃ r, balloc sb disk = .ok r := by
  obtain ⟨x, hx⟩ := Option.isSome_iff_exists.mp (findFree_isSome ha hfree)
  unfold balloc
  rw [hx]
  exact ⟨_, rfl⟩

/-- `ip->addrs[i] = v`. -/
def Dinode.setAddr (d : Dinode) (i : Fin (NDIRECT + 1)) (v : BitVec 32) : Dinode :=
  { d with addrs := update d.addrs i v }

variable {d : Dinode} {v : BitVec 32}

theorem slotAt_setAddr {i : Fin (NDIRECT + 1)} (hi : i ≠ Fin.last NDIRECT) (s : Nat) :
    slotAt disk (d.setAddr i v) s = if s = i then v.toNat else slotAt disk d s := by
  have hlast : (d.setAddr i v).addrs (Fin.last NDIRECT) = d.addrs (Fin.last NDIRECT) := by
    simp [Dinode.setAddr, Ne.symm hi]
  by_cases hs : s < NDIRECT + 1
  · rw [slotAt_direct _ _ hs, slotAt_direct _ _ hs]
    by_cases hsi : s = i
    · subst hsi
      simp [Dinode.setAddr]
    · have hne : (⟨s, hs⟩ : Fin (NDIRECT + 1)) ≠ i := fun h => hsi (by rw [← h])
      simp [Dinode.setAddr, hne, hsi]
  · have hsi : s ≠ i := by
      have := i.isLt
      omega
    unfold slotAt
    rw [dif_neg hs, dif_neg hs, hlast, if_neg hsi]

theorem slotAt_setIndirect (hnone : d.addrs (Fin.last NDIRECT) = 0) (hv : v ≠ 0)
    (hzero : disk v.toNat = 0) (s : Nat) :
    slotAt disk (d.setAddr (Fin.last NDIRECT) v) s =
      if s = NDIRECT then v.toNat else slotAt disk d s := by
  by_cases hs : s < NDIRECT + 1
  · rw [slotAt_direct _ _ hs, slotAt_direct _ _ hs]
    by_cases hsi : s = NDIRECT
    · subst hsi
      have hfin : (⟨NDIRECT, hs⟩ : Fin (NDIRECT + 1)) = Fin.last NDIRECT := rfl
      simp [Dinode.setAddr, hfin]
    · have hne : (⟨s, hs⟩ : Fin (NDIRECT + 1)) ≠ Fin.last NDIRECT := fun h => hsi (by
        rw [← Fin.val_last NDIRECT, ← h])
      simp [Dinode.setAddr, hne, hsi]
  · have hself : (d.setAddr (Fin.last NDIRECT) v).addrs (Fin.last NDIRECT) = v := by
      simp [Dinode.setAddr]
    have hsi : s ≠ NDIRECT := by omega
    unfold slotAt
    rw [dif_neg hs, dif_neg hs, hself, if_neg hv, hzero, if_pos hnone, if_neg hsi]
    split_ifs
    · simp [Block.word]
    · rfl

theorem slotAt_setWord {addr j : Nat} (haddr : (d.addrs (Fin.last NDIRECT)).toNat = addr)
    (hne : addr ≠ 0) (hj : j < NINDIRECT) (hdisk : disk' addr = (disk addr).setWord j v) (s : Nat) :
    slotAt disk' d s = if s = NDIRECT + 1 + j then v.toNat else slotAt disk d s := by
  have hlast : d.addrs (Fin.last NDIRECT) ≠ 0 := toNat_ne_zero.mp (by omega)
  by_cases hs : s < NDIRECT + 1
  · rw [slotAt_direct _ _ hs, slotAt_direct _ _ hs, if_neg (by omega)]
  · unfold slotAt
    rw [dif_neg hs, dif_neg hs, if_neg hlast, if_neg hlast, haddr, hdisk]
    by_cases hsj : s = NDIRECT + 1 + j
    · subst hsj
      rw [Nat.add_sub_cancel_left, if_pos hj, if_pos rfl, Block.word_setWord_same _ _ hj]
    · have hword : j ≠ s - (NDIRECT + 1) := by omega
      rw [if_neg hsj, Block.word_setWord_ne _ _ hword]

theorem own_of_allocated (hinum : inum < sb.ninodes) (htype : (din inum).type ≠ 0) (s : Nat) :
    own sb disk din (inum, s) = slotAt disk (din inum) s := by
  unfold own
  rw [if_pos ⟨hinum, htype⟩]

theorem own_update (hinum : inum < sb.ninodes) (htype : (din inum).type ≠ 0) {d' : Dinode}
    (htype' : d'.type ≠ 0) {s b : Nat}
    (hslot : ∀ t, slotAt disk d' t = if t = s then b else slotAt disk (din inum) t) :
    own sb disk (update din inum d') = update (own sb disk din) (inum, s) b := by
  funext ⟨i, t⟩
  by_cases hi : i = inum
  · subst hi
    rw [own_of_allocated hinum (by simpa using htype'), update_self, hslot]
    by_cases ht : t = s
    · subst ht
      simp
    · rw [if_neg ht, update_of_ne (by simpa using ht), own_of_allocated hinum htype]
  · rw [update_of_ne (by simp [hi])]
    unfold own
    simp [hi]

theorem own_congr_at {i : Nat} (h : own sb disk din (i, NDIRECT) ≠ 0 →
      disk' (own sb disk din (i, NDIRECT)) = disk (own sb disk din (i, NDIRECT))) (s : Nat) :
    own sb disk' din (i, s) = own sb disk din (i, s) := by
  by_cases hi : i < sb.ninodes ∧ (din i).type ≠ 0
  · rw [own_of_allocated hi.1 hi.2, slotAt_direct _ _ (Nat.lt_succ_self NDIRECT)] at h
    rw [own_of_allocated hi.1 hi.2, own_of_allocated hi.1 hi.2]
    exact slotAt_congr (fun hne => h (toNat_ne_zero.mpr hne)) s
  · unfold own
    rw [if_neg hi, if_neg hi]

theorem own_congr (h : ∀ i, own sb disk din (i, NDIRECT) ≠ 0 →
      disk' (own sb disk din (i, NDIRECT)) = disk (own sb disk din (i, NDIRECT))) :
    own sb disk' din = own sb disk din := by
  funext ⟨i, s⟩
  exact own_congr_at (h i) s

theorem bitAt_congr (h : ∀ b, sb.bmapstart ≤ b → b < sb.nmeta → disk' b = disk b)
    (hb : b < sb.size) : bitAt sb disk' b = bitAt sb disk b := by
  unfold bitAt
  rw [h _ (le_bblock sb b) (bblock_lt hb)]

theorem Pooled.alloc (h : Pooled sb disk din loose) (ha : Allocated sb disk disk' a) :
    own sb disk' din = own sb disk din ∧ Pooled sb disk' din (insert a loose) := by
  have hown : own sb disk' din = own sb disk din := by
    apply own_congr
    intro i hi
    exact ha.same _ (h.own_ne ha.free _ hi) (Or.inr (h.range _ hi).1)
  refine ⟨hown, ?_⟩
  unfold Pooled
  rw [hown]
  exact (Pool.alloc h ha.free ha.lt).congr sb.nmeta_le ha.bits

theorem iblock_lt (hinum : inum < sb.ninodes) : sb.iblock inum < sb.bmapstart := by
  have h := sb.inode_lt inum hinum
  unfold Superblock.iblock
  omega

@[simp] theorem dinodeAt_iupdate_same (sb : Superblock) (disk : Disk) (inum : Nat) (d : Dinode) :
    dinodeAt sb (iupdate sb disk inum d) inum = d := by
  unfold dinodeAt iupdate
  rw [update_self]
  exact getDinode_putDinode_same _ d (Nat.mod_lt _ (by decide))

theorem dinodeAt_iupdate_ne {i : Nat} (hi : i ≠ inum) (d : Dinode) :
    dinodeAt sb (iupdate sb disk inum d) i = dinodeAt sb disk i := by
  unfold dinodeAt iupdate
  by_cases hblock : sb.iblock i = sb.iblock inum
  · rw [hblock, update_self]
    apply getDinode_putDinode_ne
    unfold Superblock.iblock at hblock
    simp only [IPB, BSIZE] at hblock ⊢
    omega
  · rw [update_of_ne hblock]

theorem dinodeAt_iupdate (sb : Superblock) (disk : Disk) (inum : Nat) (d : Dinode) :
    dinodeAt sb (iupdate sb disk inum d) = update (dinodeAt sb disk) inum d := by
  funext i
  by_cases hi : i = inum
  · subst hi
    simp
  · rw [update_of_ne hi, dinodeAt_iupdate_ne hi]

theorem iupdate_of_ge (hinum : inum < sb.ninodes) (hb : sb.bmapstart ≤ b) :
    iupdate sb disk inum d b = disk b := by
  have hlt := iblock_lt hinum
  unfold iupdate
  rw [update_of_ne (by omega)]

theorem bmapstart_le (hlo : sb.nmeta ≤ b) (hb : b < sb.size) : sb.bmapstart ≤ b := by
  have h : sb.bmapstart + b / 4096 < sb.nmeta := sb.bmap_lt b hb
  omega

theorem Pooled.iupdate (h : Pooled sb disk (update (dinodeAt sb disk) inum d) loose)
    (hinum : inum < sb.ninodes) :
    own sb (iupdate sb disk inum d) (dinodeAt sb (iupdate sb disk inum d)) =
        own sb disk (update (dinodeAt sb disk) inum d) ∧
      Pooled sb (iupdate sb disk inum d) (dinodeAt sb (iupdate sb disk inum d)) loose := by
  have hown : own sb (Fs.iupdate sb disk inum d) (dinodeAt sb (Fs.iupdate sb disk inum d)) =
      own sb disk (update (dinodeAt sb disk) inum d) := by
    rw [dinodeAt_iupdate]
    apply own_congr
    intro i hne
    have hrange := h.range _ hne
    exact iupdate_of_ge hinum (bmapstart_le hrange.1 hrange.2)
  refine ⟨hown, ?_⟩
  unfold Pooled
  rw [hown]
  apply Pool.congr h sb.nmeta_le
  intro b hb
  apply bitAt_congr _ hb
  intro c hc _
  exact iupdate_of_ge hinum hc

end Xv6.Fs
