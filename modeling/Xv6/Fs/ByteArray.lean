import Xv6.Fs.Content

/-!
# Reading and writing an inode

On a sound file system `writei` overwrites a range of the content of one inode
and `readi` returns one; both refuse the offsets and counts they check for.
-/

namespace Xv6.Fs

open Lib Function List

variable {sb : Superblock} {disk disk' disk'' : Disk} {din : Nat → Dinode} {inum : Nat}
  {d d' d'' : Dinode} {a k k' bn off : Nat} {src src' : List Byte}

/-- `C` overwritten by `D` from byte `off` on. -/
def overwrite (C : List Byte) (off : Nat) (D : List Byte) : List Byte :=
  C.take off ++ D ++ C.drop (off + D.length)

/-- The bytes `src` have been written at `off` to inode `inum`, and nothing else has
happened. -/
structure Stored (sb : Superblock) (disk disk' : Disk) (inum : Nat) (d d' : Dinode) (off : Nat)
    (src : List Byte) : Prop where
  sound : Sound sb disk'
  dinode : dinodeAt sb disk' inum = d'
  fields : ∃ addrs size, d' = { d with addrs := addrs, size := size }
  size : d'.size.toNat = max d.size.toNat (off + src.length)
  content : content disk' d' = overwrite (content disk d) off src
  others : ∀ i, i < sb.ninodes → i ≠ inum → dinodeAt sb disk' i = dinodeAt sb disk i ∧
    ((dinodeAt sb disk i).type ≠ 0 →
      Fs.content disk' (dinodeAt sb disk i) = Fs.content disk (dinodeAt sb disk i))

theorem overwrite_overwrite (C : List Byte) (off : Nat) (s w : List Byte) (hoff : off ≤ C.length) :
    overwrite (overwrite C off s) (off + s.length) w = overwrite C off (s ++ w) := by
  have hlen : (C.take off ++ s).length = off + s.length := by
    rw [length_append, length_take, Nat.min_eq_left hoff]
  have htake : (overwrite C off s).take (off + s.length) = C.take off ++ s := by
    rw [overwrite, ← hlen, take_left]
  have hdrop : (overwrite C off s).drop (off + s.length) = C.drop (off + s.length) := by
    rw [overwrite, ← hlen, drop_left]
  calc overwrite (overwrite C off s) (off + s.length) w
      = (C.take off ++ s) ++ w ++ (C.drop (off + s.length)).drop w.length := by
        rw [overwrite, htake, ← drop_drop, hdrop]
    _ = overwrite C off (s ++ w) := by
        rw [overwrite, drop_drop, length_append, append_assoc (C.take off), Nat.add_assoc]

theorem length_content (disk : Disk) (d : Dinode) : (content disk d).length = d.size.toNat := by
  simp [content]

theorem Frame.dinodeAt (h : Frame sb disk disk' din inum) {i : Nat} (hi : i < sb.ninodes) :
    dinodeAt sb disk' i = dinodeAt sb disk i := by
  unfold Fs.dinodeAt
  rw [h.inodes _ (iblock_lt hi)]

theorem content_congr (h : ∀ bn, bn < blocksFor d.size.toNat →
      blockOf disk' d bn = blockOf disk d bn ∧
      disk' (blockOf disk d bn) = disk (blockOf disk d bn)) :
    content disk' d = content disk d := by
  apply map_congr_left
  intro x hx
  have hlt : x / BSIZE < blocksFor d.size.toNat := by
    rw [lt_blocksFor]
    have hmem := mem_range.mp hx
    simp only [BSIZE]
    omega
  unfold fileByte
  rw [(h _ hlt).1, (h _ hlt).2]

theorem Frame.content (hframe : Frame sb disk disk' (Fs.dinodeAt sb disk) inum)
    (hsound : Sound sb disk) {i : Nat} (hi : i < sb.ninodes) (hne : i ≠ inum)
    (htype : (Fs.dinodeAt sb disk i).type ≠ 0) :
    Fs.content disk' (Fs.dinodeAt sb disk i) = Fs.content disk (Fs.dinodeAt sb disk i) := by
  apply content_congr
  intro bn hbn
  have hholes := hsound.noHoles i hi htype
  have hle := hholes.le
  have hother := hframe.others i (slotOf bn) hne
  rw [own_of_allocated hi htype, own_of_allocated hi htype] at hother
  exact ⟨hother.1, hother.2 ((hholes.blocks bn (by omega)).mpr hbn)⟩

theorem map_spliced (old : Nat → Byte) {n : Nat} (hoff : off ≤ n) :
    (List.range (max n (off + src.length))).map (spliced old off src) =
      overwrite ((List.range n).map old) off src := by
  unfold overwrite spliced
  apply ext_getElem
  · simp only [length_map, length_range, length_append, length_take, length_drop]
    omega
  · intro x hx _
    simp only [length_map, length_range] at hx
    simp only [getElem_map, getElem_range, getElem_append, getElem_take,
      getElem_drop, length_append, length_take, length_map, length_range,
      get_eq_getElem, Nat.min_eq_left hoff]
    split_ifs <;> first | rfl | omega | skip
    congr 1
    omega

theorem NoHoles.congr (h : NoHoles disk d k) (haddrs : d'.addrs = d.addrs)
    (hblock : ∀ bn, blockOf disk' d' bn = blockOf disk d bn) : NoHoles disk' d' k := by
  refine ⟨h.le, ?_, ?_⟩
  · intro bn hbn
    rw [hblock]
    exact h.blocks bn hbn
  · rw [haddrs]
    exact h.indirect

theorem blocksFor_max (m n : Nat) : blocksFor (max m n) = max (blocksFor m) (blocksFor n) := by
  unfold blocksFor
  simp only [BSIZE]
  omega

theorem stored_of_written {disk1 : Disk} {d1 : Dinode} {size : BitVec 32} (hsound : Sound sb disk)
    (hinum : inum < sb.ninodes) (hd : dinodeAt sb disk inum = d) (htype : d.type ≠ 0)
    (hoff : off ≤ d.size.toNat)
    (h : Written sb disk disk1 (dinodeAt sb disk) inum d d1 (blocksFor d.size.toNat) off src)
    (hd' : d' = { d1 with size := size }) (hsize : size.toNat = max d.size.toNat (off + src.length))
    (hdisk : ∀ b, sb.bmapstart ≤ b → disk' b = disk1 b)
    (hdin : ∀ i, i < sb.ninodes → dinodeAt sb disk' i = update (dinodeAt sb disk1) inum d' i) :
    Stored sb disk disk' inum d d' off src := by
  have htype1 : d1.type ≠ 0 := by
    rw [fields_type h.fields]
    exact htype
  have htype' : d'.type ≠ 0 := by
    rw [hd']
    exact htype1
  have hkept : ∀ i, i < sb.ninodes → i ≠ inum → dinodeAt sb disk' i = dinodeAt sb disk i := by
    intro i hi hne
    rw [hdin i hi, update_of_ne hne, h.frame.dinodeAt hi]
  have hdinode : dinodeAt sb disk' inum = d' := by
    rw [hdin inum hinum, update_self]
  have hdata : ∀ key, own sb disk1 (update (dinodeAt sb disk) inum d1) key ≠ 0 →
      disk' (own sb disk1 (update (dinodeAt sb disk) inum d1) key) =
        disk1 (own sb disk1 (update (dinodeAt sb disk) inum d1) key) := by
    intro key hne
    have hrange := h.pooled.range _ hne
    exact hdisk _ (bmapstart_le hrange.1 hrange.2)
  -- the slots of all inodes are those the loop left behind
  have hown : own sb disk' (dinodeAt sb disk') =
      own sb disk1 (update (dinodeAt sb disk) inum d1) := by
    have hslots : own sb disk' (dinodeAt sb disk') =
        own sb disk' (update (dinodeAt sb disk) inum d1) := by
      funext ⟨i, s⟩
      unfold own
      by_cases hi : i = inum
      · subst hi
        simp only [hdinode, update_self, hd']
        rfl
      · by_cases hlt : i < sb.ninodes
        · simp only [hkept i hlt hi, update_of_ne hi]
        · simp [hlt]
    rw [hslots]
    exact own_congr fun i => hdata (i, NDIRECT)
  have hblock : ∀ bn, blockOf disk' d' bn = blockOf disk1 d1 bn := by
    intro bn
    have heq := congrFun hown (inum, slotOf bn)
    rwa [own_of_allocated hinum (by rw [hdinode]; exact htype'), hdinode,
      own_of_allocated hinum (by rw [update_self]; exact htype1),
      update_self] at heq
  have hother : ∀ i bn, i < sb.ninodes → i ≠ inum → (dinodeAt sb disk i).type ≠ 0 →
      blockOf disk' (dinodeAt sb disk i) bn = blockOf disk1 (dinodeAt sb disk i) bn := by
    intro i bn hi hne hti
    have heq := congrFun hown (i, slotOf bn)
    rwa [own_other hne, own_of_allocated hi (by rw [hkept i hi hne]; exact hti),
      own_of_allocated hi hti, hkept i hi hne] at heq
  refine ⟨⟨?_, ?_⟩, hdinode, ?_, ?_, ?_, ?_⟩
  · unfold Pooled
    rw [hown]
    apply Pool.congr h.pooled sb.nmeta_le
    intro b hb
    apply bitAt_congr _ hb
    exact fun c hc _ => hdisk c hc
  · intro i hi hti
    by_cases hne : i = inum
    · subst hne
      rw [hdinode]
      have hk : blocksFor d'.size.toNat =
          max (blocksFor d.size.toNat) (blocksFor (off + src.length)) := by
        rw [hd', hsize, blocksFor_max]
      rw [hk]
      exact h.noHoles.congr (by rw [hd']) hblock
    · rw [hkept i hi hne] at hti ⊢
      refine (hsound.noHoles i hi hti).congr rfl ?_
      intro bn
      have hsame := (h.frame.others i (slotOf bn) hne).1
      rw [own_of_allocated hi hti, own_of_allocated hi hti] at hsame
      exact (hother i bn hi hne hti).trans hsame
  · obtain ⟨addrs, rfl⟩ := h.fields
    exact ⟨addrs, size, hd'⟩
  · rw [hd', hsize]
  · have hbytes : content disk' d' = (List.range (max d.size.toNat (off + src.length))).map
          (spliced (fileByte disk d) off src) := by
      have hlen : d'.size.toNat = max d.size.toNat (off + src.length) := by rw [hd', hsize]
      unfold content
      rw [hlen]
      apply map_congr_left
      intro x hx
      have hx := mem_range.mp hx
      have hk := blocksFor_le.mp (Nat.le_refl (blocksFor d.size.toNat))
      have hlt : x / BSIZE < max (blocksFor d.size.toNat) (blocksFor (off + src.length)) := by
        rw [← blocksFor_max, lt_blocksFor]
        simp only [BSIZE]
        omega
      have hle := h.noHoles.le
      have hne : blockOf disk1 d1 (x / BSIZE) ≠ 0 :=
        (h.noHoles.blocks _ (by omega)).mpr hlt
      rw [← h.bytes x (by omega)]
      unfold fileByte
      rw [hblock]
      congr 1
      have hsame := hdata (inum, slotOf (x / BSIZE))
      rw [own_of_allocated hinum (by rw [update_self]; exact htype1), update_self] at hsame
      exact hsame hne
    rw [hbytes, map_spliced _ hoff]
    rfl
  · intro i hi hne
    refine ⟨hkept i hi hne, ?_⟩
    intro hti
    rw [← h.frame.content hsound hi hne hti]
    apply content_congr
    intro bn hbn
    refine ⟨hother i bn hi hne hti, ?_⟩
    have hholes := hsound.noHoles i hi hti
    have hle := hholes.le
    have hsame := hdata (i, slotOf bn)
    have hfirst := (h.frame.others i (slotOf bn) hne).1
    rw [own_other hne, hfirst, own_of_allocated hi hti] at hsame
    rw [own_of_allocated hi hti, own_of_allocated hi hti] at hfirst
    rw [blockOf, hfirst]
    exact hsame ((hholes.blocks bn (by omega)).mpr hbn)

section Operations

variable {devsw : Devsw} {o n : BitVec 32}

theorem add_lt_iff_wraps : o + n < o ↔ 2 ^ 32 ≤ o.toNat + n.toNat := by
  rw [BitVec.lt_def, BitVec.toNat_add]
  have ho := o.isLt
  have hn := n.isLt
  omega

theorem toNat_add_of_fits (h : o.toNat + n.toNat < 2 ^ 32) : (o + n).toNat = o.toNat + n.toNat := by
  rw [BitVec.toNat_add]
  exact Nat.mod_eq_of_lt h

theorem toNat_length (hsrc : src.length < 2 ^ 32) :
    (BitVec.ofNat 32 src.length).toNat = src.length := by
  rw [BitVec.toNat_ofNat]
  exact Nat.mod_eq_of_lt hsrc

/-- The conditions under which `writei` returns -1. -/
def Refused (d : Dinode) (off : BitVec 32) (n : Nat) : Prop :=
  d.size.toNat < off.toNat ∨ 2 ^ 32 ≤ off.toNat + n ∨ MAXFILE * BSIZE < off.toNat + n

theorem refused_iff : Refused d o n.toNat ↔
    (o > d.size ∨ o + n < o) ∨ o + n > BitVec.ofNat 32 (MAXFILE * BSIZE) := by
  unfold Refused
  rw [add_lt_iff_wraps, gt_iff_lt, gt_iff_lt, BitVec.lt_def, BitVec.lt_def]
  have hmax : (BitVec.ofNat 32 (MAXFILE * BSIZE)).toNat = MAXFILE * BSIZE := by decide
  rw [hmax]
  by_cases hwrap : 2 ^ 32 ≤ o.toNat + n.toNat
  · exact iff_of_true (Or.inr (Or.inl hwrap)) (Or.inl (Or.inr hwrap))
  · rw [toNat_add_of_fits (by omega), or_assoc]

variable (hfile : d.type ≠ T_DEV) (hsrc : src.length < 2 ^ 32)

include hfile hsrc

theorem writei_refused (h : Refused d o src.length) :
    writei sb devsw disk inum d o src = .ok (-1, disk, d) := by
  rw [← toNat_length hsrc, refused_iff] at h
  unfold writei
  simp only [if_neg hfile]
  rcases h with h | h
  · rw [if_pos h]
  · rw [if_pos h, ite_self]

theorem writei_accepted (h : ¬ Refused d o src.length) :
    writei sb devsw disk inum d o src = (writeLoop sb src.length disk d o.toNat src).bind fun x =>
        if x.2.size.toNat < o.toNat + src.length ∧ src ≠ [] then
          let d := { x.2 with size := o + BitVec.ofNat 32 src.length }
          .ok ((src.length : Int), iupdate sb x.1 inum d, d)
        else
          .ok ((src.length : Int), x.1, x.2) := by
  have hfits : ¬ 2 ^ 32 ≤ o.toNat + src.length := fun hc => h (Or.inr (Or.inl hc))
  have hlen := toNat_length hsrc
  rw [← hlen, refused_iff, not_or] at h
  unfold writei
  simp only [if_neg hfile, if_neg h.1, if_neg h.2]
  congr 1
  funext ⟨disk1, d1⟩
  have htest : (BitVec.ofNat 32 src.length > 0 ∧ o + BitVec.ofNat 32 src.length > d1.size) ↔
      (d1.size.toNat < o.toNat + src.length ∧ src ≠ []) := by
    rw [gt_iff_lt, gt_iff_lt, BitVec.lt_def, BitVec.lt_def, toNat_add_of_fits (by omega), hlen,
      and_comm, ← length_pos_iff]
    rfl
  simp only [htest]
  rfl

variable (hsound : Sound sb disk) (hinum : inum < sb.ninodes) (hd : dinodeAt sb disk inum = d)
  (htype : d.type ≠ 0)

include hsound hinum hd htype

theorem writei_stores (hacc : ¬ Refused d o src.length) {r : Int}
    (h : writei sb devsw disk inum d o src = .ok (r, disk', d')) :
    r = src.length ∧ Stored sb disk disk' inum d d' o.toNat src := by
  rw [writei_accepted hfile hsrc hacc] at h
  obtain ⟨⟨disk1, d1⟩, hloop, h⟩ := bind_eq_ok.mp h
  unfold Refused at hacc
  have hholes := hsound.holes hinum hd htype
  have hk := blocksFor_le.mp (Nat.le_refl (blocksFor d.size.toNat))
  have hwritten := writeLoop_spec hinum hsound.pooled hd htype hholes (by omega) (by omega) _
    (Nat.le_refl _) hloop
  have hsize : d1.size = d.size := by
    obtain ⟨addrs, rfl⟩ := hwritten.fields
    rfl
  have hlen : 0 < src.length ↔ src ≠ [] := length_pos_iff
  simp only [hsize] at h
  split_ifs at h with hgrow
  · cases h
    refine ⟨rfl, ?_⟩
    refine stored_of_written hsound hinum hd htype (by omega) hwritten rfl ?_ ?_ ?_
    · rw [toNat_add_of_fits (by rw [toNat_length hsrc]; omega), toNat_length hsrc]
      omega
    · exact fun b hb => iupdate_of_ge hinum hb
    · intro i _
      rw [dinodeAt_iupdate]
  · -- no growth: every block was there, so the inode is as before
    cases h
    refine ⟨rfl, ?_⟩
    have hle : o.toNat + src.length ≤ d.size.toNat := by
      by_contra hcon
      exact hgrow ⟨by omega, hlen.mp (by omega)⟩
    have hsame : d' = d := hwritten.same (by omega)
    subst hsame
    have hself : d' = { d' with size := d'.size } := rfl
    refine stored_of_written hsound hinum hd htype (by omega) hwritten hself (by omega)
      (fun _ _ => rfl) ?_
    intro i hi
    by_cases hne : i = inum
    · rw [hne, update_self, hwritten.frame.dinodeAt hinum, hd]
    · rw [update_of_ne hne]

theorem writei_isOk (hacc : ¬ Refused d o src.length) (hcard : growCost (blocksFor d.size.toNat)
      (blocksFor (max d.size.toNat (o.toNat + src.length))) ≤ (freeBlocks sb disk).card) :
    ∃ r disk' d', writei sb devsw disk inum d o src = .ok (r, disk', d') := by
  rw [writei_accepted hfile hsrc hacc]
  unfold Refused at hacc
  have hholes := hsound.holes hinum hd htype
  have hk := blocksFor_le.mp (Nat.le_refl (blocksFor d.size.toNat))
  have hoff : o.toNat ≤ blocksFor d.size.toNat * BSIZE := by omega
  have hmax : o.toNat + src.length ≤ MAXFILE * BSIZE := by omega
  obtain ⟨disk1, d1, hloop⟩ := writeLoop_isOk hinum hsound.pooled hd htype hholes hoff hmax
    src.length (by rwa [← blocksFor_max])
  rw [hloop]
  simp only [Except.bind]
  split_ifs
  · exact ⟨_, _, _, rfl⟩
  · exact ⟨_, _, _, rfl⟩

omit hsrc hsound hinum hd htype

theorem readi_refused (h : d.size.toNat < o.toNat ∨ 2 ^ 32 ≤ o.toNat + n.toNat) :
    readi sb devsw disk d o n = .ok (none, disk, d) := by
  unfold readi
  rw [if_neg hfile, if_pos]
  rwa [add_lt_iff_wraps, gt_iff_lt, BitVec.lt_def]

theorem readi_reads (hholes : NoHoles disk d (blocksFor d.size.toNat))
    (h : ¬ (d.size.toNat < o.toNat ∨ 2 ^ 32 ≤ o.toNat + n.toNat)) :
    readi sb devsw disk d o n =
      .ok (some (((content disk d).drop o.toNat).take n.toNat), disk, d) := by
  have hk := blocksFor_le.mp (Nat.le_refl (blocksFor d.size.toNat))
  unfold readi
  rw [if_neg hfile, if_neg (by rwa [add_lt_iff_wraps, gt_iff_lt, BitVec.lt_def])]
  -- the clipped count
  obtain ⟨m, hm⟩ : ∃ m, m = if o + n > d.size then d.size - o else n := ⟨_, rfl⟩
  have hmin : m.toNat = min n.toNat (d.size.toNat - o.toNat) := by
    have hsum := toNat_add_of_fits (o := o) (n := n) (by omega)
    rw [hm]
    split_ifs with hclip
    · rw [gt_iff_lt, BitVec.lt_def, hsum] at hclip
      rw [BitVec.toNat_sub_of_le (BitVec.le_def.mpr (by omega))]
      omega
    · rw [gt_iff_lt, BitVec.lt_def, hsum] at hclip
      omega
  simp only [← hm, readLoop_spec hholes _ _ (Nat.le_refl _)
    (show o.toNat + m.toNat ≤ blocksFor d.size.toNat * BSIZE by omega),
    bind, Except.bind, pure, Except.pure]
  have hbytes : (List.range m.toNat).map (fun i => fileByte disk d (o.toNat + i)) =
      ((content disk d).drop o.toNat).take n.toNat := by
    unfold content
    apply ext_getElem
    · simp only [length_map, length_range, length_take, length_drop]
      exact hmin
    · intro i _ _
      simp only [getElem_map, getElem_range, getElem_take, getElem_drop]
  rw [hbytes]

end Operations

def blank (sb : Superblock) : Disk :=
  update (fun _ => 0) sb.bmapstart (BitVec.ofNat _ (2 ^ sb.nmeta - 1))

theorem bitAt_blank (hmeta : sb.nmeta ≤ BPB) (b : Nat) :
    bitAt sb (blank sb) b = decide (b < sb.nmeta) := by
  have hmeta' : sb.nmeta ≤ 4096 := hmeta
  unfold bitAt blank getBit Superblock.bblock
  simp only [BPB, BSIZE]
  by_cases hb : b < 4096
  · have hzero : b / (512 * 8) + sb.bmapstart = sb.bmapstart := by omega
    have hmod : b % (512 * 8) = b := by omega
    rw [hzero, hmod, update_self, BitVec.getLsbD_ofNat, Nat.testBit_two_pow_sub_one]
    simp [hb]
  · rw [update_of_ne (by omega), decide_eq_false (by omega)]
    exact BitVec.getLsbD_zero

theorem sound_of_empty (hpos : 0 < sb.nmeta)
    (hbits : ∀ b, b < sb.size → bitAt sb disk b = decide (b < sb.nmeta))
    (hempty : ∀ i, i < sb.ninodes → (dinodeAt sb disk i).addrs = (fun _ => 0) ∧
      (dinodeAt sb disk i).size = 0) : Sound sb disk := by
  have hslot : ∀ i s, i < sb.ninodes → slotAt disk (dinodeAt sb disk i) s = 0 := by
    intro i s hi
    unfold slotAt
    simp only [(hempty i hi).1]
    split_ifs <;> rfl
  have hown : ∀ key, own sb disk (dinodeAt sb disk) key = 0 := by
    rintro ⟨i, s⟩
    unfold own
    split_ifs with hi
    · exact hslot i s hi.1
    · rfl
  have hmeta := sb.nmeta_le
  refine ⟨⟨hpos, ?_, ?_, ?_, ?_, ?_, ?_⟩, ?_⟩
  · intro b hb
    rw [hbits b (by omega), decide_eq_true hb]
  · exact fun key hne => absurd (hown key) hne
  · exact fun key _ hne => absurd (hown key) hne
  · simp
  · simp
  · intro b hlo hb
    rw [hbits b hb]
    simp only [hown, decide_eq_true_eq, Finset.notMem_empty, or_false, exists_const]
    omega
  · intro i hi _
    have hzero : blocksFor (dinodeAt sb disk i).size.toNat = 0 := by
      rw [(hempty i hi).2]
      rfl
    rw [hzero]
    refine ⟨by omega, ?_, ?_⟩
    · intro bn _
      simp [blockOf, hslot i _ hi]
    · simp [(hempty i hi).1]

/-- An inode is a byte array: `writei` overwrites a range of it and `readi` reads
one, within the limits the two functions check. -/
theorem inode_is_byte_array (sb : Superblock) (devsw : Devsw) (disk : Disk) (hsound : Sound sb disk)
    (inum : Nat) (hinum : inum < sb.ninodes) (d : Dinode) (hd : dinodeAt sb disk inum = d)
    (htype : d.type = T_FILE ∨ d.type = T_DIR) (off : BitVec 32) :
    (∀ D : List Byte, D.length < 2 ^ 32 →
      (d.size.toNat < off.toNat ∨ 2 ^ 32 ≤ off.toNat + D.length ∨
          MAXFILE * BSIZE < off.toNat + D.length →
        writei sb devsw disk inum d off D = .ok (-1, disk, d)) ∧
      (off.toNat ≤ d.size.toNat → off.toNat + D.length < 2 ^ 32 →
        off.toNat + D.length ≤ MAXFILE * BSIZE →
        growCost (blocksFor d.size.toNat) (blocksFor (max d.size.toNat (off.toNat + D.length))) ≤
          (freeBlocks sb disk).card →
        ∃ disk' d', writei sb devsw disk inum d off D = .ok (D.length, disk', d') ∧
          Stored sb disk disk' inum d d' off.toNat D)) ∧
    ∀ n : BitVec 32,
      (d.size.toNat < off.toNat ∨ 2 ^ 32 ≤ off.toNat + n.toNat →
        readi sb devsw disk d off n = .ok (none, disk, d)) ∧
      (off.toNat ≤ d.size.toNat → off.toNat + n.toNat < 2 ^ 32 →
        ∃ bytes, readi sb devsw disk d off n = .ok (some bytes, disk, d) ∧
          bytes = ((content disk d).drop off.toNat).take n.toNat ∧
          bytes.length = min n.toNat (d.size.toNat - off.toNat)) := by
  have hfile : d.type ≠ T_DEV := by
    rcases htype with h | h <;> rw [h] <;> decide
  have halloc : d.type ≠ 0 := by
    rcases htype with h | h <;> rw [h] <;> decide
  refine ⟨?_, ?_⟩
  · intro D hD
    refine ⟨writei_refused hfile hD, ?_⟩
    intro hoff hwrap hmax hcard
    have hacc : ¬ Refused d off D.length := by
      unfold Refused
      omega
    have hsome : ∃ r disk' d', writei sb devsw disk inum d off D = .ok (r, disk', d') :=
      writei_isOk hfile hD hsound hinum hd halloc hacc hcard
    obtain ⟨r, disk', d', hok⟩ := hsome
    obtain ⟨rfl, hstored⟩ := writei_stores hfile hD hsound hinum hd halloc hacc hok
    exact ⟨disk', d', hok, hstored⟩
  · intro n
    refine ⟨readi_refused hfile, ?_⟩
    intro hoff hwrap
    refine ⟨_, readi_reads hfile (hsound.holes hinum hd halloc) (by omega), rfl, ?_⟩
    simp [content]

def tinySuperblock : Superblock where
  size := 8
  ninodes := 8
  inodestart := 1
  bmapstart := 2
  nmeta := 3
  size_lt := by omega
  nmeta_le := by omega
  inode_lt := by
    intro inum hinum
    simp only [IPB, BSIZE]
    omega
  bmap_lt := by
    intro b hb
    simp only [BPB, BSIZE]
    omega

def emptyFile : Dinode := { Dinode.zero with type := T_FILE, nlink := 1 }

def tinyDisk : Disk := iupdate tinySuperblock (blank tinySuperblock) 1 emptyFile

theorem dinodeAt_blank {i : Nat} (hi : i < sb.ninodes) :
    dinodeAt sb (blank sb) i = Dinode.zero := by
  unfold dinodeAt blank
  rw [update_of_ne (Nat.ne_of_lt (iblock_lt hi))]
  unfold getDinode Dinode.unpack Dinode.zero
  simp

section Tiny

variable {d : Dinode}

theorem bitAt_tiny {b : Nat} (hb : b < tinySuperblock.size) :
    bitAt tinySuperblock (iupdate tinySuperblock (blank tinySuperblock) 1 d) b =
      decide (b < 3) := by
  have hblank : bitAt tinySuperblock (blank tinySuperblock) b = decide (b < 3) :=
    bitAt_blank (by decide) b
  rw [← hblank]
  apply bitAt_congr _ hb
  exact fun c hc _ => iupdate_of_ge (by decide) hc

theorem free_tiny :
    1 ≤ (freeBlocks tinySuperblock (iupdate tinySuperblock (blank tinySuperblock) 1 d)).card := by
  refine Finset.card_pos.mpr ⟨3, ?_⟩
  have hbit : bitAt tinySuperblock (iupdate tinySuperblock (blank tinySuperblock) 1 d) 3 =
      false := by
    rw [bitAt_tiny (by decide)]
    decide
  simp only [freeBlocks, Finset.mem_filter, Finset.mem_range, hbit, and_true]
  decide

theorem sound_tiny (haddrs : ∀ i, d.addrs i = 0) (hsize : d.size = 0) :
    Sound tinySuperblock (iupdate tinySuperblock (blank tinySuperblock) 1 d) := by
  apply sound_of_empty (by decide) (fun b hb => bitAt_tiny hb)
  · intro i hi
    rw [dinodeAt_iupdate]
    by_cases hne : i = 1
    · subst hne
      rw [update_self]
      exact ⟨funext haddrs, hsize⟩
    · rw [update_of_ne hne, dinodeAt_blank hi]
      simp [Dinode.zero]

end Tiny

theorem sound_tinyDisk : Sound tinySuperblock tinyDisk := sound_tiny (fun _ => rfl) rfl

theorem free_tinyDisk : 1 ≤ (freeBlocks tinySuperblock tinyDisk).card := free_tiny

theorem inode_is_byte_array_tiny :
    (readi tinySuperblock noDevs tinyDisk emptyFile 0 5 =
      .ok (some [], tinyDisk, emptyFile)) ∧
    ∃ disk' d', writei tinySuperblock noDevs tinyDisk 1 emptyFile 0
        [104, 105] = .ok (2, disk', d') ∧
      Stored tinySuperblock tinyDisk disk' 1 emptyFile d' 0 [104, 105] := by
  obtain ⟨hwrite, hread⟩ := inode_is_byte_array tinySuperblock noDevs
    tinyDisk sound_tinyDisk 1 (by decide) emptyFile (dinodeAt_iupdate_same _ _ _ _)
    (Or.inl rfl) 0
  refine ⟨?_, (hwrite [104, 105] (by decide)).2 (by decide) (by decide) (by decide) ?_⟩
  · obtain ⟨bytes, hbytes, _, hlen⟩ := (hread 5).2 (by decide) (by decide)
    have hnil : bytes = [] := length_eq_zero_iff.mp (hlen.trans (by decide))
    rw [hbytes, hnil]
  · exact Nat.le_trans (by decide) free_tinyDisk

end Xv6.Fs
