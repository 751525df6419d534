import Xv6.Fs.Bmap

/-!
# An inode is a byte array

The data blocks of an inode, in order, hold its content.  `readi` returns a range
of it and `writei` overwrites a range of it, allocating blocks at the end; the
content of the other inodes stays as it is.
-/

namespace Xv6.Fs

open Lib Function List

variable {sb : Superblock} {disk disk' disk'' : Disk} {din : Nat → Dinode} {inum : Nat}
  {d d' d'' : Dinode} {a k k' bn off : Nat} {src src' : List Byte}

/-- The number of blocks that hold `n` bytes. -/
def blocksFor (n : Nat) : Nat := (n + BSIZE - 1) / BSIZE

/-- Byte `x` of the data blocks of an inode. -/
def fileByte (disk : Disk) (d : Dinode) (x : Nat) : Byte :=
  getByte (disk (blockOf disk d (x / BSIZE))) (x % BSIZE)

def content (disk : Disk) (d : Dinode) : List Byte :=
  (List.range d.size.toNat).map (fileByte disk d)

/-- The file system on the disk: the free map and the inodes agree, and no file has
holes. -/
structure Sound (sb : Superblock) (disk : Disk) : Prop where
  pooled : Pooled sb disk (dinodeAt sb disk) ∅
  noHoles : ∀ i, i < sb.ninodes → (dinodeAt sb disk i).type ≠ 0 →
    NoHoles disk (dinodeAt sb disk i) (blocksFor (dinodeAt sb disk i).size.toNat)

theorem Sound.holes {sb : Superblock} {disk : Disk} {inum : Nat} {d : Dinode} (h : Sound sb disk)
    (hinum : inum < sb.ninodes) (hd : dinodeAt sb disk inum = d) (htype : d.type ≠ 0) :
    NoHoles disk d (blocksFor d.size.toNat) := by
  subst hd
  exact h.noHoles inum hinum htype

theorem blocksFor_le {n : Nat} : blocksFor n ≤ k ↔ n ≤ k * BSIZE := by
  unfold blocksFor
  simp only [BSIZE]
  omega

theorem lt_blocksFor {n : Nat} : k < blocksFor n ↔ k * BSIZE < n := by
  unfold blocksFor
  simp only [BSIZE]
  omega

theorem readLoop_spec (hholes : NoHoles disk d k) (rounds n : Nat) (hrounds : n ≤ rounds)
    (hsize : off + n ≤ k * BSIZE) :
    readLoop sb rounds disk d off n =
      .ok ((List.range n).map fun i => fileByte disk d (off + i), disk, d) := by
  induction rounds generalizing off n with
  | zero =>
    obtain rfl : n = 0 := by omega
    rfl
  | succ rounds ih =>
    unfold readLoop
    by_cases hn : n = 0
    · rw [if_pos hn, hn]
      rfl
    rw [if_neg hn]
    have hpos : off % BSIZE < BSIZE := Nat.mod_lt _ (by decide)
    have hbn : off / BSIZE < k := by
      apply Nat.div_lt_of_lt_mul
      rw [Nat.mul_comm]
      omega
    rw [bmap_read hholes hbn]
    simp only [bind, Except.bind, pure, Except.pure]
    -- the round reads `m` bytes, all of them in one block
    obtain ⟨m, hm⟩ : ∃ m, m = min n (BSIZE - off % BSIZE) := ⟨_, rfl⟩
    rw [← hm, ih (n - m) (by omega) (by omega)]
    have hsplit : List.range n = List.range m ++ (List.range (n - m)).map (m + ·) := by
      rw [← range_add]
      congr 1
      omega
    simp only [hsplit, map_append, map_map]
    have hblock : getBytes (disk (blockOf disk d (off / BSIZE))) (off % BSIZE) m =
        (List.range m).map fun i => fileByte disk d (off + i) := by
      apply map_congr_left
      intro i hi
      have hi := mem_range.mp hi
      have hdiv : (off + i) / BSIZE = off / BSIZE := by
        simp only [BSIZE] at hm hpos ⊢
        omega
      have hmod : (off + i) % BSIZE = off % BSIZE + i := by
        simp only [BSIZE] at hm hpos ⊢
        omega
      unfold fileByte
      rw [hdiv, hmod]
    rw [hblock]
    congr 4
    funext i
    simp only [Function.comp, Nat.add_assoc]

/-- The free blocks needed to go from `k` data blocks to `k'`. -/
def growCost (k k' : Nat) : Nat := k' - k + if k ≤ NDIRECT ∧ NDIRECT < k' then 1 else 0

/-- The bytes `src` from byte `off` on, over `old`. -/
def spliced (old : Nat → Byte) (off : Nat) (src : List Byte) (x : Nat) : Byte :=
  if h : off ≤ x ∧ x - off < src.length then src.get ⟨x - off, h.2⟩ else old x

/-- The bytes `src` have been stored from byte `off` on in an inode that had `k`
blocks. -/
structure Written (sb : Superblock) (disk disk' : Disk) (din : Nat → Dinode) (inum : Nat)
    (d d' : Dinode) (k off : Nat) (src : List Byte) : Prop where
  pooled : Pooled sb disk' (update din inum d') ∅
  frame : Frame sb disk disk' din inum
  fields : ∃ addrs, d' = { d with addrs := addrs }
  same : off + src.length ≤ k * BSIZE → d' = d
  noHoles : NoHoles disk' d' (max k (blocksFor (off + src.length)))
  bytes : ∀ x, x < max (k * BSIZE) (off + src.length) →
    fileByte disk' d' x = spliced (fileByte disk d) off src x
  card : (freeBlocks sb disk').card + growCost k (max k (blocksFor (off + src.length))) =
    (freeBlocks sb disk).card

theorem bmapCost_eq (hbn : bn ≤ k) : bmapCost k bn = growCost k (max k (bn + 1)) := by
  unfold bmapCost growCost
  by_cases hlt : bn < k
  · rw [if_pos hlt, Nat.max_eq_left hlt, if_neg (by omega)]
    omega
  · obtain rfl : bn = k := by omega
    rw [if_neg hlt, Nat.max_eq_right (by omega)]
    split_ifs <;> omega

theorem growCost_add {k'' : Nat} (h : k ≤ k') (h' : k' ≤ k'') :
    growCost k k'' = growCost k k' + growCost k' k'' := by
  unfold growCost
  split_ifs <;> omega

theorem spliced_append (old : Nat → Byte) (off : Nat) (src src' : List Byte) (x : Nat) :
    spliced (spliced old off src) (off + src.length) src' x = spliced old off (src ++ src') x := by
  unfold spliced
  simp only [get_eq_getElem, length_append, getElem_append]
  split_ifs <;> first | rfl | omega | skip
  congr 1
  omega

theorem spliced_congr {old old' : Nat → Byte} {x : Nat}
    (h : ¬ (off ≤ x ∧ x < off + src.length) → old x = old' x) :
    spliced old off src x = spliced old' off src x := by
  unfold spliced
  split_ifs with hin
  · rfl
  · exact h (by omega)

theorem Written.trans (h1 : Written sb disk disk' din inum d d' k off src)
    (h2 : Written sb disk' disk'' (update din inum d') inum d' d''
      (max k (blocksFor (off + src.length))) (off + src.length) src') :
    Written sb disk disk'' din inum d d'' k off (src ++ src') := by
  have hlen : off + (src ++ src').length = off + src.length + src'.length := by
    rw [length_append]
    omega
  have hmono : blocksFor (off + src.length) ≤ blocksFor (off + (src ++ src').length) := by
    rw [hlen, blocksFor_le]
    have h := blocksFor_le.mp (Nat.le_refl (blocksFor (off + src.length + src'.length)))
    omega
  have hmax : max (max k (blocksFor (off + src.length)))
      (blocksFor (off + src.length + src'.length)) =
      max k (blocksFor (off + (src ++ src').length)) := by
    rw [← hlen]
    omega
  refine ⟨?_, h1.frame.trans h2.frame, ?_, ?_, ?_, ?_, ?_⟩
  · have hpool := h2.pooled
    rwa [update_idem] at hpool
  · obtain ⟨addrs1, rfl⟩ := h1.fields
    obtain ⟨addrs2, rfl⟩ := h2.fields
    exact ⟨addrs2, rfl⟩
  · intro hin
    rw [hlen] at hin
    have hk : blocksFor (off + src.length) ≤ k := blocksFor_le.mpr (by omega)
    rw [h2.same (by rw [Nat.max_eq_left hk]; exact hin), h1.same (by omega)]
  · rw [← hmax]
    exact h2.noHoles
  · intro x hx
    rw [← spliced_append, h2.bytes x]
    · rw [hlen] at hx
      exact spliced_congr fun hnew => h1.bytes x (by omega)
    · rw [hlen] at hx
      have hle : k * BSIZE ≤ max k (blocksFor (off + src.length)) * BSIZE :=
        Nat.mul_le_mul_right _ (Nat.le_max_left _ _)
      exact Nat.lt_of_lt_of_le hx (max_le_max_right _ hle)
  · have hcard1 := h1.card
    have hcard2 := h2.card
    rw [hmax] at hcard2
    rw [growCost_add (Nat.le_max_left k (blocksFor (off + src.length))) (by omega)]
    omega

theorem frame_of_data (hpool : Pooled sb disk din ∅) (hd : din inum = d)
    (hinum : inum < sb.ninodes) (htype : d.type ≠ 0) (ha : blockOf disk d bn = a) (hne : a ≠ 0)
    (hrest : ∀ b, b ≠ a → disk' b = disk b) :
    own sb disk' din = own sb disk din ∧ Pooled sb disk' din ∅ ∧ Frame sb disk disk' din inum ∧
      (∀ bn', bn' ≠ bn → blockOf disk d bn' ≠ 0 → blockOf disk d bn' ≠ a) ∧
      freeBlocks sb disk' = freeBlocks sb disk := by
  subst hd
  have hown : own sb disk din (inum, slotOf bn) = a := by
    rw [own_of_allocated hinum htype]
    exact ha
  have hrange : sb.nmeta ≤ a ∧ a < sb.size := by
    have h := hpool.range (inum, slotOf bn) (by rw [hown]; exact hne)
    rwa [hown] at h
  have hother : ∀ key, key ≠ (inum, slotOf bn) → own sb disk din key ≠ 0 →
      own sb disk din key ≠ a := by
    intro key hkey hne' heq
    exact hkey (hpool.inj _ _ hne' (heq.trans hown.symm))
  have hsame : own sb disk' din = own sb disk din := by
    apply own_congr
    intro i hne'
    apply hrest
    refine hother (i, NDIRECT) ?_ hne'
    intro heq
    exact slotOf_ne bn (congrArg Prod.snd heq).symm
  have hbits : ∀ b, b < sb.size → bitAt sb disk' b = bitAt sb disk b := by
    intro b hb
    apply bitAt_congr _ hb
    intro c _ hc
    exact hrest c (by omega)
  refine ⟨hsame, ?_, ⟨?_, ?_⟩, ?_, ?_⟩
  · unfold Pooled
    rw [hsame]
    exact Pool.congr hpool sb.nmeta_le hbits
  · intro b hb
    have hmap : sb.bmapstart + a / 4096 < sb.nmeta := sb.bmap_lt a hrange.2
    exact hrest b (by omega)
  · intro i s hi
    rw [hsame]
    refine ⟨rfl, fun hne' => hrest _ (hother (i, s) ?_ hne')⟩
    intro heq
    exact hi (congrArg Prod.fst heq)
  · intro bn' hbn' hne'
    have h := hother (inum, slotOf bn') (by simpa [slotOf_inj] using hbn')
    rw [own_of_allocated hinum htype] at h
    exact h hne'
  · unfold freeBlocks
    apply Finset.filter_congr
    intro b hb
    rw [hbits b (Finset.mem_range.mp hb)]

theorem fields_type (h : ∃ addrs, d' = { d with addrs := addrs }) : d'.type = d.type := by
  obtain ⟨addrs, rfl⟩ := h
  rfl

theorem Mapped.store (h : Mapped sb disk disk' din inum d d' k (off / BSIZE) a)
    (hinum : inum < sb.ninodes) (htype : d.type ≠ 0) (hoff : off ≤ k * BSIZE) (hpos : src ≠ [])
    (hfit : off % BSIZE + src.length ≤ BSIZE)
    (hstore : disk'' a = putBytes (disk' a) (off % BSIZE) src)
    (hrest : ∀ b, b ≠ a → disk'' b = disk' b) : Written sb disk disk'' din inum d d' k off src := by
  have htype' : d'.type ≠ 0 := by
    rw [fields_type h.fields]
    exact htype
  have hlen : 0 < src.length := length_pos_iff.mpr hpos
  have hcount : max k (blocksFor (off + src.length)) = max k (off / BSIZE + 1) := by
    congr 1
    unfold blocksFor
    simp only [BSIZE] at hfit ⊢
    omega
  obtain ⟨hown, hpool, hframe, hother, hfree⟩ :=
    frame_of_data h.pooled (update_self _ _ _) hinum htype' h.block h.ne hrest
  have hblock : ∀ bn', blockOf disk'' d' bn' = blockOf disk' d' bn' := by
    intro bn'
    have heq := congrFun hown (inum, slotOf bn')
    rwa [own_of_allocated hinum (by simpa using htype'),
      own_of_allocated hinum (by simpa using htype'), update_self] at heq
  refine ⟨hpool, h.frame.trans hframe, h.fields, ?_, ?_, ?_, ?_⟩
  · intro hin
    apply h.same
    simp only [BSIZE] at hin ⊢
    omega
  · rw [hcount]
    refine ⟨h.noHoles.le, ?_, h.noHoles.indirect⟩
    intro bn' hbn'
    rw [hblock]
    exact h.noHoles.blocks bn' hbn'
  · intro x hx
    unfold fileByte
    rw [hblock]
    by_cases hxb : x / BSIZE = off / BSIZE
    · -- the block written: its other bytes are those of the block before
      rw [hxb, h.block, hstore, getByte_putBytes _ _ hfit]
      unfold spliced
      have hin : off % BSIZE ≤ x % BSIZE ∧ x % BSIZE - off % BSIZE < src.length ↔
          off ≤ x ∧ x - off < src.length := by
        simp only [BSIZE] at hxb ⊢
        omega
      by_cases hcase : off ≤ x ∧ x - off < src.length
      · rw [dif_pos (hin.mpr hcase), dif_pos hcase]
        congr 2
        simp only [BSIZE] at hxb ⊢
        omega
      · rw [dif_neg (fun hc => hcase (hin.mp hc)), dif_neg hcase]
        have hlt : off / BSIZE < k := by
          simp only [BSIZE] at hx hxb hoff hcase ⊢
          omega
        obtain ⟨hsame, hdata⟩ := h.old _ hlt
        rw [h.block] at hsame
        simp only [hxb, hsame, hdata]
    · have hlt : x / BSIZE < k := by
        simp only [BSIZE] at hx hxb hoff hfit ⊢
        omega
      have hle := h.noHoles.le
      obtain ⟨hsame, hdata⟩ := h.old _ hlt
      have hne : blockOf disk' d' (x / BSIZE) ≠ 0 :=
        (h.noHoles.blocks _ (by omega)).mpr (by omega)
      have hout : ¬ (off ≤ x ∧ x - off < src.length) := by
        simp only [BSIZE] at hxb hfit ⊢
        omega
      rw [hrest _ (hother _ hxb hne), hsame, hdata]
      unfold spliced
      rw [dif_neg hout]
  · rw [hfree, hcount, ← bmapCost_eq (by simp only [BSIZE] at hoff ⊢; omega)]
    exact h.card

theorem written_nil (hpool : Pooled sb disk din ∅) (hd : din inum = d) (hholes : NoHoles disk d k)
    (hoff : off ≤ k * BSIZE) : Written sb disk disk din inum d d k off [] := by
  have hcount : max k (blocksFor (off + ([] : List Byte).length)) = k :=
    Nat.max_eq_left (blocksFor_le.mpr hoff)
  refine ⟨?_, Frame.refl _ _ _ _, ⟨_, rfl⟩, fun _ => rfl, ?_, ?_, ?_⟩
  · rwa [← hd, update_eq_self]
  · rwa [hcount]
  · intro x _
    unfold spliced
    rw [dif_neg (by simp)]
  · rw [hcount]
    unfold growCost
    rw [if_neg (by omega)]
    omega

theorem le_blocks_written (k n : Nat) : n ≤ max k (blocksFor n) * BSIZE :=
  blocksFor_le.mp (Nat.le_max_right _ _)

section Loop

variable (hinum : inum < sb.ninodes) (hpool : Pooled sb disk din ∅) (hd : din inum = d)
  (htype : d.type ≠ 0) (hholes : NoHoles disk d k) (hoff : off ≤ k * BSIZE)
  (hmax : off + src.length ≤ MAXFILE * BSIZE)

include hinum hpool hd htype hholes hoff hmax

theorem write_round (hsrc : src ≠ []) {m : Nat} (hm : m = min src.length (BSIZE - off % BSIZE))
    (hbmap : bmap sb disk d (off / BSIZE) = .ok (a, disk', d')) :
    Written sb disk (update disk' a (putBytes (disk' a) (off % BSIZE) (src.take m)))
      din inum d d' k off (src.take m) := by
  have hlen : 0 < src.length := length_pos_iff.mpr hsrc
  have hpos : off % BSIZE < BSIZE := Nat.mod_lt _ (by decide)
  have htake : (src.take m).length = m := by
    rw [length_take]
    omega
  have hmapped := bmap_spec hpool hd hinum htype hholes
    (by simp only [BSIZE] at hoff ⊢; omega) (by simp only [BSIZE] at hmax ⊢; omega) hbmap
  refine hmapped.store hinum htype hoff ?_ (by omega) (update_self _ _ _)
    (fun b hb => update_of_ne hb _ _)
  rw [← length_pos_iff]
  omega

theorem writeLoop_spec (rounds : Nat) (hrounds : src.length ≤ rounds)
    (h : writeLoop sb rounds disk d off src = .ok (disk', d')) :
    Written sb disk disk' din inum d d' k off src := by
  induction rounds generalizing disk din d k off src with
  | zero =>
    obtain rfl : src = [] := length_eq_zero_iff.mp (by omega)
    cases h
    exact written_nil hpool hd hholes hoff
  | succ rounds ih =>
    unfold writeLoop at h
    split_ifs at h with hnil
    · cases h
      subst hnil
      exact written_nil hpool hd hholes hoff
    · obtain ⟨⟨a, disk1, d1⟩, hbmap, h⟩ := bind_eq_ok.mp h
      have hlen : 0 < src.length := length_pos_iff.mpr hnil
      have hpos : off % BSIZE < BSIZE := Nat.mod_lt _ (by decide)
      obtain ⟨m, hm⟩ : ∃ m, m = min src.length (BSIZE - off % BSIZE) := ⟨_, rfl⟩
      simp only [← hm] at h
      have htake : (src.take m).length = m := by
        rw [length_take]
        omega
      have hround := write_round hinum hpool hd htype hholes hoff hmax hnil hm hbmap
      have hoff' := le_blocks_written k (off + m)
      have hrest := ih hround.pooled (update_self _ _ _)
        (by rw [fields_type hround.fields]; exact htype) hround.noHoles
        (by rw [htake]; exact hoff') (by rw [length_drop]; omega)
        (by rw [length_drop]; omega) h
      have hall := hround.trans (by rw [htake] at hrest ⊢; exact hrest)
      rwa [take_append_drop] at hall

theorem writeLoop_isOk (rounds : Nat)
    (hcard : growCost k (max k (blocksFor (off + src.length))) ≤ (freeBlocks sb disk).card) :
    ∃ disk' d', writeLoop sb rounds disk d off src = .ok (disk', d') := by
  induction rounds generalizing disk din d k off src with
  | zero => exact ⟨_, _, rfl⟩
  | succ rounds ih =>
    unfold writeLoop
    by_cases hnil : src = []
    · exact ⟨_, _, if_pos hnil⟩
    rw [if_neg hnil]
    have hlen : 0 < src.length := length_pos_iff.mpr hnil
    have hpos : off % BSIZE < BSIZE := Nat.mod_lt _ (by decide)
    have hbn : off / BSIZE ≤ k := by
      simp only [BSIZE] at hoff ⊢
      omega
    have hnext : off / BSIZE + 1 ≤ blocksFor (off + src.length) := by
      rw [Nat.succ_le_iff, lt_blocksFor]
      simp only [BSIZE]
      omega
    -- the blocks of this round and those of the rest
    have hsplit := growCost_add (Nat.le_max_left k (off / BSIZE + 1))
      (max_le_max_left k hnext)
    obtain ⟨a, disk1, d1, hbmap⟩ := bmap_isOk hpool hholes hbn
      (by simp only [BSIZE] at hmax ⊢; omega) (by rw [bmapCost_eq hbn]; omega)
    rw [hbmap]
    obtain ⟨m, hm⟩ : ∃ m, m = min src.length (BSIZE - off % BSIZE) := ⟨_, rfl⟩
    simp only [bind, Except.bind, ← hm]
    have htake : (src.take m).length = m := by
      rw [length_take]
      omega
    have hround := write_round hinum hpool hd htype hholes hoff hmax hnil hm hbmap
    have hoff' := le_blocks_written k (off + m)
    have hcard1 := hround.card
    have hcount : blocksFor (off + m) = off / BSIZE + 1 := by
      unfold blocksFor
      simp only [BSIZE] at hm ⊢
      omega
    have htotal : off + m + (src.drop m).length = off + src.length := by
      rw [length_drop]
      omega
    rw [htake] at hcard1
    refine ih hround.pooled (update_self _ _ _)
      (by rw [fields_type hround.fields]; exact htype) hround.noHoles
      (by rw [htake]; exact hoff') (by omega) ?_
    rw [htake, htotal]
    rw [hcount] at hcard1 ⊢
    have hmax' : max (max k (off / BSIZE + 1)) (blocksFor (off + src.length)) =
        max k (blocksFor (off + src.length)) := by omega
    rw [hmax']
    omega

end Loop

end Xv6.Fs
