import Xv6.Mkfs.Image

/-!
# Blocks and sizes of a finished image

The size of the root directory is rounded up after all entries are there.  It stays
within the allocated blocks unless the entries fill their last block; and the inode table
has no room for more than 207 inodes, so with more files the free map overwrites one.
-/

namespace Xv6.Mkfs

open Fs Names Lib Function List

variable {n : Nat} {hn : n ≤ IPB * ninodeblocks} {m m' : Builder} {image : Disk}
  {files : List HostFile}

theorem start_disk {b : Nat} (hb : b ≠ 1) : start.disk b = 0 := by
  change update (fun _ : Nat => (0 : Block)) 1 superblock b = 0
  rw [update_of_ne hb]

theorem start_inode (hn : n ≤ IPB * ninodeblocks) {i : Nat} (hi : i < n) :
    start.inode i = Dinode.zero := by
  have hlt : iblock i < bmapstart := (iblock_bounds hi hn).1
  have hblock : start.seen (iblock i) = 0 := by
    rw [seen_of_lt _ hlt]
    exact start_disk (by change i / 8 + 32 ≠ 1; omega)
  rw [Builder.inode, hblock]
  simp [getDinode, Dinode.unpack, Dinode.zero]

theorem start_built (n : Nat) (hn : n ≤ IPB * ninodeblocks) : Built n hn start := by
  constructor
  · refine ⟨Nat.le_refl _, by decide, fun b hb => ?_⟩
    have hlo : 59 ≤ b := hb
    exact start_disk (by omega)
  · apply sound_of_empty (show 0 < nmeta by decide)
    · intro b hb
      exact bitAt_marked (by decide) hb
    · intro i hi
      rw [dinodeAt_seen, start_inode hn hi]
      exact ⟨rfl, rfl⟩
  · rw [seen_of_lt _ (by decide)]
    rfl

def dots : List (Nat × Name) := [(ROOTINO, dot), (ROOTINO, dotdot)]

theorem makeRoot_holds (hn : n ≤ IPB * ninodeblocks) (hpos : 2 ≤ n) :
    ∃ m, Builder.makeRoot = .ok m ∧ Holds n hn m dots [] := by
  obtain ⟨m1, halloc, hbuilt, hino, hfb, hinodes, -⟩ := ialloc_spec (start_built n hn)
    (show start.freeinode < n by change 1 < n; omega)
    (start_inode hn (show 1 < n by omega)) T_DIR
  have hroot : m1.inode ROOTINO = { Dinode.zero with type := T_DIR, nlink := 1 } := by
    rw [hinodes]
    rfl
  have hm1 : Holds n hn m1 [] [] := by
    constructor
    case built => exact hbuilt
    case freeinode => exact hino
    case dir => rw [hroot]
    case root =>
      rw [hroot]
      simp [content, Dinode.zero, entryBytes]
    case file => exact fun i hi => absurd hi (Nat.not_lt_zero i)
    case free =>
      intro i hlo hi
      have hlo' : 2 ≤ i := hlo
      rw [hinodes, if_neg (by change i ≠ 1; omega)]
      exact start_inode hn hi
    case room => exact hpos
    case used =>
      rw [hfb]
      decide
  obtain ⟨m2, hdot⟩ := hm1.appendRoot_isOk (ROOTINO, dot) (by decide) (by decide)
  have hm2 := hm1.appendRoot hdot
  obtain ⟨m3, hdotdot⟩ := hm2.appendRoot_isOk (ROOTINO, dotdot) (by decide) (by decide)
  refine ⟨m3, ?_, hm2.appendRoot hdotdot⟩
  have hstart : start.ialloc T_DIR = .ok (ROOTINO, m1) := halloc
  simp only [Builder.makeRoot, hstart, bind, Except.bind]
  rw [hdot]
  exact hdotdot

def rounded (d : Dinode) : Dinode :=
  { d with size := BitVec.ofNat 32 ((d.size.toNat / BSIZE + 1) * BSIZE) }

theorem finish_ok {entries : List (Nat × Name)} {files : List (List Byte)}
    (h : Holds n hn m entries files) :
    ∃ m', m.fixRoot = .ok m' ∧ ∃ m'', m'.balloc m'.freeblock = .ok m'' ∧
      m''.disk = iupdate (layout n hn) m.seen ROOTINO (rounded (m.inode ROOTINO)) := by
  have hroot := h.root_lt
  obtain ⟨m1, hwinode, hseen, hclear, -, -⟩ := winode_ok hn h.built.clear hroot
    (rounded (m.inode ROOTINO))
  have hused : m1.freeblock < BSIZE * 8 := lt_of_le_of_lt hclear.hi (by decide)
  refine ⟨m1, ?_, m1.wsect bmapstart (Builder.bitmap m1.freeblock), ?_, ?_⟩
  · simp only [Builder.fixRoot, rinode_ok hn hroot, bind, Except.bind]
    exact hwinode
  · rw [Builder.balloc, if_pos hused]
  · rw [← hseen, Builder.wsect, seek_of_le (by decide)]
    rfl

theorem mkfs_image (hroom : files.length + 2 ≤ n)
    (hn : n ≤ IPB * ninodeblocks) (h : mkfs files = .ok image) :
    ∃ m, Holds n hn m (dots ++ entriesFrom 2 files) (files.map HostFile.bytes) ∧
      image = iupdate (layout n hn) m.seen ROOTINO (rounded (m.inode ROOTINO)) := by
  obtain ⟨m0, hmake, hm0⟩ := makeRoot_holds hn (by omega)
  unfold mkfs at h
  obtain ⟨m1, hm1, h⟩ := bind_eq_ok.mp h
  rw [hmake] at hm1
  cases hm1
  obtain ⟨m2, hfiles, h⟩ := bind_eq_ok.mp h
  have hm2 := hm0.addFiles (by rw [length_nil]; omega) hfiles
  obtain ⟨m3, hfix, m4, hballoc, hdisk⟩ := finish_ok hm2
  obtain ⟨x, hx, h⟩ := bind_eq_ok.mp h
  rw [hfix] at hx
  cases hx
  obtain ⟨y, hy, h⟩ := bind_eq_ok.mp h
  rw [hballoc] at hy
  cases hy
  cases h
  exact ⟨m2, hm2, hdisk⟩

theorem mkfs_isOk (hroom : files.length + 2 ≤ n) (hn : n ≤ IPB * ninodeblocks)
    (hfiles : ∀ f ∈ files, slash ∉ f.name ∧ f.bytes.length ≤ MAXFILE * BSIZE)
    (hcost : nmeta + cost (dots ++ entriesFrom 2 files) (files.map HostFile.bytes) ≤ FSSIZE) :
    ∃ image, mkfs files = .ok image := by
  have hbound : n ≤ 208 := hn
  obtain ⟨m0, hmake, hm0⟩ := makeRoot_holds hn (by omega)
  have hlen : ([] : List (List Byte)).length = 0 := rfl
  have hdots : dots.length = 2 := rfl
  have hmax : 208 * 16 ≤ MAXFILE * BSIZE := by decide
  obtain ⟨m1, hadd⟩ := hm0.addFiles_isOk (by omega) hfiles (by omega) hcost
  have hm1 := hm0.addFiles (by omega) hadd
  obtain ⟨m2, hfix, m3, hballoc, -⟩ := finish_ok hm1
  refine ⟨m3.disk, ?_⟩
  simp only [mkfs, hmake, hadd, hfix, hballoc, bind, Except.bind, pure, Except.pure]

/-- The inode `inum`, read from an image. -/
def inodeOf (image : Disk) (inum : Nat) : Dinode := getDinode (image (iblock inum)) (inum % IPB)

def NoHole (image : Disk) (inum : Nat) : Prop :=
  ∀ bn, bn < blocksFor (inodeOf image inum).size.toNat → blockOf image (inodeOf image inum) bn ≠ 0

section Finished

variable {entries : List (Nat × Name)} {files : List (List Byte)} {i : Nat}
  (h : Holds n hn m entries files)
  (himage : image = iupdate (layout n hn) m.seen ROOTINO (rounded (m.inode ROOTINO)))

theorem slotAt_rounded (disk : Disk) (d : Dinode) (s : Nat) :
    slotAt disk (rounded d) s = slotAt disk d s := rfl

include himage

theorem finished_inode (i : Nat) :
    inodeOf image i = if i = ROOTINO then rounded (m.inode ROOTINO) else m.inode i := by
  have hat : inodeOf image i =
      update (dinodeAt (layout n hn) m.seen) ROOTINO (rounded (m.inode ROOTINO)) i := by
    rw [himage]
    exact congrFun (dinodeAt_iupdate _ _ _ _) i
  rw [hat]
  by_cases hi : i = ROOTINO
  · subst hi
    rw [update_self, if_pos rfl]
  · rw [update_of_ne hi, if_neg hi]
    rfl

include h

theorem finished_slot (hi : i < n) (htype : (m.inode i).type ≠ 0) (s : Nat) :
    slotAt image (inodeOf image i) s = slotAt m.seen (m.inode i) s := by
  have hslot : slotAt image (m.inode i) s = slotAt m.seen (m.inode i) s := by
    rw [himage]
    exact slotAt_iupdate h.built.sound.pooled h.root_lt hi htype s
  rw [finished_inode himage]
  split_ifs with hroot
  · subst hroot
    rw [slotAt_rounded]
    exact hslot
  · exact hslot

omit himage in
theorem root_size : (m.inode ROOTINO).size.toNat = 16 * entries.length := by
  rw [← length_content m.seen, h.root, entryBytes_length]

theorem noHole_file (hi : i < files.length) : NoHole image (i + 2) := by
  have hroom := h.room
  have htype := (file_ne (h.file i hi).1).1
  have hholes := h.built.sound.noHoles (i + 2) (show i + 2 < n by omega) htype
  have hinode : inodeOf image (i + 2) = m.inode (i + 2) := by
    rw [finished_inode himage, if_neg (by change i + 2 ≠ 1; omega)]
  intro bn hbn
  unfold blockOf
  rw [finished_slot h himage (by omega) htype]
  rw [hinode] at hbn
  have hle := hholes.le
  exact (hholes.blocks bn (lt_of_lt_of_le hbn hle)).mpr hbn

theorem noHole_root_iff (hentries : entries.length ≤ 208) :
    NoHole image ROOTINO ↔ entries.length % 32 ≠ 0 := by
  have htype := (dir_ne h.dir).1
  have hsize := root_size h
  have hholes := h.built.sound.noHoles ROOTINO h.root_lt htype
  have hblocks : ∀ bn, bn < MAXFILE →
      (blockOf image (inodeOf image ROOTINO) bn ≠ 0 ↔ bn < blocksFor (16 * entries.length)) := by
    intro bn hbn
    unfold blockOf
    rw [finished_slot h himage h.root_lt htype, ← hsize]
    exact hholes.blocks bn hbn
  have hcount : blocksFor (inodeOf image ROOTINO).size.toNat = 16 * entries.length / 512 + 1 := by
    rw [finished_inode himage, if_pos rfl]
    change blocksFor (BitVec.ofNat 32 (((m.inode ROOTINO).size.toNat / 512 + 1) * 512)).toNat = _
    rw [hsize, BitVec.toNat_ofNat, Nat.mod_eq_of_lt (by omega)]
    unfold blocksFor
    simp only [BSIZE]
    omega
  have hmax : 140 = MAXFILE := rfl
  have hneed : blocksFor (16 * entries.length) = (16 * entries.length + 511) / 512 := rfl
  unfold NoHole
  rw [hcount]
  constructor
  · intro hall hzero
    have hbn : 16 * entries.length / 512 < MAXFILE := by omega
    have hlt := (hblocks _ hbn).mp (hall _ (Nat.lt_succ_self _))
    omega
  · intro hne bn hbn
    exact (hblocks bn (by omega)).mpr (by omega)

end Finished

theorem addrAt_freeblock (m : Builder) (d : Dinode) (i : Fin (NDIRECT + 1)) :
    m.freeblock ≤ (m.addrAt d i).2.1.freeblock := by
  unfold Builder.addrAt
  split_ifs
  · exact Nat.le_succ _
  · exact Nat.le_refl _

theorem sectorOf_freeblock {d d' : Dinode} {fbn x : Nat}
    (h : m.sectorOf d fbn = .ok (x, m', d')) : m.freeblock ≤ m'.freeblock := by
  unfold Builder.sectorOf at h
  split_ifs at h with hdirect hrange
  · have hle := addrAt_freeblock m d ⟨fbn, Nat.lt_succ_of_lt hdirect⟩
    rw [Except.ok.inj h] at hle
    exact hle
  · have hle := addrAt_freeblock m d (Fin.last NDIRECT)
    obtain ⟨indirect, -, h⟩ := bind_eq_ok.mp h
    split_ifs at h
    · cases h
      exact Nat.le_succ_of_le hle
    · cases h
      exact hle

theorem iappendLoop_freeblock {rounds off off' : Nat} {d d' : Dinode} {src : List Byte}
    (h : Builder.iappendLoop rounds m d off src = .ok (m', d', off')) :
    m.freeblock ≤ m'.freeblock := by
  induction rounds generalizing m d off src with
  | zero =>
    cases h
    exact Nat.le_refl _
  | succ rounds ih =>
    unfold Builder.iappendLoop at h
    split_ifs at h
    · cases h
      exact Nat.le_refl _
    · obtain ⟨⟨x, m1, d1⟩, hsector, h⟩ := bind_eq_ok.mp h
      obtain ⟨buf, -, h⟩ := bind_eq_ok.mp h
      have hrest := ih h
      exact (sectorOf_freeblock hsector).trans hrest

theorem winode_freeblock {inum : Nat} {d : Dinode} (h : m.winode inum d = .ok m') :
    m'.freeblock = m.freeblock := by
  unfold Builder.winode at h
  obtain ⟨buf, -, h⟩ := bind_eq_ok.mp h
  cases h
  rfl

theorem iappend_freeblock {inum : Nat} {src : List Byte} (h : m.iappend inum src = .ok m') :
    m.freeblock ≤ m'.freeblock := by
  unfold Builder.iappend at h
  obtain ⟨d, -, h⟩ := bind_eq_ok.mp h
  obtain ⟨⟨m1, d1, off1⟩, hloop, h⟩ := bind_eq_ok.mp h
  rw [winode_freeblock h]
  exact iappendLoop_freeblock hloop

theorem foldlM_freeblock {α : Type} {step : Builder → α → Except String Builder}
    (hstep : ∀ m a m', step m a = .ok m' → m.freeblock ≤ m'.freeblock) {xs : List α}
    (h : xs.foldlM step m = .ok m') : m.freeblock ≤ m'.freeblock := by
  induction xs generalizing m with
  | nil =>
    cases h
    exact Nat.le_refl _
  | cons x xs ih =>
    rw [foldlM_cons] at h
    obtain ⟨m1, hfirst, hrest⟩ := bind_eq_ok.mp h
    exact (hstep _ _ _ hfirst).trans (ih hrest)

theorem addFile_freeblock {f : HostFile} (h : m.addFile f = .ok m') :
    m.freeblock ≤ m'.freeblock := by
  unfold Builder.addFile at h
  split_ifs at h
  obtain ⟨⟨inum, m1⟩, halloc, h⟩ := bind_eq_ok.mp h
  obtain ⟨m2, hentry, hchunks⟩ := bind_eq_ok.mp h
  have hfirst : m1.freeblock = m.freeblock := by
    unfold Builder.ialloc at halloc
    obtain ⟨m3, hwinode, halloc⟩ := bind_eq_ok.mp halloc
    cases halloc
    have hsame := winode_freeblock hwinode
    exact hsame
  have hsecond := iappend_freeblock hentry
  have hthird := foldlM_freeblock (fun _ _ _ hok => iappend_freeblock hok) hchunks
  omega

theorem mkfs_bitmap (hmany : 206 ≤ files.length)
    (h : mkfs files = .ok image) : ∃ used, 66 ≤ used ∧ used < BPB ∧
      image bmapstart = Builder.bitmap used := by
  have hn : 208 ≤ IPB * ninodeblocks := by decide
  obtain ⟨m0, hmake, hm0⟩ := makeRoot_holds hn (by omega)
  unfold mkfs at h
  obtain ⟨x, hx, h⟩ := bind_eq_ok.mp h
  rw [hmake] at hx
  cases hx
  obtain ⟨m1, hfiles, h⟩ := bind_eq_ok.mp h
  rw [← take_append_drop 206 files, foldlM_append] at hfiles
  obtain ⟨m2, hfirst, hrest⟩ := bind_eq_ok.mp hfiles
  have hlen : (files.take 206).length = 206 := by
    rw [length_take]
    omega
  have hm2 := hm0.addFiles (by rw [hlen]; decide) hfirst
  have hused : 66 ≤ m2.freeblock := by
    have hentries : (dots ++ entriesFrom (([] : List (List Byte)).length + 2)
        (files.take 206)).length = 208 := by
      rw [length_append, entriesFrom_length, hlen]
      rfl
    have hcost : fileCost (16 * 208) = 7 := by decide
    have hmeta : nmeta = 59 := rfl
    rw [hm2.used, cost, hentries, hcost]
    omega
  have hmono := foldlM_freeblock (fun _ _ _ hok => addFile_freeblock hok) hrest
  obtain ⟨m3, hfix, h⟩ := bind_eq_ok.mp h
  have hsame : m3.freeblock = m1.freeblock := by
    unfold Builder.fixRoot at hfix
    obtain ⟨d, -, hfix⟩ := bind_eq_ok.mp hfix
    exact winode_freeblock hfix
  obtain ⟨m4, hballoc, h⟩ := bind_eq_ok.mp h
  cases h
  unfold Builder.balloc at hballoc
  split_ifs at hballoc with hlt
  cases hballoc
  refine ⟨m3.freeblock, by omega, hlt, ?_⟩
  have hseek : Builder.seek bmapstart = bmapstart := seek_of_le (by decide)
  rw [Builder.wsect, hseek]
  exact update_self bmapstart (Builder.bitmap m3.freeblock) m3.disk

theorem getLsbD_bitmap {used : Nat} (hused : used < BPB) (off len i : Nat) (hi : i < len)
    (hlen : off + len ≤ 512) :
    (((Builder.bitmap used).extractLsb' 0 512).extractLsb' off len).getLsbD i =
      decide (off + i < used) := by
  rw [BitVec.getLsbD_extractLsb', BitVec.getLsbD_extractLsb', decide_eq_true hi,
    decide_eq_true (by omega), Bool.true_and, Bool.true_and, Nat.zero_add]
  exact getBit_bitmap hused.le (off + i)

theorem hole_of_bitmap {used : Nat} (hlo : 66 ≤ used) (hhi : used < BPB)
    (himage : image bmapstart = Builder.bitmap used) : ¬ NoHole image 208 := by
  intro hall
  obtain ⟨d, hd⟩ : ∃ d, d = inodeOf image 208 := ⟨_, rfl⟩
  have hinode : d = Dinode.unpack ((Builder.bitmap used).extractLsb' 0 512) := by
    rw [hd, ← himage]
    rfl
  have hsize : d.size = ((Builder.bitmap used).extractLsb' 0 512).extractLsb' 64 32 := by
    rw [hinode]
    rfl
  have haddr : d.addrs 0 = ((Builder.bitmap used).extractLsb' 0 512).extractLsb' 96 32 := by
    rw [hinode]
    rfl
  unfold NoHole at hall
  rw [← hd] at hall
  by_cases hmore : 96 ≤ used
  · -- the size is all ones, more than an inode can map
    have hones : d.size = BitVec.allOnes 32 := by
      apply BitVec.eq_of_getLsbD_eq
      intro i hi
      rw [hsize, getLsbD_bitmap hhi _ _ _ hi (by omega), BitVec.getLsbD_allOnes,
        decide_eq_true (by omega), decide_eq_true hi]
    have hbig : MAXFILE < blocksFor d.size.toNat := by
      rw [hones]
      decide
    refine hall MAXFILE hbig ?_
    exact slotAt_of_ge _ _ (by decide)
  · have hbit : d.size.getLsbD 0 = true := by
      rw [hsize, getLsbD_bitmap hhi _ _ _ (by omega) (by omega)]
      exact decide_eq_true (by omega)
    have hpos : 0 < blocksFor d.size.toNat := by
      rw [lt_blocksFor, Nat.zero_mul]
      apply Nat.pos_of_ne_zero
      intro hzero
      have heq : d.size = 0 := BitVec.eq_of_toNat_eq (by simpa using hzero)
      rw [heq] at hbit
      cases hbit
    have hnone : d.addrs 0 = 0 := by
      apply BitVec.eq_of_getLsbD_eq
      intro i hi
      rw [haddr, getLsbD_bitmap hhi _ _ _ hi (by omega)]
      exact (decide_eq_false (by omega)).trans BitVec.getLsbD_zero.symm
    refine hall 0 hpos ?_
    change slotAt image d 0 = 0
    rw [slotAt_direct _ _ (by decide)]
    change (d.addrs 0).toNat = 0
    rw [hnone]
    rfl

theorem noHole_iff_of_few (hfew : files.length ≤ 206) (h : mkfs files = .ok image) :
    (∀ inum, 1 ≤ inum → inum ≤ files.length + 1 → NoHole image inum) ↔
      (files.length + 2) % 32 ≠ 0 := by
  obtain ⟨m, hm, himage⟩ := mkfs_image (n := 208) (by omega) (by decide) h
  have hlen : (dots ++ entriesFrom 2 files).length = files.length + 2 := by
    rw [length_append, entriesFrom_length]
    exact Nat.add_comm 2 _
  have hroot := noHole_root_iff hm himage (by omega)
  rw [hlen] at hroot
  constructor
  · intro hall
    exact hroot.mp (hall 1 (Nat.le_refl _) (by omega))
  · intro hne inum hlo hhi
    rcases Nat.eq_or_lt_of_le hlo with hone | hmore
    · subst hone
      exact hroot.mpr hne
    · have hfile := noHole_file (i := inum - 2) hm himage (by rw [length_map]; omega)
      have hsub : inum - 2 + 2 = inum := by omega
      rwa [hsub] at hfile

/-- The image has no holes exactly if its inodes fit in their blocks and the entries of
the root directory do not fill their last block. -/
theorem mkfs_no_holes_iff (files : List HostFile) (image : Disk) (h : mkfs files = .ok image) :
    (∀ inum, 1 ≤ inum → inum ≤ files.length + 1 → NoHole image inum) ↔
      files.length ≤ 206 ∧ (files.length + 2) % 32 ≠ 0 := by
  by_cases hfew : files.length ≤ 206
  · rw [noHole_iff_of_few hfew h]
    exact ⟨fun hne => ⟨hfew, hne⟩, fun hand => hand.2⟩
  · obtain ⟨used, hlo, hhi, himage⟩ := mkfs_bitmap (by omega) h
    refine iff_of_false (fun hall => ?_) (fun hand => hfew hand.1)
    exact hole_of_bitmap hlo hhi himage (hall 208 (by omega) (by omega))

theorem no_chunk_le : ∀ c ∈ ([] : List (List Byte)), c.length ≤ BSIZE := by simp

/-- Empty files named `a`, `b` and so on. -/
def emptyHostFile (i : Fin 30) : HostFile where
  name := [BitVec.ofNat 8 (97 + i)]
  chunks := []
  string := by
    revert i
    decide
  chunk_pos := by simp
  chunk_le := no_chunk_le

theorem emptyHostFile_ok (i : Fin 30) : slash ∉ (emptyHostFile i).name ∧
    (emptyHostFile i).bytes.length ≤ MAXFILE * BSIZE := by
  revert i
  decide

theorem mkfs_no_holes_iff_one : ∃ image, mkfs [emptyHostFile 0] = .ok image ∧
    ∀ inum, 1 ≤ inum → inum ≤ 2 → NoHole image inum := by
  have hok : ∃ image, mkfs [emptyHostFile 0] = .ok image :=
    mkfs_isOk (n := 208) (by decide) (by decide)
      (by intro f hf; rw [mem_singleton.mp hf]; exact emptyHostFile_ok 0) (by decide)
  obtain ⟨image, himage⟩ := hok
  exact ⟨image, himage, (mkfs_no_holes_iff _ image himage).mpr (by decide)⟩

/-- Thirty files: 32 entries of 16 bytes fill the only block of the root directory. -/
theorem root_has_hole : ∃ image,
    mkfs ((List.finRange 30).map emptyHostFile) = .ok image ∧ ¬ NoHole image ROOTINO := by
  obtain ⟨files, hfiles⟩ : ∃ files, files = (List.finRange 30).map emptyHostFile := ⟨_, rfl⟩
  have hlen : files.length = 30 := by rw [hfiles, length_map, length_finRange]
  have hok : ∃ image, mkfs files = .ok image := by
    apply mkfs_isOk (n := 208) (by omega) (by decide)
    · intro f hf
      rw [hfiles, mem_map] at hf
      obtain ⟨i, -, rfl⟩ := hf
      exact emptyHostFile_ok i
    · rw [hfiles]
      decide
  obtain ⟨image, himage⟩ := hok
  rw [← hfiles]
  refine ⟨image, himage, fun hroot => ?_⟩
  obtain ⟨m, hm, hdisk⟩ := mkfs_image (n := 208) (by omega) (by decide) himage
  have hentries : (dots ++ entriesFrom 2 files).length = 32 := by
    rw [length_append, entriesFrom_length, hlen]
    rfl
  have hiff := noHole_root_iff hm hdisk (by omega)
  rw [hentries] at hiff
  exact hiff.mp hroot rfl

end Xv6.Mkfs
