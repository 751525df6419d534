import Xv6.Fs.Lookup
import Xv6.Mkfs.Holes

/-!
# mkfs and the kernel agree

The kernel's `namei` and `readi` on a fresh image: every entry of the root directory is
read back as it was appended, the first entry with a name is the one of its file, and the
inode it names holds the bytes of that file.
-/

namespace Xv6.Mkfs

open Fs Names Lib Function List

variable {n : Nat} {hn : n ≤ IPB * ninodeblocks} {m : Builder} {entries : List (Nat × Name)}
  {files : List (List Byte)} {image : Disk} {devsw : Devsw} {i : Nat}

theorem entryInum_dirent {inum : Nat} (h : inum < 65536) (name : Name) :
    entryInum (dirent inum name) = inum := by
  have hlow : (BitVec.ofNat 8 inum).toNat = inum % 256 := BitVec.toNat_ofNat _ _
  have hhigh : (BitVec.ofNat 8 (inum / 256)).toNat = inum / 256 % 256 := BitVec.toNat_ofNat _ _
  change (BitVec.ofNat 8 inum).toNat + 256 * (BitVec.ofNat 8 (inum / 256)).toNat = inum
  rw [hlow, hhigh]
  omega

variable {name : Name}

theorem namecmp_dirent {name' : Name} (hname : 0 ∉ name) (hname' : 0 ∉ name') (inum : Nat) :
    namecmp (name.take DIRSIZ) ((dirent inum name').drop 2) = 0 ↔
      name.take DIRSIZ = name'.take DIRSIZ := by
  have hdrop : (dirent inum name').drop 2 = name'.take DIRSIZ ++
      List.replicate (DIRSIZ - (name'.take DIRSIZ).length) 0 := rfl
  have hcut : 0 ∉ name.take DIRSIZ := fun hmem => hname (mem_of_mem_take hmem)
  have hcut' : 0 ∉ name'.take DIRSIZ := fun hmem => hname' (mem_of_mem_take hmem)
  rw [namecmp, hdrop, strncmp_eq_zero hcut hcut', take_take, take_take, Nat.min_self]

variable {j : Nat}

theorem entryBytes_slice (hj : j < entries.length) : ((entryBytes entries).drop (16 * j)).take 16 =
      dirent (entries.get ⟨j, hj⟩).1 (entries.get ⟨j, hj⟩).2 := by
  induction entries generalizing j with
  | nil => cases hj
  | cons e entries ih =>
    have hcons : entryBytes (e :: entries) = dirent e.1 e.2 ++ entryBytes entries := rfl
    have hlen := dirent_length e.1 e.2
    rw [hcons]
    cases j with
    | zero =>
      rw [Nat.mul_zero, drop_zero, take_left' hlen]
      rfl
    | succ j =>
      have hoff : 16 * (j + 1) = (dirent e.1 e.2).length + 16 * j := by omega
      rw [hoff, drop_length_add_append, ih (Nat.lt_of_succ_lt_succ hj)]
      rfl

theorem content_slice (disk : Disk) (d : Dinode) {off len : Nat} (h : off + len ≤ d.size.toNat) :
    (List.range len).map (fun i => fileByte disk d (off + i)) =
      ((content disk d).drop off).take len := by
  unfold content
  apply ext_getElem
  · simp only [length_map, length_range, length_take, length_drop]
    omega
  · intro i _ _
    simp only [getElem_map, getElem_range, getElem_take, getElem_drop]

section Finished

variable (h : Holds n hn m entries files)
  (himage : image = iupdate (layout n hn) m.seen ROOTINO (rounded (m.inode ROOTINO)))

include h himage

theorem finished_noHoles (hi : i < n) (htype : (m.inode i).type ≠ 0) :
    NoHoles image (inodeOf image i) (blocksFor (m.inode i).size.toNat) := by
  have hholes := h.built.sound.noHoles i hi htype
  refine ⟨hholes.le, fun bn hbn => ?_, ?_⟩
  · unfold blockOf
    rw [finished_slot h himage hi htype]
    exact hholes.blocks bn hbn
  · have hslot := finished_slot h himage hi htype NDIRECT
    rw [slotAt_direct _ _ (Nat.lt_succ_self _), slotAt_direct _ _ (Nat.lt_succ_self _)] at hslot
    rw [← toNat_ne_zero]
    change ((inodeOf image i).addrs ⟨NDIRECT, Nat.lt_succ_self _⟩).toNat ≠ 0 ↔ _
    rw [hslot, toNat_ne_zero]
    exact hholes.indirect

/-- Where an inode has no holes `readi` leaves the disk alone: `bmap` allocates nothing. -/
theorem finished_reads {sb : Superblock} {o k : BitVec 32} (hi : i < n)
    (htype : (m.inode i).type ≠ 0) (hdev : (inodeOf image i).type ≠ T_DEV)
    (hno : NoHole image i) (hmax : (inodeOf image i).size.toNat ≤ MAXFILE * BSIZE)
    (hsize : o.toNat + k.toNat ≤ (inodeOf image i).size.toNat) :
    ∃ bytes, readi sb devsw image (inodeOf image i) o k =
      .ok (some bytes, image, inodeOf image i) := by
  have hholes := finished_noHoles h himage hi htype
  have hle : blocksFor (inodeOf image i).size.toNat ≤ blocksFor (m.inode i).size.toNat := by
    by_contra hnot
    have hlt := not_le.mp hnot
    have hbound := lt_of_lt_of_le hlt (blocksFor_le.mpr hmax)
    exact lt_irrefl _ ((hholes.blocks _ hbound).mp (hno _ hlt))
  exact ⟨_, readi_below hdev hholes hsize (hsize.trans (blocksFor_le.mp hle))⟩

theorem finished_byte {i x : Nat} (hi : i < n) (htype : (m.inode i).type ≠ 0)
    (hx : x < (m.inode i).size.toNat) :
    fileByte image (inodeOf image i) x = fileByte m.seen (m.inode i) x := by
  have hholes := h.built.sound.noHoles i hi htype
  have hbn : x / BSIZE < blocksFor (m.inode i).size.toNat := by
    rw [lt_blocksFor]
    simp only [BSIZE]
    omega
  have hne : blockOf m.seen (m.inode i) (x / BSIZE) ≠ 0 :=
    (hholes.blocks _ (lt_of_lt_of_le hbn hholes.le)).mpr hbn
  have hblock : blockOf image (inodeOf image i) (x / BSIZE) = blockOf m.seen (m.inode i)
      (x / BSIZE) :=
    finished_slot h himage hi htype _
  have hsame : image (blockOf m.seen (m.inode i) (x / BSIZE)) =
      m.seen (blockOf m.seen (m.inode i) (x / BSIZE)) := by
    rw [himage]
    exact iupdate_of_ge h.root_lt (own_ge h.built.sound.pooled hi htype hne)
  unfold fileByte
  rw [hblock, hsame]

theorem root_size_le (hfew : entries.length ≤ 208) :
    16 * entries.length ≤ (inodeOf image ROOTINO).size.toNat := by
  have hsize := root_size h
  rw [finished_inode himage, if_pos rfl]
  change _ ≤ (BitVec.ofNat 32 (((m.inode ROOTINO).size.toNat / 512 + 1) * 512)).toNat
  rw [hsize, BitVec.toNat_ofNat, Nat.mod_eq_of_lt (by omega)]
  omega

theorem readi_entry (hfew : entries.length ≤ 208) (hj : j < entries.length) :
    readi (layout n hn) devsw image (inodeOf image ROOTINO) (BitVec.ofNat 32 (16 * j)) 16 =
      .ok (some (dirent (entries.get ⟨j, hj⟩).1 (entries.get ⟨j, hj⟩).2), image,
        inodeOf image ROOTINO) := by
  obtain ⟨htype, hdev⟩ := dir_ne h.dir
  have hsize := root_size h
  have hinode : inodeOf image ROOTINO = rounded (m.inode ROOTINO) := by
    rw [finished_inode himage, if_pos rfl]
  have hoff : (BitVec.ofNat 32 (16 * j)).toNat = 16 * j := by
    rw [BitVec.toNat_ofNat, Nat.mod_eq_of_lt (by omega)]
  have hlen : (16 : BitVec 32).toNat = 16 := rfl
  have hrounded := root_size_le h himage hfew
  have hblocks := blocksFor_le.mp (Nat.le_refl (blocksFor (m.inode ROOTINO).size.toNat))
  rw [readi_below (by rw [hinode]; exact hdev) (finished_noHoles h himage h.root_lt htype)
    (by rw [hoff, hlen]; omega) (by rw [hoff, hlen]; omega)]
  have hbytes : (List.range 16).map (fun i => fileByte image (inodeOf image ROOTINO) (16 * j + i)) =
      (List.range 16).map (fun i => fileByte m.seen (m.inode ROOTINO) (16 * j + i)) := by
    apply map_congr_left
    intro i hi
    have hlt := mem_range.mp hi
    exact finished_byte h himage h.root_lt htype (by omega)
  rw [hoff, hlen, hbytes, content_slice _ _ (by omega), h.root, entryBytes_slice hj]

theorem dirLoop_finds (hfew : entries.length ≤ 208) (hname : 0 ∉ name)
    (hentries : ∀ e ∈ entries, 0 ∉ e.2 ∧ e.1 ≠ 0 ∧ e.1 < 65536)
    (hi : i < entries.length) (hfirst : ∀ j (hj : j < entries.length), j < i →
      (entries.get ⟨j, hj⟩).2.take DIRSIZ ≠ name.take DIRSIZ)
    (hmatch : (entries.get ⟨i, hi⟩).2.take DIRSIZ = name.take DIRSIZ) (rounds : Nat)
    (hji : j ≤ i) (hrounds : i - j < rounds) :
    dirLoop (layout n hn) devsw (name.take DIRSIZ) rounds image (inodeOf image ROOTINO) (16 * j) =
      .ok (some ((entries.get ⟨i, hi⟩).1, 16 * i), image, inodeOf image ROOTINO) := by
  have hrounded := root_size_le h himage hfew
  induction rounds generalizing j with
  | zero => omega
  | succ rounds ih =>
    have hj : j < entries.length := by omega
    obtain ⟨hstring, hinum, hshort⟩ := hentries _ (get_mem entries ⟨j, hj⟩)
    have hlen := dirent_length (entries.get ⟨j, hj⟩).1 (entries.get ⟨j, hj⟩).2
    have hno := entryInum_dirent hshort (entries.get ⟨j, hj⟩).2
    have hcmp := namecmp_dirent hname hstring (entries.get ⟨j, hj⟩).1
    unfold dirLoop
    rw [if_pos (by omega), readi_entry h himage hfew hj]
    simp only [bind, Except.bind]
    rw [if_neg (by rw [hlen]; decide), hno, if_neg hinum]
    by_cases heq : j = i
    · subst heq
      rw [if_pos (hcmp.mpr hmatch.symm)]
    · have hne := hfirst j hj (by omega)
      have hnext : 16 * j + 16 = 16 * (j + 1) := by omega
      rw [if_neg (fun hzero => hne (hcmp.mp hzero).symm), hnext]
      exact ih (by omega) (by omega)

end Finished

theorem stripped_string (f : HostFile) : 0 ∉ stripped f.name := by
  unfold stripped
  split_ifs
  · exact fun hmem => f.string (mem_of_mem_tail hmem)
  · exact f.string

theorem stripped_slash (h : slash ∉ name) : slash ∉ stripped name := by
  unfold stripped
  split_ifs
  · exact fun hmem => h (mem_of_mem_tail hmem)
  · exact h

theorem stripped_eq_nil (hname : name ≠ []) : stripped name = [] ↔ name = [underscore] := by
  cases name with
  | nil => exact absurd rfl hname
  | cons c name =>
    unfold stripped
    by_cases hc : c = underscore
    · rw [if_pos (by rw [hc]; rfl), tail_cons, hc]
      simp
    · rw [if_neg (by simpa using hc)]
      exact iff_of_false (cons_ne_nil _ _) (fun heq => hc (List.cons.inj heq).1)

theorem skipelem_plain {path : List Byte} (hne : path ≠ []) (hslash : slash ∉ path) :
    skipelem path = some (path.take DIRSIZ, []) := by
  have hall : ∀ c ∈ path, (c != slash) = true := by
    intro c hc
    exact bne_iff_ne.mpr (fun heq => hslash (heq ▸ hc))
  have htake : path.takeWhile (· != slash) = path := takeWhile_eq_self_iff.mpr hall
  have hdrop : path.dropWhile (· != slash) = [] := dropWhile_eq_nil_iff.mpr hall
  have hlead : path.dropWhile (· == slash) = path := by
    obtain ⟨c, rest, rfl⟩ := exists_cons_of_ne_nil hne
    have hc : (c == slash) = false := by
      have hbne := hall c mem_cons_self
      simpa [bne] using hbne
    rw [dropWhile_cons, hc]
    rfl
  unfold skipelem
  simp only [hlead, htake, hdrop, if_neg hne, dropWhile_nil]

theorem eq_of_take_eq {short : Name} (h : name.take DIRSIZ = short)
    (hshort : short.length < DIRSIZ) : name = short := by
  have hlen : name.length < DIRSIZ := by
    rw [← h, length_take] at hshort
    omega
  rw [← h, take_of_length_le hlen.le]

theorem entriesFrom_get {fs : List HostFile} {k i : Nat} (hi : i < fs.length)
    (hi' : i < (entriesFrom k fs).length) :
    (entriesFrom k fs).get ⟨i, hi'⟩ = (k + i, stripped (fs.get ⟨i, hi⟩).name) := by
  induction fs generalizing k i with
  | nil => cases hi
  | cons f fs ih =>
    cases i with
    | zero => rfl
    | succ i =>
      have hrest := ih (k := k + 1) (Nat.lt_of_succ_lt_succ hi)
        (by rw [entriesFrom_length]; exact Nat.lt_of_succ_lt_succ hi)
      have hsum : k + 1 + i = k + (i + 1) := by omega
      rw [hsum] at hrest
      exact hrest

/-- The layout with the `NINODES` inodes of the superblock. -/
def kernelSb : Superblock := layout NINODES (by decide)

/-- `readsb` finds this layout in block 1 of the image. -/
theorem mkfs_superblock {files : List HostFile} (hfew : files.length ≤ 206)
    (h : mkfs files = .ok image) : [0, 2, 5, 6].map (fun i => ((image 1).word i).toNat) =
      [kernelSb.size, kernelSb.ninodes, kernelSb.inodestart, kernelSb.bmapstart] := by
  obtain ⟨m, hm, rfl⟩ := mkfs_image (n := 208) (by omega) (by decide) h
  rw [iupdate_one, hm.built.superblock]
  decide +kernel

structure FilesOk (files : List HostFile) : Prop where
  named : ∀ f ∈ files, f.name ≠ [] ∧ slash ∉ f.name
  distinct : (files.map fun f => (stripped f.name).take DIRSIZ).Nodup
  not_dots : ∀ f ∈ files, stripped f.name ≠ dot ∧ stripped f.name ≠ dotdot
  size_le : ∀ f ∈ files, f.bytes.length ≤ MAXFILE * BSIZE
  count : files.length ≤ NINODES - 2
  fits : nmeta + (fileCost (16 * (files.length + 2)) +
    (files.map fun f => fileCost f.bytes.length).sum) ≤ FSSIZE

/-- `namei` finds the file, and `readi` its bytes. -/
def FoundAs (devsw : Devsw) (image : Disk) (f : HostFile) : Prop :=
  ∃ inum, namei kernelSb devsw image ROOTINO (stripped f.name) = .ok (some inum, image) ∧
    (dinodeAt kernelSb image inum).type = T_FILE ∧ (dinodeAt kernelSb image inum).nlink = 1 ∧
    (dinodeAt kernelSb image inum).size.toNat = f.bytes.length ∧
    readi kernelSb devsw image (dinodeAt kernelSb image inum) 0
      (dinodeAt kernelSb image inum).size =
      .ok (some f.bytes, image, dinodeAt kernelSb image inum)

/-- The kernel and `mkfs` agree on an image. -/
structure KernelAgrees (devsw : Devsw) (files : List HostFile) (image : Disk) : Prop where
  found : ∀ f ∈ files, FoundAs devsw image f
  unshared : ∀ i j s t, own kernelSb image (dinodeAt kernelSb image) (i, s) ≠ 0 →
    own kernelSb image (dinodeAt kernelSb image) (i, s) =
      own kernelSb image (dinodeAt kernelSb image) (j, t) → i = j
  bitmap : ∀ b, b < FSSIZE → (bitAt kernelSb image b = true ↔
    b < nmeta ∨ ∃ i s, own kernelSb image (dinodeAt kernelSb image) (i, s) = b)

theorem finished_pooled (h : Holds n hn m entries files)
    (himage : image = iupdate (layout n hn) m.seen ROOTINO (rounded (m.inode ROOTINO))) :
    Pooled (layout n hn) image (dinodeAt (layout n hn) image) ∅ := by
  have hown : own (layout n hn) m.seen (update (dinodeAt (layout n hn) m.seen) ROOTINO
      (rounded (m.inode ROOTINO))) = own (layout n hn) m.seen (dinodeAt (layout n hn) m.seen) := by
    funext ⟨i, s⟩
    by_cases hi : i = ROOTINO
    · subst hi
      unfold own
      simp only [update_self]
      rfl
    · exact own_other hi _ s
  have hpool : Pooled (layout n hn) m.seen (update (dinodeAt (layout n hn) m.seen) ROOTINO
      (rounded (m.inode ROOTINO))) ∅ := by
    unfold Pooled
    rw [hown]
    exact h.built.sound.pooled
  rw [himage]
  exact (hpool.iupdate h.root_lt).2

section Files

variable {hostFiles : List HostFile}

theorem entries_get (hi : i < hostFiles.length)
    (hi' : i + 2 < (dots ++ entriesFrom 2 hostFiles).length) :
    (dots ++ entriesFrom 2 hostFiles).get ⟨i + 2, hi'⟩ =
      (i + 2, stripped (hostFiles.get ⟨i, hi⟩).name) := by
  have hget := entriesFrom_get (k := 2) hi (by rw [entriesFrom_length]; exact hi)
  rw [Nat.add_comm 2 i] at hget
  exact hget

theorem entries_ok (hcount : hostFiles.length ≤ NINODES - 2) :
    ∀ e ∈ dots ++ entriesFrom 2 hostFiles, 0 ∉ e.2 ∧ e.1 ≠ 0 ∧ e.1 < 65536 := by
  intro e he
  rcases mem_append.mp he with hdots | hfile
  · simp only [dots, mem_cons, not_mem_nil, or_false] at hdots
    rcases hdots with rfl | rfl <;> decide
  · obtain ⟨⟨i, hi⟩, rfl⟩ := get_of_mem hfile
    have hi' := hi
    rw [entriesFrom_length] at hi'
    rw [entriesFrom_get hi' hi]
    have hcount' : hostFiles.length ≤ 198 := hcount
    refine ⟨stripped_string _, ?_, ?_⟩ <;> dsimp only <;> omega

theorem entries_first (hok : FilesOk hostFiles) (hi : i < hostFiles.length) (j : Nat)
    (hj : j < (dots ++ entriesFrom 2 hostFiles).length) (hji : j < i + 2) :
    ((dots ++ entriesFrom 2 hostFiles).get ⟨j, hj⟩).2.take DIRSIZ ≠
      (stripped (hostFiles.get ⟨i, hi⟩).name).take DIRSIZ := by
  obtain ⟨hdot, hdotdot⟩ := hok.not_dots _ (get_mem hostFiles ⟨i, hi⟩)
  match j, hj with
  | 0, _ =>
    intro heq
    exact hdot (eq_of_take_eq heq.symm (by decide))
  | 1, _ =>
    intro heq
    exact hdotdot (eq_of_take_eq heq.symm (by decide))
  | j + 2, hj =>
    have hlt : j < hostFiles.length := by omega
    rw [entries_get hlt hj]
    intro heq
    have hinj := nodup_iff_injective_get.mp hok.distinct
    have hlen : (hostFiles.map fun f => (stripped f.name).take DIRSIZ).length =
        hostFiles.length := length_map _
    have hsame := @hinj ⟨j, by omega⟩ ⟨i, by omega⟩ (by simpa using heq)
    rw [Fin.mk.injEq] at hsame
    omega

variable {m : Builder}
  (h : Holds NINODES (by decide) m (dots ++ entriesFrom 2 hostFiles) (hostFiles.map HostFile.bytes))
  (himage : image = iupdate kernelSb m.seen ROOTINO (rounded (m.inode ROOTINO)))

include h himage

theorem root_type : (dinodeAt kernelSb image ROOTINO).type = T_DIR := by
  have hinode : dinodeAt kernelSb image ROOTINO = rounded (m.inode ROOTINO) := by
    have hat := finished_inode himage ROOTINO
    rwa [if_pos rfl] at hat
  rw [hinode]
  exact h.dir

theorem namei_file (hok : FilesOk hostFiles) (hi : i < hostFiles.length)
    (hne : stripped (hostFiles.get ⟨i, hi⟩).name ≠ []) (devsw : Devsw) :
    namei kernelSb devsw image ROOTINO (stripped (hostFiles.get ⟨i, hi⟩).name) =
      .ok (some (i + 2), image) := by
  have hcount : hostFiles.length ≤ 198 := hok.count
  have hlen : (dots ++ entriesFrom 2 hostFiles).length = hostFiles.length + 2 := by
    rw [length_append, entriesFrom_length]
    exact Nat.add_comm 2 _
  have hi' : i + 2 < (dots ++ entriesFrom 2 hostFiles).length := by omega
  have hget := entries_get hi hi'
  have hskip := skipelem_plain hne (stripped_slash (hok.named _ (get_mem _ _)).2)
  have hdir := root_type h himage
  have hrounds : i + 2 - 0 < (inodeOf image ROOTINO).size.toNat / 16 + 1 := by
    have hsize := root_size h
    rw [finished_inode himage, if_pos rfl]
    change _ < (BitVec.ofNat 32 (((m.inode ROOTINO).size.toNat / 512 + 1) * 512)).toNat / 16 + 1
    rw [hsize, BitVec.toNat_ofNat, Nat.mod_eq_of_lt (by omega)]
    omega
  have hloop : dirLoop kernelSb devsw ((stripped (hostFiles.get ⟨i, hi⟩).name).take DIRSIZ)
      ((inodeOf image ROOTINO).size.toNat / 16 + 1) image (inodeOf image ROOTINO) (16 * 0) = _ :=
    dirLoop_finds h himage (by omega) (stripped_string (hostFiles.get ⟨i, hi⟩))
      (entries_ok hok.count) hi' (entries_first hok hi) (by rw [hget]) _ (Nat.zero_le _) hrounds
  rw [hget] at hloop
  have hlookup : dirlookup kernelSb devsw image (dinodeAt kernelSb image ROOTINO)
      ((stripped (hostFiles.get ⟨i, hi⟩).name).take DIRSIZ) =
        .ok (some (i + 2, 16 * (i + 2)), image, dinodeAt kernelSb image ROOTINO) := by
    rw [dirlookup, if_neg (not_not.mpr hdir)]
    exact hloop
  have hhead : (if (stripped (hostFiles.get ⟨i, hi⟩).name).head? = some slash then ROOTINO
      else ROOTINO) = ROOTINO := ite_self _
  obtain ⟨k, hk⟩ : ∃ k, (stripped (hostFiles.get ⟨i, hi⟩).name).length = k + 1 :=
    ⟨_, (Nat.succ_pred_eq_of_pos (length_pos_iff.mpr hne)).symm⟩
  rw [namei, hhead, hk, nameiLoop, hskip]
  simp only [hdir, hlookup, bind, Except.bind]
  rfl

theorem file_found (hok : FilesOk hostFiles) (hi : i < hostFiles.length)
    (hne : stripped (hostFiles.get ⟨i, hi⟩).name ≠ []) (devsw : Devsw) :
    FoundAs devsw image (hostFiles.get ⟨i, hi⟩) := by
  have hi' : i < (hostFiles.map HostFile.bytes).length := by rwa [length_map]
  obtain ⟨htype, hnlink, hcontent⟩ := h.file i hi'
  have hbytes : (hostFiles.map HostFile.bytes).get ⟨i, hi'⟩ = (hostFiles.get ⟨i, hi⟩).bytes := by
    simp
  rw [hbytes] at hcontent
  have hcount : hostFiles.length ≤ 198 := hok.count
  have hlt : i + 2 < NINODES := by
    change i + 2 < 200
    omega
  have hinode : dinodeAt kernelSb image (i + 2) = m.inode (i + 2) := by
    have hat := finished_inode himage (i + 2)
    rwa [if_neg (by change i + 2 ≠ 1; omega)] at hat
  have hlen : (m.inode (i + 2)).size.toNat = (hostFiles.get ⟨i, hi⟩).bytes.length := by
    rw [← length_content m.seen, hcontent]
  refine ⟨i + 2, namei_file h himage hok hi hne devsw, by rw [hinode, htype],
    by rw [hinode, hnlink], by rw [hinode, hlen], ?_⟩
  have hholes := finished_noHoles h himage hlt (file_ne htype).1
  have hsame : inodeOf image (i + 2) = m.inode (i + 2) := hinode
  have hdev : (inodeOf image (i + 2)).type ≠ T_DEV := by
    rw [hsame]
    exact (file_ne htype).2
  have hblocks : (0 : BitVec 32).toNat + (inodeOf image (i + 2)).size.toNat ≤
      blocksFor (m.inode (i + 2)).size.toNat * BSIZE := by
    rw [hsame]
    simpa using blocksFor_le.mp (Nat.le_refl _)
  have hread : readi kernelSb devsw image (inodeOf image (i + 2)) 0
      (inodeOf image (i + 2)).size = _ :=
    readi_below hdev hholes (by simp) hblocks
  refine hread.trans ?_
  have hdata : (List.range (inodeOf image (i + 2)).size.toNat).map
      (fun x => fileByte image (inodeOf image (i + 2)) ((0 : BitVec 32).toNat + x)) =
        (hostFiles.get ⟨i, hi⟩).bytes := by
    rw [← hcontent, content, hsame]
    apply map_congr_left
    intro x hx
    have hbyte := finished_byte h himage hlt (file_ne htype).1 (mem_range.mp hx)
    rw [hsame] at hbyte
    change fileByte image (m.inode (i + 2)) (0 + x) = _
    rw [Nat.zero_add]
    exact hbyte
  rw [hdata]
  rfl

end Files

theorem namei_nil (devsw : Devsw) (disk : Disk) :
    namei kernelSb devsw disk ROOTINO [] = .ok (some ROOTINO, disk) := rfl

theorem not_foundAs (f : HostFile) (hname : f.name = [underscore]) {devsw : Devsw}
    (hdir : (dinodeAt kernelSb image ROOTINO).type = T_DIR) : ¬ FoundAs devsw image f := by
  rintro ⟨inum, hnamei, htype, -⟩
  have hnil : stripped f.name = [] := by
    rw [hname]
    rfl
  rw [hnil, namei_nil, Except.ok.injEq, Prod.mk.injEq, Option.some.injEq] at hnamei
  rw [← hnamei.1, hdir] at htype
  exact absurd htype (by decide)

theorem mkfs_kernel {hostFiles : List HostFile} (hok : FilesOk hostFiles) :
    ∃ image, mkfs hostFiles = .ok image ∧ (dinodeAt kernelSb image ROOTINO).type = T_DIR ∧
      Pooled kernelSb image (dinodeAt kernelSb image) ∅ ∧
      ∀ i (hi : i < hostFiles.length), stripped (hostFiles.get ⟨i, hi⟩).name ≠ [] →
        ∀ devsw, FoundAs devsw image (hostFiles.get ⟨i, hi⟩) := by
  have hcount : hostFiles.length ≤ 198 := hok.count
  have hroom : hostFiles.length + 2 ≤ NINODES := by
    change _ ≤ 200
    omega
  have hlen : (dots ++ entriesFrom 2 hostFiles).length = hostFiles.length + 2 := by
    rw [length_append, entriesFrom_length]
    exact Nat.add_comm 2 _
  have hcost : nmeta + cost (dots ++ entriesFrom 2 hostFiles) (hostFiles.map HostFile.bytes) ≤
      FSSIZE := by
    rw [cost, hlen, map_map]
    exact hok.fits
  obtain ⟨image, himage⟩ := mkfs_isOk hroom (by decide)
    (fun f hf => ⟨(hok.named f hf).2, hok.size_le f hf⟩) hcost
  obtain ⟨m, hm, hdisk⟩ := mkfs_image hroom (by decide) himage
  exact ⟨image, himage, root_type hm hdisk, finished_pooled hm hdisk,
    fun i hi hne devsw => file_found hm hdisk hok hi hne devsw⟩

/-- On every list of files that fits, the kernel finds in the image of `mkfs` what `mkfs`
was given, unless a file is named `_`. -/
theorem mkfs_agrees_iff (files : List HostFile) (hok : FilesOk files) :
    ∃ image, mkfs files = .ok image ∧
      ((∀ devsw, KernelAgrees devsw files image) ↔ ∀ f ∈ files, f.name ≠ [underscore]) := by
  obtain ⟨image, himage, hdir, hpool, hfound⟩ := mkfs_kernel hok
  refine ⟨image, himage, ?_⟩
  constructor
  · intro hall f hf hname
    have hagrees := hall noDevs
    exact not_foundAs f hname hdir (hagrees.found f hf)
  · intro hnames devsw
    constructor
    case found =>
      intro f hf
      obtain ⟨⟨i, hi⟩, rfl⟩ := get_of_mem hf
      apply hfound i hi _ devsw
      intro hnil
      exact hnames _ hf ((stripped_eq_nil (hok.named _ hf).1).mp hnil)
    case unshared =>
      intro i j s t hne heq
      exact (Prod.mk.inj (hpool.inj _ _ hne heq)).1
    case bitmap =>
      intro b hb
      by_cases hmeta : b < nmeta
      · exact iff_of_true (hpool.reserved b hmeta) (Or.inl hmeta)
      · rw [hpool.taken_iff b (Nat.le_of_not_lt hmeta) hb]
        simp only [Finset.notMem_empty, or_false, hmeta, false_or, Prod.exists]

def catFile : HostFile where
  name := [underscore, 99, 97, 116]
  chunks := [[1, 2, 3], [4]]
  string := by decide
  chunk_pos := by decide
  chunk_le := by decide

def underscoreFile : HostFile where
  name := [underscore]
  chunks := []
  string := by decide
  chunk_pos := by decide
  chunk_le := no_chunk_le

theorem filesOk_singleton (f : HostFile) (hname : f.name ≠ [] ∧ slash ∉ f.name)
    (hdots : stripped f.name ≠ dot ∧ stripped f.name ≠ dotdot)
    (hsize : f.bytes.length ≤ BSIZE) : FilesOk [f] := by
  have hone : fileCost f.bytes.length ≤ fileCost BSIZE := fileCost_mono hsize
  constructor
  case named =>
    intro g hg
    rw [mem_singleton.mp hg]
    exact hname
  case distinct => exact nodup_singleton _
  case not_dots =>
    intro g hg
    rw [mem_singleton.mp hg]
    exact hdots
  case size_le =>
    intro g hg
    rw [mem_singleton.mp hg]
    exact hsize.trans (by decide)
  case count =>
    change 1 ≤ NINODES - 2
    decide
  case fits =>
    have hcost : nmeta + (fileCost (16 * (0 + 1 + 2)) + fileCost BSIZE) ≤ FSSIZE := by decide
    simp only [map_cons, map_nil, sum_cons, sum_nil, length_cons, length_nil]
    omega

theorem mkfs_agrees_iff_cat : ∃ image, mkfs [catFile] = .ok image ∧
    ∀ devsw, KernelAgrees devsw [catFile] image := by
  have hok : FilesOk [catFile] :=
    filesOk_singleton catFile (by decide) (by decide) (by decide)
  obtain ⟨image, himage, hiff⟩ := mkfs_agrees_iff [catFile] hok
  refine ⟨image, himage, hiff.mpr ?_⟩
  intro f hf
  rw [mem_singleton.mp hf]
  decide

/-- A file named `_` gets an entry with an empty name. -/
theorem underscore_lost : FilesOk [underscoreFile] ∧ ∃ image, mkfs [underscoreFile] = .ok image ∧
    ∀ devsw, ¬ FoundAs devsw image underscoreFile := by
  have hok : FilesOk [underscoreFile] :=
    filesOk_singleton underscoreFile (by decide) (by decide) (by decide)
  obtain ⟨image, himage, hdir, -⟩ := mkfs_kernel hok
  exact ⟨hok, image, himage, fun devsw => not_foundAs underscoreFile rfl hdir⟩

end Xv6.Mkfs
