import Xv6.Fs.ByteArray

/-!
# Writing through a file descriptor

`filewrite` of `file.c` on an inode: it writes a few blocks at a time and moves the offset
on.  A write that is short enough for one round either stores all its bytes or none.
-/

namespace Xv6.Fs

open Lib List

variable {sb : Superblock} {devsw : Devsw} {disk disk' : Disk} {inum : Nat} {d d' : Dinode}
  {off off' : BitVec 32} {src : List Byte}

/-- `((MAXOPBLOCKS-1-1-2) / 2) * 512` -/
abbrev maxWrite : Nat := (10 - 1 - 1 - 2) / 2 * 512

/-- The loop of `filewrite`; the flag says that all bytes have been written. -/
def filewriteLoop (sb : Superblock) (devsw : Devsw) (inum : Nat) :
    Nat → Disk → Dinode → BitVec 32 → List Byte →
      Except String (Bool × Disk × Dinode × BitVec 32)
  | 0, disk, d, off, src => .ok (src.isEmpty, disk, d, off)
  | rounds + 1, disk, d, off, src =>
    if src = [] then .ok (true, disk, d, off)
    else do
      let n1 := min src.length maxWrite
      let (r, disk, d) ← writei sb devsw disk inum d off (src.take n1)
      let off := if r > 0 then off + BitVec.ofInt 32 r else off
      if r < 0 then return (false, disk, d, off)
      else if r ≠ n1 then throw "short filewrite"
      else filewriteLoop sb devsw inum rounds disk d off (src.drop n1)

/-- `filewrite` on a writable file of an inode, with the offset of the file. -/
def filewrite (sb : Superblock) (devsw : Devsw) (disk : Disk) (inum : Nat) (d : Dinode)
    (off : BitVec 32) (src : List Byte) : Except String (Int × Disk × Dinode × BitVec 32) := do
  let (all, disk, d, off) ← filewriteLoop sb devsw inum src.length disk d off src
  return (if all then src.length else -1, disk, d, off)

theorem addrAt_type {i : Fin (NDIRECT + 1)} {a : Nat}
    (h : addrAt sb disk d i = .ok (a, disk', d')) : d'.type = d.type := by
  unfold addrAt at h
  split_ifs at h
  · obtain ⟨x, -, h⟩ := bind_eq_ok.mp h
    cases h
    rfl
  · cases h
    rfl

theorem bmap_type {bn a : Nat} (h : bmap sb disk d bn = .ok (a, disk', d')) : d'.type = d.type := by
  unfold bmap at h
  split_ifs at h
  · exact addrAt_type h
  · obtain ⟨⟨addr, disk1, d1⟩, haddr, h⟩ := bind_eq_ok.mp h
    have htype := addrAt_type haddr
    simp only at h
    split_ifs at h
    · obtain ⟨x, -, h⟩ := bind_eq_ok.mp h
      cases h
      exact htype
    · cases h
      exact htype

theorem writeLoop_type {rounds o : Nat} (h : writeLoop sb rounds disk d o src = .ok (disk', d')) :
    d'.type = d.type := by
  induction rounds generalizing disk d o src with
  | zero =>
    cases h
    rfl
  | succ rounds ih =>
    unfold writeLoop at h
    split_ifs at h
    · cases h
      rfl
    · obtain ⟨⟨addr, disk1, d1⟩, hmap, h⟩ := bind_eq_ok.mp h
      exact (ih h).trans (bmap_type hmap)

theorem writei_cases (hfile : d.type ≠ T_DEV) (hsrc : src.length < 2 ^ 32) {r : Int}
    (h : writei sb devsw disk inum d off src = .ok (r, disk', d')) :
    (r = -1 ∧ disk' = disk ∧ d' = d) ∨
      (r = src.length ∧ d'.type = d.type ∧ ¬Refused d off src.length) := by
  by_cases href : Refused d off src.length
  · rw [writei_refused hfile hsrc href] at h
    cases h
    exact Or.inl ⟨rfl, rfl, rfl⟩
  · rw [writei_accepted hfile hsrc href] at h
    obtain ⟨⟨disk1, d1⟩, hloop, h⟩ := bind_eq_ok.mp h
    have htype := writeLoop_type hloop
    simp only at h
    split_ifs at h
    · cases h
      exact Or.inr ⟨rfl, htype, href⟩
    · cases h
      exact Or.inr ⟨rfl, htype, href⟩

theorem filewrite_nil : filewrite sb devsw disk inum d off [] = .ok (0, disk, d, off) := rfl

theorem filewrite_short (hne : src ≠ []) (hshort : src.length ≤ maxWrite) {r : Int}
    (h : writei sb devsw disk inum d off src = .ok (r, disk', d')) :
    filewrite sb devsw disk inum d off src =
      if r < 0 then .ok (-1, disk', d', off)
      else if r ≠ src.length then .error "short filewrite"
      else .ok (src.length, disk', d', if r > 0 then off + BitVec.ofInt 32 r else off) := by
  obtain ⟨n, hn⟩ : ∃ n, src.length = n + 1 :=
    ⟨src.length - 1, by have := length_pos_iff.mpr hne; omega⟩
  have hmin : min src.length maxWrite = src.length := Nat.min_eq_left hshort
  have hnil : ∀ disk d off, filewriteLoop sb devsw inum n disk d off [] =
      .ok (true, disk, d, off) := by
    intro disk d off
    cases n <;> rfl
  rw [filewrite, hn, filewriteLoop, if_neg hne, hmin, ← hn]
  simp only [take_length, drop_length, h, hnil, bind, Except.bind, pure, Except.pure]
  by_cases hneg : r < 0
  · simp only [if_pos hneg, if_neg (show ¬r > 0 by omega), Bool.false_eq_true, if_false]
  · by_cases hall : r ≠ src.length
    · simp only [if_neg hneg, if_pos hall]
      rfl
    · simp only [if_neg hneg, if_neg hall, if_true]

theorem filewrite_error (hne : src ≠ []) (hshort : src.length ≤ maxWrite) {msg : String}
    (h : writei sb devsw disk inum d off src = .error msg) :
    filewrite sb devsw disk inum d off src = .error msg := by
  obtain ⟨n, hn⟩ : ∃ n, src.length = n + 1 :=
    ⟨src.length - 1, by have := length_pos_iff.mpr hne; omega⟩
  have hmin : min src.length maxWrite = src.length := Nat.min_eq_left hshort
  rw [filewrite, hn, filewriteLoop, if_neg hne, hmin, ← hn]
  simp only [take_length, h, bind, Except.bind]

theorem freeBlocks_congr (h : ∀ b, sb.bmapstart ≤ b → disk' b = disk b) :
    freeBlocks sb disk' = freeBlocks sb disk := by
  apply Finset.filter_congr
  intro b hb
  rw [bitAt_congr (fun c hc _ => h c hc) (Finset.mem_range.mp hb)]

theorem accepts (hoff : off.toNat ≤ d.size.toNat)
    (hmax : off.toNat + src.length ≤ MAXFILE * BSIZE) :
    src.length < 2 ^ 32 ∧ off.toNat + src.length < 2 ^ 32 ∧ ¬Refused d off src.length := by
  have hbound : MAXFILE * BSIZE < 2 ^ 32 := by decide
  unfold Refused
  omega

section Sound

variable (hfile : d.type = T_FILE) (hsound : Sound sb disk) (hinum : inum < sb.ninodes)
  (hd : dinodeAt sb disk inum = d)

include hfile hsound hinum hd

theorem writei_free (hsrc : src.length < 2 ^ 32) (hacc : ¬Refused d off src.length) {r : Int}
    (h : writei sb devsw disk inum d off src = .ok (r, disk', d')) :
    (freeBlocks sb disk').card + growCost (blocksFor d.size.toNat)
        (blocksFor (max d.size.toNat (off.toNat + src.length))) = (freeBlocks sb disk).card := by
  have hdev : d.type ≠ T_DEV := by rw [hfile]; decide
  have htype : d.type ≠ 0 := by rw [hfile]; decide
  rw [writei_accepted hdev hsrc hacc] at h
  obtain ⟨⟨disk1, d1⟩, hloop, h⟩ := bind_eq_ok.mp h
  unfold Refused at hacc
  have hholes := hsound.holes hinum hd htype
  have hk := blocksFor_le.mp (Nat.le_refl (blocksFor d.size.toNat))
  have hwritten := writeLoop_spec hinum hsound.pooled hd htype hholes (by omega) (by omega) _
    (Nat.le_refl _) hloop
  have hfree : freeBlocks sb disk' = freeBlocks sb disk1 := by
    simp only at h
    split_ifs at h
    · cases h
      exact freeBlocks_congr fun b hb => iupdate_of_ge hinum hb
    · cases h
      rfl
  rw [hfree, blocksFor_max]
  exact hwritten.card

omit hfile hinum in
theorem stored_nil (hoff : off.toNat ≤ d.size.toNat) :
    Stored sb disk disk inum d d off.toNat [] := by
  refine ⟨hsound, hd, ⟨d.addrs, d.size, rfl⟩, ?_, ?_, fun i hi hne => ⟨rfl, fun _ => rfl⟩⟩
  · exact (Nat.max_eq_left hoff).symm
  · rw [overwrite, append_nil, length_nil, Nat.add_zero, take_append_drop]

variable (hshort : src.length ≤ maxWrite)
  (hoff : off.toNat ≤ d.size.toNat) (hmax : off.toNat + src.length ≤ MAXFILE * BSIZE)

include hshort hoff hmax

theorem filewrite_stores {r : Int}
    (h : filewrite sb devsw disk inum d off src = .ok (r, disk', d', off')) :
    Stored sb disk disk' inum d d' off.toNat src ∧ off'.toNat = off.toNat + src.length ∧
      (freeBlocks sb disk').card + growCost (blocksFor d.size.toNat)
        (blocksFor (max d.size.toNat (off.toNat + src.length))) = (freeBlocks sb disk).card := by
  by_cases hne : src = []
  · subst hne
    rw [filewrite_nil] at h
    cases h
    refine ⟨stored_nil hsound hd hoff, rfl, ?_⟩
    rw [length_nil, Nat.add_zero, Nat.max_eq_left hoff]
    simp [growCost]
  · have hdev : d.type ≠ T_DEV := by rw [hfile]; decide
    have htype : d.type ≠ 0 := by rw [hfile]; decide
    obtain ⟨hsrc, hfits, hacc⟩ := accepts hoff hmax
    have hpos : 0 < src.length := length_pos_iff.mpr hne
    cases hw : writei sb devsw disk inum d off src with
    | error msg =>
      rw [filewrite_error hne hshort hw] at h
      cases h
    | ok x =>
      obtain ⟨r0, disk1, d1⟩ := x
      obtain ⟨rfl, hstored⟩ := writei_stores hdev hsrc hsound hinum hd htype hacc hw
      have hfree := writei_free hfile hsound hinum hd hsrc hacc hw
      rw [filewrite_short hne hshort hw, if_neg (by omega), if_neg (by simp),
        if_pos (by omega)] at h
      cases h
      refine ⟨hstored, ?_, hfree⟩
      rw [BitVec.ofInt_natCast, BitVec.toNat_add, BitVec.toNat_ofNat]
      omega

theorem filewrite_isOk (hcard : growCost (blocksFor d.size.toNat)
      (blocksFor (max d.size.toNat (off.toNat + src.length))) ≤ (freeBlocks sb disk).card) :
    ∃ r disk' d' off', filewrite sb devsw disk inum d off src = .ok (r, disk', d', off') := by
  by_cases hne : src = []
  · subst hne
    exact ⟨_, _, _, _, filewrite_nil⟩
  · have hdev : d.type ≠ T_DEV := by rw [hfile]; decide
    have htype : d.type ≠ 0 := by rw [hfile]; decide
    obtain ⟨hsrc, -, hacc⟩ := accepts hoff hmax
    have hok : ∃ r disk' d', writei sb devsw disk inum d off src = .ok (r, disk', d') :=
      writei_isOk hdev hsrc hsound hinum hd htype hacc hcard
    obtain ⟨r0, disk1, d1, hw⟩ := hok
    obtain ⟨rfl, -⟩ := writei_stores hdev hsrc hsound hinum hd htype hacc hw
    rw [filewrite_short hne hshort hw, if_neg (by omega), if_neg (by simp)]
    exact ⟨_, _, _, _, rfl⟩

end Sound

end Xv6.Fs
