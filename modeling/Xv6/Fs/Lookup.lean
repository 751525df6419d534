import Xv6.Fs.ByteArray
import Xv6.Names.Path

/-!
# Directories on the disk

`namecmp`, `dirlookup` and `namei` of `fs.c` on the blocks of a disk.  An inode is read
when it is locked; the reference counts play no part here.
-/

namespace Xv6.Fs

open Names List

/-- `strncmp` of `string.c`; behind its end a string is read as zero. -/
def strncmp : Nat → List Byte → List Byte → Int
  | 0, _, _ => 0
  | n + 1, p, q =>
    if p.headD 0 ≠ 0 ∧ p.headD 0 = q.headD 0 then
      strncmp n p.tail q.tail
    else
      (p.headD 0).toNat - (q.headD 0).toNat

def namecmp (s t : List Byte) : Int := strncmp DIRSIZ s t

def entryInum (de : List Byte) : Nat := (de.getD 0 0).toNat + 256 * (de.getD 1 0).toNat

/-- The loop of `dirlookup`, with the rounds it can make: the inode number and `*poff`. -/
def dirLoop (sb : Superblock) (devsw : Devsw) (name : List Byte) :
    Nat → Disk → Dinode → Nat → Except String (Option (Nat × Nat) × Disk × Dinode)
  | 0, disk, d, _ => .ok (none, disk, d)
  | rounds + 1, disk, d, off =>
    if off < d.size.toNat then do
      let (r, disk, d) ← readi sb devsw disk d (BitVec.ofNat 32 off) 16
      match r with
      | none => .error "dirlookup read"
      | some de =>
        if de.length ≠ 16 then .error "dirlookup read"
        else if entryInum de = 0 then dirLoop sb devsw name rounds disk d (off + 16)
        else if namecmp name (de.drop 2) = 0 then .ok (some (entryInum de, off), disk, d)
        else dirLoop sb devsw name rounds disk d (off + 16)
    else
      .ok (none, disk, d)

def dirlookup (sb : Superblock) (devsw : Devsw) (disk : Disk) (d : Dinode) (name : List Byte) :
    Except String (Option (Nat × Nat) × Disk × Dinode) :=
  if d.type ≠ T_DIR then .error "dirlookup not DIR"
  else dirLoop sb devsw name (d.size.toNat / 16 + 1) disk d 0

/-- The loop of `namex` with `nameiparent == 0`; every round shortens the path. -/
def nameiLoop (sb : Superblock) (devsw : Devsw) :
    Nat → Disk → Nat → List Byte → Except String (Option Nat × Disk)
  | 0, disk, ip, _ => .ok (some ip, disk)
  | rounds + 1, disk, ip, path =>
    match skipelem path with
    | none => .ok (some ip, disk)
    | some (name, rest) =>
      let d := dinodeAt sb disk ip
      if d.type = 0 then .error "ilock: no type"
      else if d.type ≠ T_DIR then .ok (none, disk)
      else do
        let (next, disk, _) ← dirlookup sb devsw disk d name
        match next with
        | none => .ok (none, disk)
        | some (inum, _) => nameiLoop sb devsw rounds disk inum rest

/-- `namei` for a process whose directory is the inode `cwd`. -/
def namei (sb : Superblock) (devsw : Devsw) (disk : Disk) (cwd : Nat) (path : List Byte) :
    Except String (Option Nat × Disk) :=
  nameiLoop sb devsw (path.length + 1) disk
    (if path.head? = some slash then ROOTINO else cwd) path

def cstr (s : List Byte) : List Byte := s.takeWhile (· != 0)

theorem cstr_eq (s : List Byte) :
    cstr s = if s.headD 0 = 0 then [] else s.headD 0 :: cstr s.tail := by
  cases s with
  | nil => rfl
  | cons a s =>
    rw [headD_cons, tail_cons, cstr, cstr, takeWhile_cons]
    by_cases ha : a = 0
    · rw [if_pos ha, if_neg (by simp [ha])]
    · rw [if_neg ha, if_pos (by simpa using ha)]

theorem cstr_of_not_mem {s : List Byte} (h : 0 ∉ s) : cstr s = s := by
  rw [cstr, takeWhile_eq_self_iff]
  intro a ha
  have hne : a ≠ 0 := fun hzero => h (by rwa [hzero] at ha)
  simpa using hne

theorem not_mem_cstr (s : List Byte) : 0 ∉ cstr s := fun h => by
  have := mem_takeWhile_imp h
  simp at this

theorem cstr_append_zeros {s : List Byte} (h : 0 ∉ s) (k : Nat) :
    cstr (s ++ List.replicate k 0) = s := by
  induction s with
  | nil => cases k <;> rfl
  | cons a s ih =>
    rw [mem_cons, not_or] at h
    rw [cons_append, cstr_eq, headD_cons, if_neg (Ne.symm h.1), tail_cons, ih h.2]

theorem strncmp_eq_zero_iff {n : Nat} {p q : List Byte} :
    strncmp n p q = 0 ↔ (cstr p).take n = (cstr q).take n := by
  induction n generalizing p q with
  | zero => simp [strncmp]
  | succ n ih =>
    rw [strncmp, cstr_eq p, cstr_eq q]
    by_cases hsame : p.headD 0 = q.headD 0
    · by_cases hzero : q.headD 0 = 0
      · rw [if_neg fun h => h.1 (hsame.trans hzero), hsame, if_pos hzero, if_pos hzero]
        exact iff_of_true (Int.sub_self _) rfl
      · rw [if_pos ⟨fun h => hzero (hsame.symm.trans h), hsame⟩, hsame, if_neg hzero, if_neg hzero,
          take_succ_cons, take_succ_cons, ih]
        simp
    · have hne : (p.headD 0).toNat ≠ (q.headD 0).toNat := fun h =>
        hsame (BitVec.eq_of_toNat_eq h)
      rw [if_neg fun h => hsame h.2]
      refine iff_of_false (by omega) fun heq => hsame ?_
      split_ifs at heq with hp hq hq
      · rw [hp, hq]
      · cases heq
      · cases heq
      · exact (List.cons.inj heq).1

theorem strncmp_eq_zero {n k : Nat} {p q : List Byte} (hp : 0 ∉ p) (hq : 0 ∉ q) :
    strncmp n p (q ++ List.replicate k 0) = 0 ↔ p.take n = q.take n := by
  rw [strncmp_eq_zero_iff, cstr_of_not_mem hp, cstr_append_zeros hq]

theorem readi_below {sb : Superblock} {devsw : Devsw} {disk : Disk} {d : Dinode} {k : Nat}
    {o n : BitVec 32} (hfile : d.type ≠ T_DEV) (hholes : NoHoles disk d k)
    (hsize : o.toNat + n.toNat ≤ d.size.toNat) (hblocks : o.toNat + n.toNat ≤ k * BSIZE) :
    readi sb devsw disk d o n = .ok (some ((List.range n.toNat).map
      fun i => fileByte disk d (o.toNat + i)), disk, d) := by
  have hd := d.size.isLt
  have hsum := toNat_add_of_fits (o := o) (n := n) (by omega)
  unfold readi
  rw [if_neg hfile, if_neg]
  · have hclip : ¬ o + n > d.size := by
      rw [gt_iff_lt, BitVec.lt_def, hsum]
      omega
    simp only [if_neg hclip, readLoop_spec hholes _ _ (Nat.le_refl _) hblocks, bind, Except.bind,
      pure, Except.pure]
  · rw [add_lt_iff_wraps, gt_iff_lt, BitVec.lt_def]
    omega

end Xv6.Fs
