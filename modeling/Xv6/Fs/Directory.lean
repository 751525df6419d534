import Xv6.Fs.Dirent
import Xv6.Fs.File
import Xv6.Lib.Transition

/-!
# A directory is a finite map

`dirlookup` and `dirlink` of `fs.c` on the disk, and the clearing of an entry in `sys_unlink`.  The
directory `dp` is locked by the caller.  Of the reference that `dirlookup` returns only the lock
matters here: `iput` takes it, also when the entry is for the directory itself.
-/

namespace Xv6.Fs

open Names Lib List Option

structure CString where
  bytes : List Byte
  noNul : 0 ∉ bytes

structure Dir where
  disk : Disk
  d : Dinode

/-- `dirlookup(dp, name, &off)` -/
def dirlookupAt (sb : Superblock) (devsw : Devsw) (s : Dir) (name : List Byte) :
    Except String (Option (Nat × Nat) × Dir) := do
  let (r, disk, d) ← dirlookup sb devsw s.disk s.d name
  return (r, ⟨disk, d⟩)

/-- The loop of `dirlink`: the offset of an empty entry, or of the end. -/
def emptyLoop (sb : Superblock) (devsw : Devsw) :
    Nat → Disk → Dinode → Nat → Except String (Nat × Disk × Dinode)
  | 0, disk, d, off => .ok (off, disk, d)
  | rounds + 1, disk, d, off =>
    if off < d.size.toNat then do
      let (r, disk, d) ← readi sb devsw disk d (BitVec.ofNat 32 off) 16
      match r with
      | none => .error "dirlink read"
      | some de =>
        if de.length ≠ 16 then .error "dirlink read"
        else if entryInum de = 0 then .ok (off, disk, d)
        else emptyLoop sb devsw rounds disk d (off + 16)
    else
      .ok (off, disk, d)

/-- `writei(dp, &de, off, sizeof(de))`, which panics with `msg` if it fails. -/
def writeDirent (sb : Superblock) (devsw : Devsw) (dp : Nat) (s : Dir) (off : Nat)
    (de : List Byte) (msg : String) : Outcome Dir Int :=
  match writei sb devsw s.disk dp s.d (BitVec.ofNat 32 off) de with
  | .error e => .panic e
  | .ok (r, disk, d) => if r ≠ 16 then .panic msg else .ok 0 ⟨disk, d⟩

/-- Write a new directory entry into the directory `dp`. -/
def dirlink (sb : Superblock) (devsw : Devsw) (dp : Nat) (s : Dir) (name : List Byte)
    (inum : Nat) : Outcome Dir Int :=
  match dirlookupAt sb devsw s name with
  | .error e => .panic e
  | .ok (some (ip, _), s) =>
    -- `iput(ip)` waits for the lock of `ip`, which the caller holds if it is that of `dp`
    if ip = dp then .blocked else .ok (-1) s
  | .ok (none, s) =>
    match emptyLoop sb devsw (s.d.size.toNat / 16 + 1) s.disk s.d 0 with
    | .error e => .panic e
    | .ok (off, disk, d) => writeDirent sb devsw dp ⟨disk, d⟩ off (newDirent inum name) "dirlink"

/-- The part of `sys_unlink` that looks up the entry and clears it. -/
def clearEntry (sb : Superblock) (devsw : Devsw) (dp : Nat) (s : Dir) (name : List Byte) :
    Outcome Dir Int :=
  match dirlookupAt sb devsw s name with
  | .error e => .panic e
  | .ok (none, s) => .ok (-1) s
  | .ok (some (_, off), s) => writeDirent sb devsw dp s off zeroDirent "unlink: writei"

inductive DirAct where
  | link (name : CString) (inum : Nat)
  | clear (name : CString)

def DirAct.name : DirAct → CString
  | .link name _ => name
  | .clear name => name

def succeeds (r : Outcome Dir Int) : Outcome Dir Unit :=
  match r with
  | .ok r s => if r = 0 then .ok () s else .blocked
  | .blocked => .blocked
  | .panic msg => .panic msg

def dirStep (sb : Superblock) (devsw : Devsw) (dp : Nat) (s : Dir) : DirAct → Outcome Dir Unit
  | .link name inum =>
    if 0 < inum ∧ inum < 65536 then succeeds (dirlink sb devsw dp s name.bytes inum) else .blocked
  | .clear name => succeeds (clearEntry sb devsw dp s name.bytes)

def current : List (Dir × DirAct) → Name → Option Nat
  | [], _ => none
  | (_, .link name inum) :: tr, k => if k = keyOf name.bytes then some inum else current tr k
  | (_, .clear name) :: tr, k => if k = keyOf name.bytes then none else current tr k

/-- A directory on a sound file system, whose entries have different names. -/
structure DirOk (sb : Superblock) (dp : Nat) (s : Dir) : Prop where
  sound : Sound sb s.disk
  dinode : dinodeAt sb s.disk dp = s.d
  type : s.d.type = T_DIR
  size : ∃ n, s.d.size.toNat = 16 * n
  unique : (slots (content s.disk s.d)).Unique

def Dir.slots (s : Dir) : Slots Name Nat := Fs.slots (content s.disk s.d)

variable {sb : Superblock} {devsw : Devsw} {dp : Nat} {s s' : Dir}

section Read

variable {n : Nat} (h : DirOk sb dp s) (hdp : dp < sb.ninodes) (hn : s.d.size.toNat = 16 * n)

include h hdp hn

theorem readi_dirent {i : Nat} (hi : i < n) :
    readi sb devsw s.disk s.d (BitVec.ofNat 32 (16 * i)) 16 =
      .ok (some (direntAt (content s.disk s.d) i), s.disk, s.d) := by
  have hdev : s.d.type ≠ T_DEV := by
    rw [h.type]
    decide
  have hholes : NoHoles s.disk s.d (blocksFor s.d.size.toNat) := by
    have hall := h.sound.noHoles dp hdp (by rw [h.dinode, h.type]; decide)
    rwa [h.dinode] at hall
  have hlt := s.d.size.isLt
  have hoff : (BitVec.ofNat 32 (16 * i)).toNat = 16 * i := by
    rw [BitVec.toNat_ofNat]
    omega
  have hsixteen : (16 : BitVec 32).toNat = 16 := rfl
  rw [readi_reads hdev hholes (by omega), hoff, hsixteen, direntAt]

theorem dirLoop_spec {name : List Byte} (hname : 0 ∉ name) {rounds i : Nat} (hi : i ≤ n)
    (hrounds : n - i < rounds) :
    dirLoop sb devsw name rounds s.disk s.d (16 * i) =
      .ok ((Slots.find (keyOf name) (s.slots.drop i)).map fun x => (x.2, 16 * (i + x.1)),
        s.disk, s.d) := by
  induction rounds generalizing i with
  | zero => omega
  | succ rounds ih =>
    have hC : (content s.disk s.d).length = 16 * n := by rw [length_content, hn]
    rw [dirLoop]
    by_cases hlt : i < n
    · have hdrop : s.slots.drop i = slot (direntAt (content s.disk s.d) i) :: s.slots.drop
          (i + 1) :=
        slots_drop hC hlt
      have hnext := ih (i := i + 1) (by omega) (by omega)
      have hshift : ((Slots.find (keyOf name) (s.slots.drop (i + 1))).map
          fun x => (x.1 + 1, x.2)).map (fun x => (x.2, 16 * (i + x.1))) =
          (Slots.find (keyOf name) (s.slots.drop (i + 1))).map
            fun x => (x.2, 16 * (i + 1 + x.1)) := by
        rw [Option.map_map]
        congr 1
        funext x
        simp only [Function.comp, Nat.add_assoc, Nat.add_comm 1]
      rw [if_pos (by omega), readi_dirent h hdp hn hlt, hdrop]
      simp only [bind, Except.bind, ne_eq, direntAt_length hC hlt, not_true_eq_false,
        if_false, slot]
      split_ifs with hzero hcmp
      · rw [Slots.find, hshift]
        exact hnext
      · rw [Slots.find, if_pos ((namecmp_eq_zero_iff hname (direntAt_length hC hlt)).mp hcmp)]
        rfl
      · rw [Slots.find, if_neg fun heq =>
          hcmp ((namecmp_eq_zero_iff hname (direntAt_length hC hlt)).mpr heq), hshift]
        exact hnext
    · have hend : s.slots.drop i = [] := by
        rw [drop_eq_nil_iff, Dir.slots, slots_length hC]
        omega
      rw [if_neg (by omega), hend]
      rfl

theorem emptyLoop_spec {rounds i : Nat} (hi : i ≤ n) (hrounds : n - i < rounds) :
    emptyLoop sb devsw rounds s.disk s.d (16 * i) =
      .ok (16 * (i + Slots.firstFree (s.slots.drop i)), s.disk, s.d) := by
  induction rounds generalizing i with
  | zero => omega
  | succ rounds ih =>
    have hC : (content s.disk s.d).length = 16 * n := by rw [length_content, hn]
    rw [emptyLoop]
    by_cases hlt : i < n
    · have hdrop : s.slots.drop i = slot (direntAt (content s.disk s.d) i) :: s.slots.drop
          (i + 1) :=
        slots_drop hC hlt
      have hnext := ih (i := i + 1) (by omega) (by omega)
      rw [if_pos (by omega), readi_dirent h hdp hn hlt, hdrop]
      simp only [bind, Except.bind, ne_eq, direntAt_length hC hlt, not_true_eq_false,
        if_false, slot]
      split_ifs with hzero
      · rfl
      · have hsum : i + (Slots.firstFree (s.slots.drop (i + 1)) + 1) =
            i + 1 + Slots.firstFree (s.slots.drop (i + 1)) := by omega
        rw [Slots.firstFree, hsum]
        exact hnext
    · have hend : s.slots.drop i = [] := by
        rw [drop_eq_nil_iff, Dir.slots, slots_length hC]
        omega
      rw [if_neg (by omega), hend]
      rfl

end Read

theorem dirlookupAt_spec (h : DirOk sb dp s) (hdp : dp < sb.ninodes) (name : CString) :
    dirlookupAt sb devsw s name.bytes =
      .ok ((Slots.find (keyOf name.bytes) s.slots).map fun x => (x.2, 16 * x.1), s) := by
  obtain ⟨n, hn⟩ := h.size
  have hscan : dirLoop sb devsw name.bytes (s.d.size.toNat / 16 + 1) s.disk s.d (16 * 0) = _ :=
    dirLoop_spec h hdp hn name.noNul (Nat.zero_le n) (by omega)
  simp only [Nat.mul_zero, drop_zero, Nat.zero_add] at hscan
  rw [dirlookupAt, dirlookup, if_neg (not_not.mpr h.type), hscan]
  rfl

theorem writeDirent_spec (h : DirOk sb dp s) (hdp : dp < sb.ninodes) {n i : Nat}
    (hn : s.d.size.toNat = 16 * n) (hi : i ≤ n) {de : List Byte} (hde : de.length = 16)
    (hunique : (s.slots.put i (slot de)).Unique) {msg : String} {r : Int}
    (hok : writeDirent sb devsw dp s (16 * i) de msg = .ok r s') :
    r = 0 ∧ DirOk sb dp s' ∧ s'.slots = s.slots.put i (slot de) := by
  have hdev : s.d.type ≠ T_DEV := by
    rw [h.type]
    decide
  have halloc : s.d.type ≠ 0 := by
    rw [h.type]
    decide
  have hlt := s.d.size.isLt
  have hoff : (BitVec.ofNat 32 (16 * i)).toNat = 16 * i := by
    rw [BitVec.toNat_ofNat]
    omega
  unfold writeDirent at hok
  split at hok
  · cases hok
  · case _ r' disk d hw =>
    rcases writei_cases hdev (by omega) hw with ⟨rfl, -, -⟩ | ⟨rfl, -, href⟩
    · cases hok
    · rw [if_neg (by rw [hde]; decide)] at hok
      cases hok
      obtain ⟨-, hstored⟩ :=
        writei_stores hdev (by omega) h.sound hdp h.dinode halloc href hw
      have hC : (content s.disk s.d).length = 16 * n := by rw [length_content, hn]
      have hslots : Dir.slots ⟨disk, d⟩ = s.slots.put i (slot de) := by
        rw [Dir.slots, hstored.content, hoff]
        exact slots_overwrite hC hde hi
      refine ⟨rfl, ⟨hstored.sound, hstored.dinode, ?_, ⟨max n (i + 1), ?_⟩, ?_⟩, hslots⟩
      · obtain ⟨addrs, size, rfl⟩ := hstored.fields
        exact h.type
      · rw [hstored.size, hoff, hde, hn]
        omega
      · change (Dir.slots ⟨disk, d⟩).Unique
        rw [hslots]
        exact hunique

section Calls

variable (h : DirOk sb dp s) (hdp : dp < sb.ninodes) (name : CString) {inum : Nat}

include h hdp

theorem dirlink_found {i v : Nat} (hfound : Slots.find (keyOf name.bytes) s.slots = some (i, v)) :
    dirlink sb devsw dp s name.bytes inum = if v = dp then .blocked else .ok (-1) s := by
  rw [dirlink, dirlookupAt_spec h hdp name, hfound]
  rfl

theorem dirlink_new (hnew : Slots.find (keyOf name.bytes) s.slots = none) (hpos : 0 < inum)
    (hlt : inum < 65536) {r : Int} (hok : dirlink sb devsw dp s name.bytes inum = .ok r s') :
    r = 0 ∧ DirOk sb dp s' ∧ s'.slots = s.slots.put s.slots.firstFree
      (some (keyOf name.bytes, inum)) := by
  obtain ⟨n, hn⟩ := h.size
  have hC : (content s.disk s.d).length = 16 * n := by rw [length_content, hn]
  have hempty : emptyLoop sb devsw (s.d.size.toNat / 16 + 1) s.disk s.d (16 * 0) = _ :=
    emptyLoop_spec h hdp hn (Nat.zero_le n) (by omega)
  simp only [Nat.mul_zero, drop_zero, Nat.zero_add] at hempty
  rw [dirlink, dirlookupAt_spec h hdp name, hnew] at hok
  simp only [map_none, hempty] at hok
  have hfree := s.slots.firstFree_le
  have hslot := slot_newDirent name.noNul hpos hlt
  have hunique := h.unique.add (v := inum) hnew hfree
  have hlen : s.slots.length = n := slots_length hC
  rw [← hslot] at hunique ⊢
  exact writeDirent_spec h hdp hn (by omega) (newDirent_length inum name.bytes) hunique hok

theorem clearEntry_found {i v : Nat} (hfound : Slots.find (keyOf name.bytes) s.slots = some (i, v))
    {r : Int} (hok : clearEntry sb devsw dp s name.bytes = .ok r s') :
    r = 0 ∧ DirOk sb dp s' ∧ s'.slots = s.slots.put i none := by
  obtain ⟨n, hn⟩ := h.size
  have hC : (content s.disk s.d).length = 16 * n := by rw [length_content, hn]
  rw [clearEntry, dirlookupAt_spec h hdp name, hfound] at hok
  have hlt := Slots.find_lt hfound
  have hlen : s.slots.length = n := slots_length hC
  have hunique := h.unique.remove hfound
  rw [← slot_zeroDirent] at hunique ⊢
  exact writeDirent_spec h hdp hn (by omega) (by decide) hunique hok

theorem dirStep_cases {a : DirAct} (hstep : dirStep sb devsw dp s a = .ok () s') : DirOk sb dp s' ∧
      ((∃ name inum, a = .link name inum ∧ Slots.find (keyOf name.bytes) s.slots = none ∧
          s'.slots = s.slots.put s.slots.firstFree (some (keyOf name.bytes, inum))) ∨
        ∃ name i v, a = .clear name ∧ Slots.find (keyOf name.bytes) s.slots = some (i, v) ∧
          s'.slots = s.slots.put i none) := by
  cases a with
  | link name inum =>
    simp only [dirStep] at hstep
    split_ifs at hstep with hrange
    unfold succeeds at hstep
    split at hstep
    · case _ r s1 hok =>
      split_ifs at hstep with hzero
      · cases hstep
        cases hfind : Slots.find (keyOf name.bytes) s.slots with
        | some x =>
          obtain ⟨i, v⟩ := x
          rw [dirlink_found h hdp name hfind] at hok
          split_ifs at hok
          cases hok
          cases hzero
        | none =>
          obtain ⟨-, hdir, hslots⟩ := dirlink_new h hdp name hfind hrange.1 hrange.2 hok
          exact ⟨hdir, Or.inl ⟨name, inum, rfl, hfind, hslots⟩⟩
    · cases hstep
    · cases hstep
  | clear name =>
    simp only [dirStep, succeeds] at hstep
    split at hstep
    · case _ r s1 hok =>
      split_ifs at hstep with hzero
      · cases hstep
        cases hfind : Slots.find (keyOf name.bytes) s.slots with
        | some x =>
          obtain ⟨i, v⟩ := x
          obtain ⟨-, hdir, hslots⟩ := clearEntry_found h hdp name hfind hok
          exact ⟨hdir, Or.inr ⟨name, i, v, rfl, hfind, hslots⟩⟩
        | none =>
          rw [clearEntry, dirlookupAt_spec h hdp name, hfind] at hok
          cases hok
          cases hzero
    · cases hstep
    · cases hstep

theorem find_other {a : DirAct} (hstep : dirStep sb devsw dp s a = .ok () s') {k : Name}
    (hk : k ≠ keyOf a.name.bytes) : Slots.find k s'.slots = Slots.find k s.slots := by
  obtain ⟨-, ⟨name, inum, rfl, hfind, hslots⟩ | ⟨name, i, v, rfl, hfind, hslots⟩⟩ :=
    dirStep_cases h hdp hstep
  · rw [hslots]
    exact Slots.find_add_ne h.unique hfind s.slots.firstFree_le s.slots.get_firstFree hk
  · rw [hslots]
    exact Slots.find_remove_ne h.unique hfind hk

end Calls

/-- The invariant of a run: the map in the directory is that of its history. -/
structure DirInv (sb : Superblock) (dp : Nat) (tr : List (Dir × DirAct)) (s : Dir) : Prop where
  dir : DirOk sb dp s
  current : ∀ k, (Slots.find k s.slots).map Prod.snd = current tr k

theorem dirInv_init {disk : Disk} {d : Dinode} (hsound : Sound sb disk)
    (hd : dinodeAt sb disk dp = d) (htype : d.type = T_DIR) (hempty : d.size = 0) :
    DirInv sb dp [] ⟨disk, d⟩ := by
  have hslots : Fs.slots (content disk d) = [] := by
    simp [content, hempty, Fs.slots]
  refine ⟨⟨hsound, hd, htype, ⟨0, by simp [hempty]⟩, ?_⟩, fun k => ?_⟩
  · intro i j k v w hi
    simp [hslots] at hi
  · rw [Dir.slots, hslots]
    rfl

theorem dirInv_step {tr : List (Dir × DirAct)} {a : DirAct} (h : DirInv sb dp tr s)
    (hdp : dp < sb.ninodes) (hstep : dirStep sb devsw dp s a = .ok () s') :
    DirInv sb dp ((s, a) :: tr) s' := by
  obtain ⟨hdir, hcase⟩ := dirStep_cases h.dir hdp hstep
  refine ⟨hdir, fun k => ?_⟩
  by_cases hk : k = keyOf a.name.bytes
  · obtain ⟨name, inum, rfl, hfind, hslots⟩ | ⟨name, i, v, rfl, hfind, hslots⟩ := hcase
    · have hk : k = keyOf name.bytes := hk
      have hfound : Slots.find (keyOf name.bytes)
          (s.slots.put s.slots.firstFree (some (keyOf name.bytes, inum))) = _ :=
        Slots.find_add h.dir.unique hfind s.slots.firstFree_le
      rw [current, if_pos hk, hk, hslots, hfound]
      rfl
    · have hk : k = keyOf name.bytes := hk
      have hnone : Slots.find (keyOf name.bytes) (s.slots.put i none) = none :=
        Slots.find_remove h.dir.unique hfind
      rw [current, if_pos hk, hk, hslots, hnone]
      rfl
  · rw [find_other h.dir hdp hstep hk, h.current k]
    cases a with
    | link name inum | clear name => exact (if_neg hk).symm

theorem DirOk.names_differ (h : DirOk sb dp s) {i j : Nat} (hi : 16 * i < s.d.size.toNat)
    (hj : 16 * j < s.d.size.toNat) (hij : i ≠ j)
    (hi' : entryInum (direntAt (content s.disk s.d) i) ≠ 0)
    (hj' : entryInum (direntAt (content s.disk s.d) j) ≠ 0) :
    namecmp ((direntAt (content s.disk s.d) i).drop 2)
      ((direntAt (content s.disk s.d) j).drop 2) ≠ 0 := by
  obtain ⟨n, hn⟩ := h.size
  have hC : (content s.disk s.d).length = 16 * n := by rw [length_content, hn]
  have hlen : ∀ l, 16 * l < s.d.size.toNat →
      (cstr ((direntAt (content s.disk s.d) l).drop 2)).length ≤ DIRSIZ := fun l hl => by
    have hwhole := (takeWhile_sublist (l := (direntAt (content s.disk s.d) l).drop 2)
      (· != 0)).length_le
    rw [length_drop, direntAt_length hC (by omega)] at hwhole
    exact hwhole
  intro heq
  rw [namecmp, strncmp_eq_zero_iff, take_of_length_le (hlen i hi),
    take_of_length_le (hlen j hj)] at heq
  have hgeti := slots_get hC (show i < n by omega)
  have hgetj := slots_get hC (show j < n by omega)
  rw [slot, if_neg hi'] at hgeti
  rw [slot, if_neg hj', ← heq] at hgetj
  exact hij (h.unique i j _ _ _ hgeti hgetj)

/-- A directory is a finite map from names, cut to `DIRSIZ` bytes, to inode numbers.  `dirlink` of a
name that is there fails and changes nothing, unless the entry is for the directory itself. -/
theorem directory_is_finite_map (sb : Superblock) (devsw : Devsw) (disk : Disk)
    (hsound : Sound sb disk) (dp : Nat) (hdp : dp < sb.ninodes) (d : Dinode)
    (hd : dinodeAt sb disk dp = d) (htype : d.type = T_DIR) (hempty : d.size = 0)
    (tr : List (Dir × DirAct)) (s : Dir) (htr : Trace (dirStep sb devsw dp) ⟨disk, d⟩ tr s) :
    (∀ i j, 16 * i < s.d.size.toNat → 16 * j < s.d.size.toNat → i ≠ j →
      entryInum (direntAt (content s.disk s.d) i) ≠ 0 →
      entryInum (direntAt (content s.disk s.d) j) ≠ 0 →
      namecmp ((direntAt (content s.disk s.d) i).drop 2)
        ((direntAt (content s.disk s.d) j).drop 2) ≠ 0) ∧
    (∀ name : CString, ∃ r, dirlookupAt sb devsw s name.bytes = .ok (r, s) ∧
      r.map Prod.fst = current tr (keyOf name.bytes) ∧
      ∀ inum off, r = some (inum, off) → ∃ i, off = 16 * i ∧
        slot (direntAt (content s.disk s.d) i) = some (keyOf name.bytes, inum)) ∧
    (∀ (name : CString) inum, 0 < inum → inum < 65536 →
      ((dirlink sb devsw dp s name.bytes inum = .ok (-1) s ↔
          current tr (keyOf name.bytes) ≠ none) ↔ current tr (keyOf name.bytes) ≠ some dp) ∧
      ∀ r s', dirlink sb devsw dp s name.bytes inum = .ok r s' → r ≠ 0 → r = -1 ∧ s' = s) ∧
    (∀ a s' (name : CString), dirStep sb devsw dp s a = .ok () s' →
      keyOf name.bytes ≠ keyOf a.name.bytes →
      (dirlookupAt sb devsw s' name.bytes).map Prod.fst =
        (dirlookupAt sb devsw s name.bytes).map Prod.fst) := by
  have h : DirInv sb dp tr s := by
    apply htr.invariant (I := fun tr s => DirInv sb dp tr s)
    · exact dirInv_init hsound hd htype hempty
    · intro tr s a s' _ h hstep
      exact dirInv_step h hdp hstep
  refine ⟨fun i j hi hj hij => h.dir.names_differ hi hj hij, fun name => ?_,
    fun name inum hpos hlt => ?_, fun a s' name hstep hne => ?_⟩
  · refine ⟨_, dirlookupAt_spec h.dir hdp name, ?_, fun inum off hr => ?_⟩
    · rw [← h.current, Option.map_map]
      rfl
    · obtain ⟨⟨i, v⟩, hfind, heq⟩ := Option.map_eq_some_iff.mp hr
      cases heq
      obtain ⟨n, hn⟩ := h.dir.size
      have hC : (content s.disk s.d).length = 16 * n := by rw [length_content, hn]
      have hi := Slots.find_lt hfind
      have hget := Slots.find_eq_some hfind
      have hlen : s.slots.length = n := slots_length hC
      rw [Dir.slots, slots_get hC (by omega)] at hget
      exact ⟨i, rfl, Option.some.inj hget⟩
  · have hcurrent := h.current (keyOf name.bytes)
    cases hfind : Slots.find (keyOf name.bytes) s.slots with
    | none =>
      rw [hfind] at hcurrent
      rw [← hcurrent]
      refine ⟨?_, fun r s' hok hne => absurd ?_ hne⟩
      · refine iff_of_true (iff_of_false (fun hok => ?_) (fun hsome => hsome rfl)) nofun
        have hzero := (dirlink_new h.dir hdp name hfind hpos hlt hok).1
        cases hzero
      · exact (dirlink_new h.dir hdp name hfind hpos hlt hok).1
    | some x =>
      obtain ⟨i, v⟩ := x
      rw [hfind] at hcurrent
      rw [← hcurrent, dirlink_found h.dir hdp name hfind]
      split_ifs with hself
      · refine ⟨iff_of_false (fun hiff => ?_) (fun hne => hne (by rw [hself]; rfl)), nofun⟩
        cases hiff.mpr nofun
      · refine ⟨iff_of_true (iff_of_true rfl nofun) (fun heq => hself ?_), fun r s' hok _ => ?_⟩
        · exact Option.some.inj heq
        · cases hok
          exact ⟨rfl, rfl⟩
  · have h' := dirInv_step h hdp hstep
    rw [dirlookupAt_spec h'.dir hdp name, dirlookupAt_spec h.dir hdp name,
      find_other h.dir hdp hstep hne]
    rfl

def emptyDir : Dinode := { Dinode.zero with type := T_DIR, nlink := 1 }

def tinyDir : Dir := ⟨iupdate tinySuperblock (blank tinySuperblock) 1 emptyDir, emptyDir⟩

def dotString : CString := ⟨[46], by decide⟩

theorem sound_tinyDir : Sound tinySuperblock tinyDir.disk := sound_tiny (fun _ => rfl) rfl

theorem dirInv_tinyDir : DirInv tinySuperblock 1 [] tinyDir :=
  dirInv_init sound_tinyDir (dinodeAt_iupdate_same _ _ _ _) rfl rfl

theorem tinyDir_links_dot : ∃ s, dirStep tinySuperblock noDevs 1 tinyDir
    (.link dotString 1) = .ok () s := by
  have href : ¬ Refused tinyDir.d 0 (newDirent 1 dotString.bytes).length := by
    unfold Refused
    decide
  have hsome : ∃ r disk d, writei tinySuperblock noDevs tinyDir.disk 1
      tinyDir.d 0 (newDirent 1 dotString.bytes) = .ok (r, disk, d) :=
    writei_isOk (by decide) (by decide) sound_tinyDir (by decide) (dinodeAt_iupdate_same _ _ _ _)
      (by decide) href (Nat.le_trans (by decide) free_tiny)
  obtain ⟨r, disk, d, hw⟩ := hsome
  obtain ⟨rfl, -⟩ := writei_stores (by decide) (by decide) sound_tinyDir (by decide)
    (dinodeAt_iupdate_same _ _ _ _) (by decide) href hw
  have hnew : Slots.find (keyOf dotString.bytes) tinyDir.slots = none := by
    have hcurrent := dirInv_tinyDir.current (keyOf dotString.bytes)
    exact map_eq_none_iff.mp hcurrent
  have hlook : dirlookupAt tinySuperblock noDevs tinyDir
      dotString.bytes = _ :=
    dirlookupAt_spec dirInv_tinyDir.dir (by decide) dotString
  have hempty : emptyLoop tinySuperblock noDevs
      (tinyDir.d.size.toNat / 16 + 1) tinyDir.disk tinyDir.d 0 = .ok (0, tinyDir.disk, tinyDir.d) :=
    rfl
  have hlink : dirlink tinySuperblock noDevs 1 tinyDir dotString.bytes 1 =
      .ok 0 ⟨disk, d⟩ := by
    rw [dirlink, hlook, hnew]
    simp only [map_none, hempty, writeDirent]
    rw [show BitVec.ofNat 32 0 = 0 from rfl, hw]
    rfl
  refine ⟨⟨disk, d⟩, ?_⟩
  simp only [dirStep, hlink, succeeds]
  rfl

/-- `link("f", ".")`: the second `dirlink` of `.` waits for the lock of the directory itself. -/
theorem link_to_dot_blocks : ∃ s s',
    Trace (dirStep tinySuperblock noDevs 1) tinyDir
      [(s, .link dotString 1)] s' ∧
    current [(s, .link dotString 1)] (keyOf dotString.bytes) ≠ none ∧
    dirlink tinySuperblock noDevs 1 s' dotString.bytes 2 = .blocked := by
  obtain ⟨s', hstep⟩ := tinyDir_links_dot
  have h := dirInv_step dirInv_tinyDir (by decide) hstep
  refine ⟨tinyDir, s', .cons .nil hstep, by decide, ?_⟩
  have hcurrent := h.current (keyOf dotString.bytes)
  obtain ⟨⟨i, v⟩, hfind, hv⟩ := Option.map_eq_some_iff.mp (hcurrent.trans (by decide : _ = some 1))
  rw [dirlink_found h.dir (by decide) dotString hfind, if_pos hv]

theorem dot_looked_up : ∃ s s',
    Trace (dirStep tinySuperblock noDevs 1) tinyDir
      [(s, .link dotString 1)] s' ∧
    (dirlookupAt tinySuperblock noDevs s' dotString.bytes).map
      (Option.map Prod.fst ∘ Prod.fst) = .ok (some 1) := by
  obtain ⟨s', hstep⟩ := tinyDir_links_dot
  have htr := Trace.cons .nil hstep
  obtain ⟨-, hlook, -⟩ := directory_is_finite_map tinySuperblock noDevs
    tinyDir.disk sound_tinyDir 1 (by decide) emptyDir (dinodeAt_iupdate_same _ _ _ _) rfl rfl
    _ s' htr
  obtain ⟨r, hr, hinum, -⟩ := hlook dotString
  refine ⟨tinyDir, s', htr, ?_⟩
  rw [hr]
  exact congrArg Except.ok (hinum.trans (by decide))

end Xv6.Fs
