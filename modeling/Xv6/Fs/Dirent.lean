import Xv6.Fs.Lookup
import Xv6.Lib.Slots

/-!
# Directory entries

The content of a directory as a list of slots.  A slot with inode number 0 is empty; any other one
holds a name, the bytes of its field up to a terminator, of which there need not be one.
-/

namespace Xv6.Fs

open Names Lib List

/-- `strncpy` of `string.c`: what it leaves in the `n` bytes of its target. -/
def strncpy : Nat → List Byte → List Byte
  | 0, _ => []
  | n + 1, t =>
    if t.headD 0 ≠ 0 then t.headD 0 :: strncpy n t.tail else List.replicate (n + 1) 0

/-- The bytes of the `struct dirent` that `dirlink` writes. -/
def newDirent (inum : Nat) (name : List Byte) : List Byte :=
  BitVec.ofNat 8 inum :: BitVec.ofNat 8 (inum / 256) :: strncpy DIRSIZ name

/-- `memset(&de, 0, sizeof(de))` -/
def zeroDirent : List Byte := List.replicate 16 0

/-- What a `struct dirent` says. -/
def slot (de : List Byte) : Option (Name × Nat) :=
  if entryInum de = 0 then none else some (cstr (de.drop 2), entryInum de)

/-- The `i`-th `struct dirent` of a directory. -/
def direntAt (C : List Byte) (i : Nat) : List Byte := (C.drop (16 * i)).take 16

def slots (C : List Byte) : Slots Name Nat :=
  (List.range (C.length / 16)).map fun i => slot (direntAt C i)

def keyOf (name : List Byte) : Name := name.take DIRSIZ

@[simp] theorem strncpy_length (n : Nat) (t : List Byte) : (strncpy n t).length = n := by
  induction n generalizing t with
  | zero => rfl
  | succ n ih =>
    rw [strncpy]
    split_ifs
    · rw [length_cons, ih]
    · rw [length_replicate]

theorem cstr_strncpy (n : Nat) (t : List Byte) : cstr (strncpy n t) = (cstr t).take n := by
  induction n generalizing t with
  | zero => rfl
  | succ n ih =>
    rw [strncpy, cstr_eq t]
    by_cases h : t.headD 0 = 0
    · rw [if_neg (not_not.mpr h), if_pos h]
      exact cstr_append_zeros not_mem_nil (n + 1)
    · rw [if_pos h, if_neg h, take_succ_cons, cstr_eq, headD_cons, if_neg h, tail_cons, ih]

@[simp] theorem newDirent_length (inum : Nat) (name : List Byte) :
    (newDirent inum name).length = 16 := by
  simp [newDirent]

theorem slot_newDirent {inum : Nat} {name : List Byte} (hname : 0 ∉ name) (hpos : 0 < inum)
    (hlt : inum < 65536) : slot (newDirent inum name) = some (keyOf name, inum) := by
  have hinum : entryInum (newDirent inum name) = inum := by
    simp only [entryInum, newDirent, getD_cons_zero, getD_cons_succ, BitVec.toNat_ofNat]
    omega
  rw [slot, hinum, if_neg (by omega)]
  simp only [newDirent, drop_succ_cons, drop_zero, cstr_strncpy, cstr_of_not_mem hname, keyOf]

theorem slot_zeroDirent : slot zeroDirent = none := by
  decide

theorem namecmp_eq_zero_iff {name de : List Byte} (hname : 0 ∉ name) (hde : de.length = 16) :
    namecmp name (de.drop 2) = 0 ↔ keyOf name = cstr (de.drop 2) := by
  have hle : (cstr (de.drop 2)).length ≤ 14 := by
    have hwhole := (takeWhile_sublist (l := de.drop 2) (· != 0)).length_le
    rw [length_drop, hde] at hwhole
    exact hwhole
  rw [namecmp, strncmp_eq_zero_iff, cstr_of_not_mem hname, take_of_length_le hle]
  rfl

section Slots

variable {C : List Byte} {n i : Nat} (hC : C.length = 16 * n) {de : List Byte}

include hC

theorem slots_length : (slots C).length = n := by
  rw [slots, length_map, length_range, hC]
  omega

theorem slots_get (hi : i < n) : (slots C)[i]? = some (slot (direntAt C i)) := by
  have hdiv : C.length / 16 = n := by
    rw [hC]
    omega
  rw [slots, hdiv, getElem?_map, getElem?_range hi]
  rfl

theorem direntAt_length (hi : i < n) : (direntAt C i).length = 16 := by
  rw [direntAt, length_take, length_drop, hC]
  omega

theorem slots_drop (hi : i < n) :
    (slots C).drop i = slot (direntAt C i) :: (slots C).drop (i + 1) := by
  have hlen : i < (slots C).length := by
    rw [slots_length hC]
    exact hi
  have hget := slots_get hC hi
  rw [getElem?_eq_getElem hlen] at hget
  rw [drop_eq_getElem_cons hlen, Option.some.inj hget]

variable (hde : de.length = 16) (hi : i ≤ n)

include hde hi

theorem overwrite_length_dirent : (overwrite C (16 * i) de).length = 16 * max n (i + 1) := by
  rw [overwrite, length_append, length_append, length_take, length_drop, hC, hde]
  omega

theorem direntAt_overwrite (j : Nat) :
    direntAt (overwrite C (16 * i) de) j = if j = i then de else direntAt C j := by
  have hfront : (C.take (16 * i)).length = 16 * i := by
    rw [length_take, hC]
    omega
  unfold direntAt overwrite
  rw [hde]
  split_ifs with hj
  · rw [hj, append_assoc, drop_append_of_le_length (by omega),
      drop_eq_nil_of_le (by omega), nil_append, take_append_of_le_length (by omega),
      take_of_length_le (by omega)]
  · by_cases hlt : j < i
    · rw [append_assoc, drop_append_of_le_length (by omega), drop_take,
        take_append_of_le_length (by rw [length_take, length_drop, hC]; omega),
        take_take, Nat.min_eq_left (by omega)]
    · have hlen : (C.take (16 * i) ++ de).length = 16 * i + 16 := by
        rw [length_append, hfront, hde]
      have hsplit : 16 * j = 16 * i + 16 + (16 * j - (16 * i + 16)) := by omega
      rw [hsplit, ← drop_drop, ← hlen, drop_left, drop_drop, hlen]

theorem slots_overwrite : slots (overwrite C (16 * i) de) = (slots C).put i (slot de) := by
  apply ext_getElem?
  intro j
  have hle : i ≤ (slots C).length := by
    rw [slots_length hC]
    exact hi
  rw [Slots.get_put _ hle]
  have hlen := overwrite_length_dirent hC hde hi
  by_cases hj : j < max n (i + 1)
  · rw [slots_get hlen hj, direntAt_overwrite hC hde hi]
    split_ifs with hji
    · rfl
    · rw [slots_get hC (by omega)]
  · have hend : j ≠ i := by omega
    rw [if_neg hend, getElem?_eq_none (by rw [slots_length hlen]; omega),
      getElem?_eq_none (by rw [slots_length hC]; omega)]

end Slots

end Xv6.Fs
