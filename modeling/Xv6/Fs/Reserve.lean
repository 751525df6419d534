import Xv6.Fs.File

/-!
# The blocks of one write

The calls of `log_write` that one `writei` makes: the data blocks, the bitmap block and the zeroed
block of every allocation, the indirect block and the block of the inode.  A chunk of `filewrite`
logs at most `MAXOPBLOCKS` different ones, because an unaligned chunk starts in a block the file
already has.
-/

namespace Xv6.Fs

open Lib Function List

variable {sb : Superblock} {disk disk' : Disk} {din : Nat → Dinode} {inum : Nat} {d d' : Dinode}
  {a bn off : Nat} {src : List Byte} {log : List Nat}

/-- The blocks `balloc` passes to `log_write`, the second one in `bzero`. -/
def ballocLog (sb : Superblock) (disk : Disk) : List Nat :=
  match findFree sb disk with
  | some (b, bi) => [sb.bblock b, b + bi]
  | none => []

def addrAtLog (sb : Superblock) (disk : Disk) (d : Dinode) (i : Fin (NDIRECT + 1)) : List Nat :=
  if d.addrs i = 0 then ballocLog sb disk else []

/-- The blocks `bmap` passes to `log_write`. -/
def bmapLog (sb : Superblock) (disk : Disk) (d : Dinode) (bn : Nat) : List Nat :=
  if h : bn < NDIRECT then
    addrAtLog sb disk d ⟨bn, Nat.lt_succ_of_lt h⟩
  else if bn - NDIRECT < NINDIRECT then
    addrAtLog sb disk d (Fin.last NDIRECT) ++
      match addrAt sb disk d (Fin.last NDIRECT) with
      | .error _ => []
      | .ok (addr, disk, _) =>
        if (disk addr).word (bn - NDIRECT) = 0 then
          ballocLog sb disk ++
            match balloc sb disk with
            | .error _ => []
            | .ok _ => [addr]
        else []
  else []

/-- The blocks the loop of `writei` passes to `log_write`. -/
def writeLoopLog (sb : Superblock) : Nat → Disk → Dinode → Nat → List Byte → List Nat
  | 0, _, _, _, _ => []
  | rounds + 1, disk, d, off, src =>
    if src = [] then []
    else
      bmapLog sb disk d (off / BSIZE) ++
        match bmap sb disk d (off / BSIZE) with
        | .error _ => []
        | .ok (addr, disk, d) =>
          let m := min src.length (BSIZE - off % BSIZE)
          let bp := putBytes (disk addr) (off % BSIZE) (src.take m)
          addr :: writeLoopLog sb rounds (update disk addr bp) d (off + m) (src.drop m)

/-- The blocks `writei` passes to `log_write`, the last one in `iupdate`. -/
def writeiLog (sb : Superblock) (disk : Disk) (inum : Nat) (d : Dinode) (off : BitVec 32)
    (src : List Byte) : List Nat :=
  let n := BitVec.ofNat 32 src.length
  if d.type = T_DEV then []
  else if off > d.size ∨ off + n < off then []
  else if off + n > BitVec.ofNat 32 (MAXFILE * BSIZE) then []
  else
    writeLoopLog sb src.length disk d off.toNat src ++
      match writeLoop sb src.length disk d off.toNat src with
      | .error _ => []
      | .ok (_, d) => if n > 0 ∧ off + n > d.size then [sb.iblock inum] else []

theorem bmapLog_found (hne : blockOf disk d bn ≠ 0) : bmapLog sb disk d bn = [] := by
  rcases blockOf_cases hne with ⟨hdirect, haddr, -⟩ | ⟨hdirect, hrange, hlast, hword, -⟩
  · rw [bmapLog, dif_pos hdirect, addrAtLog, if_neg haddr]
  · rw [bmapLog, dif_neg hdirect, if_pos hrange, addrAtLog, if_neg hlast, addrAt, if_neg hlast]
    simp only [pure, Except.pure, if_neg hword, append_nil]

theorem ballocLog_ok (h : balloc sb disk = .ok (a, disk')) : ∃ m, ballocLog sb disk = [m, a] := by
  unfold balloc at h
  split at h
  · case _ b bi hfind =>
    cases h
    exact ⟨sb.bblock b, by rw [ballocLog, hfind]⟩
  · cases h

variable {msg : String}

theorem ballocLog_error (h : balloc sb disk = .error msg) : ballocLog sb disk = [] := by
  unfold balloc at h
  split at h
  · cases h
  · case _ hfind => rw [ballocLog, hfind]

def indirect (d : Dinode) : Nat := (d.addrs (Fin.last NDIRECT)).toNat

def missing (d : Dinode) : Nat := if indirect d = 0 then 1 else 0

/-- What `bmap` does to the pool and what it logs: the bitmap blocks `S`, the block it returns and
the indirect block. -/
structure Logged (sb : Superblock) (disk disk' : Disk) (din : Nat → Dinode) (inum : Nat)
    (d d' : Dinode) (bn a : Nat) : Prop where
  pooled : Pooled sb disk' (update din inum d') ∅
  fields : ∃ addrs, d' = { d with addrs := addrs }
  block : blockOf disk' d' bn = a
  ne : a ≠ 0
  kept : indirect d ≠ 0 → indirect d' = indirect d
  log : ∃ S : Finset Nat, S.card + missing d' ≤ 1 + missing d ∧
    ∀ b ∈ bmapLog sb disk d bn, b ∈ S ∨ b = a ∨ indirect d' ≠ 0 ∧ b = indirect d'

section Alloc

variable (hpool : Pooled sb disk din ∅) (hd : din inum = d) (hinum : inum < sb.ninodes)
  (htype : d.type ≠ 0)

include hpool hd hinum htype

theorem logged_direct (hdirect : bn < NDIRECT)
    (hempty : d.addrs ⟨bn, Nat.lt_succ_of_lt hdirect⟩ = 0)
    (hballoc : balloc sb disk = .ok (a, disk')) :
    Logged sb disk disk' din inum d
      (d.setAddr ⟨bn, Nat.lt_succ_of_lt hdirect⟩ (BitVec.ofNat 32 a)) bn a := by
  have hslot : slotOf bn = bn := if_pos hdirect
  have halloc := balloc_spec hpool.reserved hballoc
  have hnone : slotAt disk d (slotOf bn) = 0 := by
    rw [hslot, slotAt_direct _ _ (Nat.lt_succ_of_lt hdirect), hempty]
    rfl
  have hset := slotSet_addr hpool hd hinum htype hnone halloc
    (i := ⟨bn, Nat.lt_succ_of_lt hdirect⟩) hslot
  have hlast : (Fin.last NDIRECT) ≠ ⟨bn, Nat.lt_succ_of_lt hdirect⟩ := fun heq =>
    absurd (congrArg Fin.val heq).symm (Nat.ne_of_lt hdirect)
  have hind : indirect (d.setAddr ⟨bn, Nat.lt_succ_of_lt hdirect⟩ (BitVec.ofNat 32 a)) =
      indirect d := by
    simp only [indirect, Dinode.setAddr, update_of_ne hlast]
  obtain ⟨m, hlog⟩ := ballocLog_ok hballoc
  refine ⟨hset.pooled, hset.fields, ?_, hset.ne, fun _ => hind, {m}, ?_, fun b hb => ?_⟩
  · unfold blockOf
    rw [hset.slots, if_pos rfl]
  · unfold missing
    rw [hind, Finset.card_singleton]
  · rw [bmapLog, dif_pos hdirect, addrAtLog, if_pos hempty, hlog] at hb
    rcases mem_pair.mp hb with rfl | rfl
    · exact Or.inl (Finset.mem_singleton_self b)
    · exact Or.inr (Or.inl rfl)

section

variable (hdirect : ¬bn < NDIRECT) (hrange : bn - NDIRECT < NINDIRECT)

include hdirect hrange

section

variable (hind : indirect d ≠ 0)
  (hempty : (disk (indirect d)).word (bn - NDIRECT) = 0) (hballoc : balloc sb disk = .ok (a, disk'))

include hind hempty hballoc

theorem slotSet_newEntry :
    SlotSet sb disk (update disk' (indirect d)
      ((disk' (indirect d)).setWord (bn - NDIRECT) (BitVec.ofNat 32 a))) din inum d d
      (slotOf bn) a := by
  have hslot : slotOf bn = NDIRECT + 1 + (bn - NDIRECT) := by
    unfold slotOf
    rw [if_neg hdirect]
    omega
  have hnone : slotAt disk d (slotOf bn) = 0 := by
    rw [hslot, slotAt_indirect _ hrange (toNat_ne_zero.mp hind)]
    change ((disk (indirect d)).word (bn - NDIRECT)).toNat = 0
    rw [hempty]
    rfl
  exact slotSet_entry hpool hd hinum htype hnone (balloc_spec hpool.reserved hballoc) hrange hslot
    rfl hind (update_self _ _ _) fun b hb => update_of_ne hb _ _

theorem logged_entry :
    Logged sb disk (update disk' (indirect d)
      ((disk' (indirect d)).setWord (bn - NDIRECT) (BitVec.ofNat 32 a))) din inum d d bn a := by
  have hset := slotSet_newEntry hpool hd hinum htype hdirect hrange hind hempty hballoc
  have hlast := toNat_ne_zero.mp hind
  obtain ⟨m, hm⟩ := ballocLog_ok hballoc
  have hlog : bmapLog sb disk d bn = [m, a, indirect d] := by
    rw [bmapLog, dif_neg hdirect, if_pos hrange, addrAtLog, if_neg hlast, addrAt, if_neg hlast]
    change (if (disk (indirect d)).word (bn - NDIRECT) = 0 then _ else _) = _
    rw [if_pos hempty, hm, hballoc]
    rfl
  refine ⟨hset.pooled, hset.fields, ?_, hset.ne, fun _ => rfl, {m}, ?_, fun b hb => ?_⟩
  · unfold blockOf
    rw [hset.slots, if_pos rfl]
  · rw [Finset.card_singleton]
  · rw [hlog] at hb
    simp only [mem_cons, not_mem_nil, or_false] at hb
    rcases hb with rfl | rfl | rfl
    · exact Or.inl (Finset.mem_singleton_self b)
    · exact Or.inr (Or.inl rfl)
    · exact Or.inr (Or.inr ⟨hind, rfl⟩)

end

theorem logged_indirect {A : Nat} {disk1 disk2 : Disk} (hlast : d.addrs (Fin.last NDIRECT) = 0)
    (hfirst : balloc sb disk = .ok (A, disk1)) (hsecond : balloc sb disk1 = .ok (a, disk2)) :
    Logged sb disk (update disk2 A
      ((disk2 A).setWord (bn - NDIRECT) (BitVec.ofNat 32 a))) din inum d
      (d.setAddr (Fin.last NDIRECT) (BitVec.ofNat 32 A)) bn a := by
  have halloc := balloc_spec hpool.reserved hfirst
  have hnone : slotAt disk d NDIRECT = 0 := by
    rw [slotAt_direct disk d (Nat.lt_succ_self NDIRECT)]
    exact congrArg BitVec.toNat hlast
  have hset1 := slotSet_addr hpool hd hinum htype hnone halloc (i := Fin.last NDIRECT) rfl
  have hind : indirect (d.setAddr (Fin.last NDIRECT) (BitVec.ofNat 32 A)) = A := by
    simp only [indirect, Dinode.setAddr, update_self]
    exact toNat_ofNat_lt halloc.lt
  have hempty : (disk1 A).word (bn - NDIRECT) = 0 := by
    rw [hset1.zero]
    simp [Block.word]
  have hset2 := slotSet_newEntry hset1.pooled (update_self _ _ _) hinum htype hdirect
    hrange (by rw [hind]; exact hset1.ne) (by rw [hind]; exact hempty) hsecond
  rw [hind] at hset2
  obtain ⟨m1, hm1⟩ := ballocLog_ok hfirst
  obtain ⟨m2, hm2⟩ := ballocLog_ok hsecond
  have hlog : bmapLog sb disk d bn = [m1, A, m2, a, A] := by
    rw [bmapLog, dif_neg hdirect, if_pos hrange, addrAtLog, if_pos hlast, addrAt, if_pos hlast,
      hm1, hfirst]
    change _ ++ (if (disk1 A).word (bn - NDIRECT) = 0 then _ else _) = _
    rw [if_pos hempty, hm2, hsecond]
    rfl
  refine ⟨?_, ⟨_, rfl⟩, ?_, hset2.ne, ?_, {m1, m2}, ?_, fun b hb => ?_⟩
  · have hpooled := hset2.pooled
    rwa [update_idem] at hpooled
  · unfold blockOf
    rw [hset2.slots, if_pos rfl]
  · intro hne
    exact absurd (congrArg BitVec.toNat hlast) hne
  · have hone : missing d = 1 := if_pos (congrArg BitVec.toNat hlast)
    have hzero : missing (d.setAddr (Fin.last NDIRECT) (BitVec.ofNat 32 A)) = 0 := by
      rw [missing, hind]
      exact if_neg hset1.ne
    rw [hone, hzero]
    exact Finset.card_le_two
  · rw [hlog] at hb
    rw [hind]
    simp only [mem_cons, not_mem_nil, or_false] at hb
    rcases hb with rfl | rfl | rfl | rfl | rfl
    · simp
    · exact Or.inr (Or.inr ⟨hset1.ne, rfl⟩)
    · simp
    · exact Or.inr (Or.inl rfl)
    · exact Or.inr (Or.inr ⟨hset1.ne, rfl⟩)

end

theorem bmap_logged (h : bmap sb disk d bn = .ok (a, disk', d')) :
    Logged sb disk disk' din inum d d' bn a := by
  by_cases hfound : blockOf disk d bn ≠ 0
  · rw [bmap_found hfound] at h
    cases h
    refine ⟨?_, ⟨_, rfl⟩, rfl, hfound, fun _ => rfl, ∅, ?_, ?_⟩
    · rwa [← hd, update_eq_self]
    · rw [Finset.card_empty]
      omega
    · rw [bmapLog_found hfound]
      exact fun b hb => absurd hb not_mem_nil
  unfold bmap at h
  split_ifs at h with hdirect hrange
  · unfold addrAt at h
    split_ifs at h with hempty
    · obtain ⟨⟨b, disk1⟩, hballoc, heq⟩ := bind_eq_ok.mp h
      cases heq
      exact logged_direct hpool hd hinum htype hdirect hempty hballoc
    · refine absurd ?_ hfound
      unfold blockOf slotOf
      rw [if_pos hdirect, slotAt_direct _ _ (Nat.lt_succ_of_lt hdirect)]
      exact toNat_ne_zero.mpr hempty
  · obtain ⟨⟨addr, disk1, d1⟩, haddr, h⟩ := bind_eq_ok.mp h
    simp only at h
    unfold addrAt at haddr
    split_ifs at haddr with hlast
    · obtain ⟨⟨A, disk2⟩, hfirst, heq⟩ := bind_eq_ok.mp haddr
      cases heq
      have hzero : (disk1 addr).word (bn - NDIRECT) = 0 := by
        rw [(balloc_spec hpool.reserved hfirst).zero]
        simp [Block.word]
      rw [if_pos hzero] at h
      obtain ⟨⟨b, disk3⟩, hsecond, heq⟩ := bind_eq_ok.mp h
      cases heq
      exact logged_indirect hpool hd hinum htype hdirect hrange hlast hfirst hsecond
    · cases haddr
      have hind : indirect d ≠ 0 := toNat_ne_zero.mpr hlast
      split_ifs at h with hempty
      · obtain ⟨⟨b, disk2⟩, hballoc, heq⟩ := bind_eq_ok.mp h
        cases heq
        exact logged_entry hpool hd hinum htype hdirect hrange hind hempty hballoc
      · refine absurd ?_ hfound
        have hslot : slotOf bn = NDIRECT + 1 + (bn - NDIRECT) := by
          unfold slotOf
          rw [if_neg hdirect]
          omega
        unfold blockOf
        rw [hslot, slotAt_indirect _ hrange hlast]
        exact toNat_ne_zero.mpr hempty

end Alloc

theorem bmapLog_error (h : bmap sb disk d bn = .error msg) :
    ∃ m A, ∀ b ∈ bmapLog sb disk d bn, b = m ∨ indirect d = 0 ∧ b = A := by
  unfold bmap at h
  unfold bmapLog
  split_ifs at h ⊢ with hdirect hrange
  · unfold addrAt at h
    unfold addrAtLog
    split_ifs at h ⊢ with hempty
    · cases hballoc : balloc sb disk with
      | ok x =>
        rw [hballoc] at h
        cases h
      | error e =>
        rw [ballocLog_error hballoc]
        exact ⟨0, 0, fun b hb => absurd hb not_mem_nil⟩
    · cases h
  · unfold addrAt at h ⊢
    unfold addrAtLog
    by_cases hlast : d.addrs (Fin.last NDIRECT) = 0
    · rw [if_pos hlast] at h ⊢
      cases hfirst : balloc sb disk with
      | error e =>
        rw [ballocLog_error hfirst]
        exact ⟨0, 0, fun b hb => absurd hb (by simp [hlast])⟩
      | ok x =>
        obtain ⟨A, disk1⟩ := x
        obtain ⟨m, hm⟩ := ballocLog_ok hfirst
        refine ⟨m, A, fun b hb => ?_⟩
        rw [hfirst] at h
        rw [if_pos hlast, hm] at hb
        simp only [bind, Except.bind, pure, Except.pure] at h hb
        have hind : indirect d = 0 := congrArg BitVec.toNat hlast
        split_ifs at h hb with hzero
        · cases hsecond : balloc sb disk1 with
          | ok y =>
            rw [hsecond] at h
            cases h
          | error e =>
            rw [ballocLog_error hsecond, hsecond] at hb
            rcases mem_pair.mp hb with rfl | rfl
            · exact Or.inl rfl
            · exact Or.inr ⟨hind, rfl⟩
    · rw [if_neg hlast] at h ⊢
      simp only [bind, Except.bind, pure, Except.pure] at h ⊢
      split_ifs at h ⊢ with hempty
      · cases hballoc : balloc sb disk with
        | ok x =>
          rw [hballoc] at h
          cases h
        | error e =>
          refine ⟨0, 0, fun b hb => ?_⟩
          simp [ballocLog_error hballoc, hballoc] at hb
  · exact ⟨0, 0, fun b hb => absurd hb not_mem_nil⟩

/-- The blocks that a write of `n` bytes at `off` touches. -/
def touched (off n : Nat) : Nat := if n = 0 then 0 else (off + n - 1) / BSIZE + 1 - off / BSIZE

/-- A log for `t` data blocks: as many bitmap blocks, and one more if the indirect block is still to
be allocated, the data blocks, and the indirect block. -/
def Footprint (d : Dinode) (t : Nat) (log : List Nat) : Prop :=
  ∃ (S D : Finset Nat) (A : Nat), S.card ≤ t + missing d ∧ D.card ≤ t ∧
    (indirect d ≠ 0 → A = indirect d) ∧ ∀ b ∈ log, b ∈ S ∨ b ∈ D ∨ b = A

theorem Footprint.nil (d : Dinode) (t : Nat) : Footprint d t [] :=
  ⟨∅, ∅, indirect d, Nat.zero_le _, Nat.zero_le _, fun _ => rfl,
    fun _ hb => absurd hb not_mem_nil⟩

variable {t : Nat}

theorem footprint_error (h : bmap sb disk d bn = .error msg)
    (ht : 1 ≤ t) : Footprint d t (bmapLog sb disk d bn) := by
  obtain ⟨m, A, hlog⟩ := bmapLog_error h
  refine ⟨{m}, ∅, if indirect d = 0 then A else indirect d, ?_, Nat.zero_le _,
    fun hne => if_neg hne, fun b hb => ?_⟩
  · rw [Finset.card_singleton]
    omega
  · rcases hlog b hb with rfl | ⟨hind, rfl⟩
    · exact Or.inl (Finset.mem_singleton_self b)
    · exact Or.inr (Or.inr (by rw [if_pos hind]))

theorem Logged.footprint (h : Logged sb disk disk' din inum d d' bn a) {t' : Nat}
    (hrest : Footprint d' t log) (ht : t + 1 ≤ t') :
    Footprint d t' (bmapLog sb disk d bn ++ a :: log) := by
  obtain ⟨S, hS, hbmap⟩ := h.log
  obtain ⟨S', D, A, hS', hD, hA, hlog⟩ := hrest
  refine ⟨S ∪ S', insert a D, A, (Finset.card_union_le S S').trans (by omega),
    (Finset.card_insert_le a D).trans (by omega), fun hne => ?_, fun b hb => ?_⟩
  · rw [← h.kept hne]
    exact hA (by rw [h.kept hne]; exact hne)
  · rcases mem_append.mp hb with hb | hb
    · rcases hbmap b hb with hb | rfl | ⟨hne, rfl⟩
      · exact Or.inl (Finset.mem_union_left S' hb)
      · exact Or.inr (Or.inl (Finset.mem_insert_self b D))
      · exact Or.inr (Or.inr (hA hne).symm)
    · rcases mem_cons.mp hb with rfl | hb
      · exact Or.inr (Or.inl (Finset.mem_insert_self b D))
      · rcases hlog b hb with hb | hb | hb
        · exact Or.inl (Finset.mem_union_right S hb)
        · exact Or.inr (Or.inl (Finset.mem_insert_of_mem hb))
        · exact Or.inr (Or.inr hb)

theorem touched_round (off : Nat) {n : Nat} (hn : n ≠ 0) :
    touched (off + min n (BSIZE - off % BSIZE)) (n - min n (BSIZE - off % BSIZE)) + 1 ≤
      touched off n := by
  unfold touched
  simp only [BSIZE]
  split_ifs <;> omega

theorem pooled_data (hpool : Pooled sb disk din ∅) (hd : din inum = d) (hinum : inum < sb.ninodes)
    (htype : d.type ≠ 0) (ha : blockOf disk d bn = a) (hne : a ≠ 0) (bp : Block) :
    Pooled sb (update disk a bp) din ∅ :=
  (frame_of_data hpool hd hinum htype ha hne fun _ hb => update_of_ne hb _ _).2.1

theorem writeLoopLog_footprint (rounds off : Nat) (src : List Byte) (hpool : Pooled sb disk din ∅)
    (hd : din inum = d) (hinum : inum < sb.ninodes) (htype : d.type ≠ 0) :
    Footprint d (touched off src.length) (writeLoopLog sb rounds disk d off src) := by
  induction rounds generalizing disk din d off src with
  | zero => exact .nil d _
  | succ rounds ih =>
    rw [writeLoopLog]
    split_ifs with hnil
    · exact .nil d _
    · have hlen : src.length ≠ 0 := fun hzero => hnil (length_eq_zero_iff.mp hzero)
      have hround := touched_round off hlen
      cases hmap : bmap sb disk d (off / BSIZE) with
      | error msg =>
        rw [append_nil]
        exact footprint_error hmap (by omega)
      | ok x =>
        obtain ⟨addr, disk1, d1⟩ := x
        have hlogged := bmap_logged hpool hd hinum htype hmap
        have htype1 : d1.type ≠ 0 := by
          rw [fields_type hlogged.fields]
          exact htype
        have hpool1 := pooled_data hlogged.pooled (update_self _ _ _) hinum htype1
          hlogged.block hlogged.ne (putBytes (disk1 addr) (off % BSIZE)
            (src.take (min src.length (BSIZE - off % BSIZE))))
        refine hlogged.footprint (ih _ _ hpool1 (update_self _ _ _) htype1) ?_
        rw [length_drop]
        exact hround

theorem Footprint.card_le (h : Footprint d t log) (b : Nat) :
    (log ++ [b]).toFinset.card ≤ 2 * t + 3 := by
  obtain ⟨S, D, A, hS, hD, -, hlog⟩ := h
  have hone : missing d ≤ 1 := by
    unfold missing
    split_ifs <;> omega
  have hsub : (log ++ [b]).toFinset ⊆ S ∪ D ∪ {A, b} := by
    intro x hx
    rw [mem_toFinset, mem_append, mem_singleton] at hx
    simp only [Finset.mem_union, Finset.mem_insert, Finset.mem_singleton]
    rcases hx with hx | rfl
    · rcases hlog x hx with hx | hx | hx
      · exact Or.inl (Or.inl hx)
      · exact Or.inl (Or.inr hx)
      · exact Or.inr (Or.inl hx)
    · exact Or.inr (Or.inr rfl)
  calc (log ++ [b]).toFinset.card ≤ (S ∪ D ∪ {A, b}).card := Finset.card_le_card hsub
    _ ≤ (S ∪ D).card + ({A, b} : Finset Nat).card := Finset.card_union_le _ _
    _ ≤ S.card + D.card + 2 := Nat.add_le_add (Finset.card_union_le S D) Finset.card_le_two
    _ ≤ 2 * t + 3 := by omega

theorem writeiLog_subset {off : BitVec 32} : (writeiLog sb disk inum d off src).toFinset ⊆
      (writeLoopLog sb src.length disk d off.toNat src ++ [sb.iblock inum]).toFinset := by
  intro x hx
  rw [mem_toFinset] at hx ⊢
  unfold writeiLog at hx
  simp only at hx
  split_ifs at hx with _ _ _
  · cases hx
  · cases hx
  · cases hx
  · rw [mem_append] at hx ⊢
    refine hx.imp id fun hx => ?_
    split at hx
    · cases hx
    · split_ifs at hx
      · exact hx
      · cases hx

/-- One write of `filewrite` logs at most `MAXOPBLOCKS` different blocks. -/
theorem chunk_fits_reservation (sb : Superblock) (disk : Disk) (din : Nat → Dinode)
    (hpool : Pooled sb disk din ∅) (inum : Nat) (hinum : inum < sb.ninodes) (d : Dinode)
    (hd : din inum = d) (htype : d.type ≠ 0)
    (hholes : ∀ bn, bn * BSIZE < d.size.toNat → blockOf disk d bn ≠ 0) (off : BitVec 32)
    (src : List Byte) (hoff : off.toNat ≤ d.size.toNat) (hlen : src.length ≤ maxWrite) :
    (writeiLog sb disk inum d off src).toFinset.card ≤ MAXOPBLOCKS := by
  refine (Finset.card_le_card writeiLog_subset).trans ?_
  have hsrc : src.length ≤ 1536 := hlen
  by_cases haligned : off.toNat % BSIZE = 0
  · -- three data blocks, all of which may be new
    have hthree : touched off.toNat src.length ≤ 3 := by
      unfold touched
      simp only [BSIZE] at haligned ⊢
      split_ifs <;> omega
    have hcard := (writeLoopLog_footprint src.length off.toNat src hpool hd hinum htype).card_le
      (sb.iblock inum)
    exact hcard.trans (by simp only [MAXOPBLOCKS]; omega)
  · -- four data blocks, the first of which the file has
    cases hsrc : src.length with
    | zero =>
      rw [writeLoopLog]
      exact (toFinset_card_le _).trans (show 1 ≤ MAXOPBLOCKS by decide)
    | succ n =>
      have hnil : src ≠ [] := fun hnil => by simp [hnil] at hsrc
      have hfirst : blockOf disk d (off.toNat / BSIZE) ≠ 0 :=
        hholes _ (by simp only [BSIZE] at haligned ⊢; omega)
      have hround := touched_round off.toNat (n := src.length) (by omega)
      have hfour : touched off.toNat src.length ≤ 4 := by
        unfold touched
        simp only [BSIZE]
        split_ifs <;> omega
      have hrest : ∀ bp, (writeLoopLog sb n
          (update disk (blockOf disk d (off.toNat / BSIZE)) bp) d
          (off.toNat + min src.length (BSIZE - off.toNat % BSIZE))
          (src.drop (min src.length (BSIZE - off.toNat % BSIZE))) ++
            [sb.iblock inum]).toFinset.card ≤ 9 := fun bp => by
        have hpool' := pooled_data hpool hd hinum htype rfl hfirst bp
        refine ((writeLoopLog_footprint n _ _ hpool' hd hinum htype).card_le _).trans ?_
        rw [length_drop]
        omega
      rw [writeLoopLog, if_neg hnil, bmap_found hfirst, bmapLog_found hfirst, nil_append]
      simp only [cons_append, toFinset_cons]
      exact (Finset.card_insert_le _ _).trans (Nat.succ_le_succ (hrest _))

theorem two_bytes_fit : (writeiLog tinySuperblock tinyDisk 1 emptyFile 0 [104, 105]).toFinset.card ≤
    MAXOPBLOCKS :=
  chunk_fits_reservation tinySuperblock tinyDisk (dinodeAt tinySuperblock tinyDisk)
    sound_tinyDisk.pooled 1 (by decide) emptyFile (dinodeAt_iupdate_same _ _ _ _) (by decide)
    (fun _ h => absurd h (Nat.not_lt_zero _)) 0 [104, 105] (by decide) (by decide)

end Xv6.Fs
