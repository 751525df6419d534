import Xv6.Fs.File
import Xv6.Lib.Transition

/-!
# Writing through one file from several processes

`filewrite` takes the lock of the inode once for every chunk, and the offset is that of the file.
A step of the system is one such section, so that the chunks of different calls may come in any
order.  The list of chunks and the list of returned calls are the history of the run.
-/

namespace Xv6.Fs

open Lib Function List

/-- The variables of a call of `filewrite` in its loop, and the number of the call. -/
structure Loop where
  call : Nat
  src : List Byte
  i : Nat

/-- `i == n ? n : -1` -/
def Loop.result (l : Loop) : Int := if l.i = l.src.length then l.src.length else -1

structure Chunk where
  call : Nat
  start : Nat
  bytes : List Byte

structure Returned where
  call : Nat
  src : List Byte
  r : Int

structure Shared (P : Type) where
  disk : Disk
  d : Dinode
  off : BitVec 32
  threads : P → Option Loop
  calls : Nat
  chunks : List Chunk
  returns : List Returned

inductive WriteAct (P : Type) where
  | call (p : P) (src : List Byte)
  | chunk (p : P)

namespace Shared

variable {P : Type} [DecidableEq P]

def finish (s : Shared P) (p : P) (l : Loop) : Shared P :=
  { s with
    threads := update s.threads p none
    returns := s.returns ++ [⟨l.call, l.src, l.result⟩] }

def resume (s : Shared P) (p : P) (l : Loop) : Shared P :=
  if l.i < l.src.length then { s with threads := update s.threads p (some l) }
  else s.finish p l

def chunk (sb : Superblock) (devsw : Devsw) (inum : Nat) (s : Shared P) (p : P) (l : Loop) :
    Outcome (Shared P) Unit :=
  let n1 := min (l.src.length - l.i) maxWrite
  let bytes := (l.src.drop l.i).take n1
  match writei sb devsw s.disk inum s.d s.off bytes with
  | .error msg => .panic msg
  | .ok (r, disk, d) =>
    let off := if r > 0 then s.off + BitVec.ofInt 32 r else s.off
    let c : Chunk := ⟨l.call, s.off.toNat, bytes⟩
    if r < 0 then .ok () (finish { s with disk := disk, d := d, off := off } p l)
    else if r ≠ n1 then .panic "short filewrite"
    else
      .ok () (resume { s with disk := disk, d := d, off := off, chunks := s.chunks ++ [c] } p
        { l with i := l.i + n1 })

def step (sb : Superblock) (devsw : Devsw) (inum : Nat) (s : Shared P) :
    WriteAct P → Outcome (Shared P) Unit
  | .call p src =>
    match s.threads p with
    | some _ => .blocked
    | none => .ok () ({ s with calls := s.calls + 1 }.resume p ⟨s.calls, src, 0⟩)
  | .chunk p =>
    match s.threads p with
    | none => .blocked
    | some l => s.chunk sb devsw inum p l

def init (disk : Disk) (d : Dinode) (off : BitVec 32) : Shared P :=
  ⟨disk, d, off, fun _ => none, 0, [], []⟩

end Shared

def writtenBy (chunks : List Chunk) (call : Nat) : List Byte :=
  (chunks.filter fun c => c.call = call).flatMap Chunk.bytes

def allBytes (chunks : List Chunk) : List Byte := chunks.flatMap Chunk.bytes

theorem writtenBy_append (chunks : List Chunk) (c : Chunk) (call : Nat) :
    writtenBy (chunks ++ [c]) call =
      writtenBy chunks call ++ if c.call = call then c.bytes else [] := by
  unfold writtenBy
  rw [filter_append, flatMap_append]
  by_cases h : c.call = call
  · simp [h]
  · simp [h]

theorem allBytes_append (chunks : List Chunk) (c : Chunk) :
    allBytes (chunks ++ [c]) = allBytes chunks ++ c.bytes := by
  simp [allBytes]

theorem writtenBy_of_fresh {chunks : List Chunk} {call : Nat}
    (h : ∀ c ∈ chunks, c.call ≠ call) : writtenBy chunks call = [] := by
  unfold writtenBy
  rw [filter_eq_nil_iff.mpr fun c hc => by simpa using h c hc]
  rfl

variable {sb : Superblock} {devsw : Devsw} {disk disk' : Disk} {inum : Nat} {d d' : Dinode}
  {off : BitVec 32} {src : List Byte}

structure Kept (chunks : List Chunk) (x : Returned) : Prop where
  all : x.r = x.src.length ↔ writtenBy chunks x.call = x.src
  part : x.r ≠ x.src.length → x.r = -1 ∧
    ∃ k, k * maxWrite < x.src.length ∧ writtenBy chunks x.call = x.src.take (k * maxWrite)

/-- A call in its loop has stored whole chunks, and is the only one of its number. -/
structure Running {P : Type} (s : Shared P) (p : P) (l : Loop) : Prop where
  call_lt : l.call < s.calls
  alone : ∀ q m, q ≠ p → s.threads q = some m → m.call ≠ l.call
  unreturned : ∀ x ∈ s.returns, x.call ≠ l.call
  written : writtenBy s.chunks l.call = l.src.take l.i
  le : l.i ≤ l.src.length
  whole : l.i < l.src.length → l.i % maxWrite = 0

structure CallsOk {P : Type} (s : Shared P) : Prop where
  chunks : ∀ c ∈ s.chunks, c.call < s.calls
  running : ∀ p l, s.threads p = some l → Running s p l ∧ l.i < l.src.length
  returned : ∀ x ∈ s.returns, x.call < s.calls ∧ Kept s.chunks x

structure OthersOk {P : Type} (s : Shared P) (p : P) : Prop where
  chunks : ∀ c ∈ s.chunks, c.call < s.calls
  running : ∀ q l, q ≠ p → s.threads q = some l → Running s q l ∧ l.i < l.src.length
  returned : ∀ x ∈ s.returns, x.call < s.calls ∧ Kept s.chunks x

section Calls

variable {P : Type} [DecidableEq P] {s : Shared P} {p : P} {l : Loop}

omit [DecidableEq P] in
theorem CallsOk.others (h : CallsOk s) (p : P) : OthersOk s p :=
  ⟨h.chunks, fun q l _ hq => h.running q l hq, h.returned⟩

omit [DecidableEq P] in
theorem Running.kept (h : Running s p l) : Kept s.chunks ⟨l.call, l.src, l.result⟩ := by
  unfold Loop.result
  by_cases hall : l.i = l.src.length
  · have hwritten : writtenBy s.chunks l.call = l.src := by
      rw [h.written, hall, take_length]
    exact ⟨by simp [hall, hwritten], by simp [hall]⟩
  · have hlt : l.i < l.src.length := Nat.lt_of_le_of_ne h.le hall
    have hk : l.i / maxWrite * maxWrite = l.i := Nat.div_mul_cancel
      (Nat.dvd_of_mod_eq_zero (h.whole hlt))
    refine ⟨?_, fun _ => ⟨by simp [hall], l.i / maxWrite, ?_, ?_⟩⟩
    · simp only [if_neg hall]
      refine iff_of_false (by omega) fun hsame => ?_
      have hlen := congrArg List.length hsame
      rw [h.written, length_take] at hlen
      omega
    · rw [hk]
      exact hlt
    · rw [hk]
      exact h.written

theorem OthersOk.finish (h : OthersOk s p) (hl : Running s p l) : CallsOk (s.finish p l) := by
  refine ⟨h.chunks, fun q m hq => ?_, fun x hx => ?_⟩
  · simp only [Shared.finish, update_apply] at hq
    split_ifs at hq with hqp
    obtain ⟨hm, hlt⟩ := h.running q m hqp hq
    refine ⟨⟨hm.call_lt, fun q' m' hne hq' => ?_, fun x hx => ?_, hm.written, hm.le, hm.whole⟩, hlt⟩
    · simp only [Shared.finish, update_apply] at hq'
      split_ifs at hq'
      exact hm.alone q' m' hne hq'
    · rcases mem_append.mp hx with hx | hx
      · exact hm.unreturned x hx
      · rw [mem_singleton.mp hx]
        exact (hl.alone q m hqp hq).symm
  · rcases mem_append.mp hx with hx | hx
    · exact h.returned x hx
    · rw [mem_singleton.mp hx]
      exact ⟨hl.call_lt, hl.kept⟩

theorem OthersOk.resume (h : OthersOk s p) (hl : Running s p l) : CallsOk (s.resume p l) := by
  unfold Shared.resume
  split_ifs with hlt
  · refine ⟨h.chunks, fun q m hq => ?_, h.returned⟩
    simp only [update_apply] at hq
    split_ifs at hq with hqp
    · cases hq
      subst hqp
      refine ⟨⟨hl.call_lt, fun q' m' hne hq' => ?_, hl.unreturned, hl.written, hl.le,
        hl.whole⟩, hlt⟩
      simp only [update_apply, if_neg hne] at hq'
      exact hl.alone q' m' hne hq'
    · obtain ⟨hm, hlt'⟩ := h.running q m hqp hq
      refine ⟨⟨hm.call_lt, fun q' m' hne hq' => ?_, hm.unreturned, hm.written, hm.le, hm.whole⟩,
        hlt'⟩
      simp only [update_apply] at hq'
      split_ifs at hq' with hqp'
      · cases hq'
        exact (hl.alone q m hqp hq).symm
      · exact hm.alone q' m' hne hq'
  · exact h.finish hl

theorem CallsOk.call (h : CallsOk s) (p : P) (src : List Byte) :
    CallsOk ({ s with calls := s.calls + 1 }.resume p ⟨s.calls, src, 0⟩) := by
  refine OthersOk.resume ⟨fun c hc => Nat.lt_succ_of_lt (h.chunks c hc), fun q m _ hq => ?_,
    fun x hx => ⟨Nat.lt_succ_of_lt (h.returned x hx).1, (h.returned x hx).2⟩⟩ ?_
  · obtain ⟨hm, hlt⟩ := h.running q m hq
    exact ⟨⟨Nat.lt_succ_of_lt hm.call_lt, hm.alone, hm.unreturned, hm.written, hm.le,
      hm.whole⟩, hlt⟩
  · refine ⟨Nat.lt_succ_self _, fun q m _ hq => ?_, fun x hx => ?_, ?_, Nat.zero_le _,
      fun _ => Nat.zero_mod _⟩
    · exact Nat.ne_of_lt (h.running q m hq).1.call_lt
    · exact Nat.ne_of_lt (h.returned x hx).1
    · rw [take_zero]
      exact writtenBy_of_fresh fun c hc => Nat.ne_of_lt (h.chunks c hc)

omit [DecidableEq P] in
theorem Running.store (h : CallsOk s) (hl : Running s p l) (hlt : l.i < l.src.length)
    (disk : Disk) (d : Dinode) (off : BitVec 32) (start : Nat) :
    let n1 := min (l.src.length - l.i) maxWrite
    let s' := { s with
      disk := disk, d := d, off := off
      chunks := s.chunks ++ [⟨l.call, start, (l.src.drop l.i).take n1⟩] }
    OthersOk s' p ∧ Running s' p { l with i := l.i + n1 } := by
  intro n1 s'
  have hother : ∀ call, call ≠ l.call → writtenBy s'.chunks call = writtenBy s.chunks call :=
    fun call hne => by rw [writtenBy_append, if_neg hne.symm, append_nil]
  refine ⟨⟨fun c hc => ?_, fun q m hqp hq => ?_, fun x hx => ?_⟩, hl.call_lt, hl.alone,
    hl.unreturned, ?_, ?_, fun hmore => ?_⟩
  · rcases mem_append.mp hc with hc | hc
    · exact h.chunks c hc
    · rw [mem_singleton.mp hc]
      exact hl.call_lt
  · obtain ⟨hm, hlt'⟩ := h.running q m hq
    refine ⟨⟨hm.call_lt, hm.alone, hm.unreturned, ?_, hm.le, hm.whole⟩, hlt'⟩
    rw [hother _ (hl.alone q m hqp hq)]
    exact hm.written
  · obtain ⟨hcall, hkept⟩ := h.returned x hx
    refine ⟨hcall, ?_⟩
    have hsame := hother _ (hl.unreturned x hx)
    exact ⟨by rw [hsame]; exact hkept.all, by rw [hsame]; exact hkept.part⟩
  · rw [writtenBy_append, if_pos rfl, hl.written, take_add]
  · simp only [n1]
    omega
  · -- a chunk that is not the last one is as long as can be
    have hfull : n1 = maxWrite := by
      simp only [n1] at hmore ⊢
      omega
    simp only [hfull]
    rw [Nat.add_mod_right]
    exact hl.whole hlt

end Calls

structure FileOk {P : Type} (start : Nat) (s : Shared P) : Prop where
  type : s.d.type = T_FILE
  ranges : ∀ pre c post, s.chunks = pre ++ c :: post → c.start = start + (allBytes pre).length
  off : s.off.toNat = start + (allBytes s.chunks).length

section File

variable {P : Type} [DecidableEq P] {s s' : Shared P} {p : P} {l : Loop} {start : Nat}

theorem FileOk.resume (h : FileOk start s) (p : P) (l : Loop) : FileOk start (s.resume p l) := by
  unfold Shared.resume
  split_ifs
  · exact ⟨h.type, h.ranges, h.off⟩
  · exact ⟨h.type, h.ranges, h.off⟩

omit [DecidableEq P] in
theorem FileOk.store (h : FileOk start s) {bytes : List Byte} {d : Dinode} {off : BitVec 32}
    (disk : Disk) (call : Nat) (htype : d.type = s.d.type)
    (hoff : off.toNat = s.off.toNat + bytes.length) :
    FileOk start { s with
      disk := disk, d := d, off := off
      chunks := s.chunks ++ [⟨call, s.off.toNat, bytes⟩] } := by
  refine ⟨htype.trans h.type, fun pre c post heq => ?_, ?_⟩
  · rcases eq_nil_or_concat post with rfl | ⟨post, x, rfl⟩
    · obtain ⟨hpre, hc⟩ := append_inj' heq rfl
      cases hc
      rw [← hpre]
      exact h.off
    · rw [concat_eq_append, ← cons_append, ← append_assoc] at heq
      exact h.ranges pre c post (append_inj' heq rfl).1
  · rw [allBytes_append, length_append, hoff, h.off, Nat.add_assoc]

theorem chunk_cases (htype : s.d.type = T_FILE) (hlt : l.i < l.src.length)
    (h : s.chunk sb devsw inum p l = .ok () s') :
    s' = s.finish p l ∨ ∃ disk d off, let n1 := min (l.src.length - l.i) maxWrite
      let bytes := (l.src.drop l.i).take n1
      writei sb devsw s.disk inum s.d s.off bytes = .ok ((bytes.length : Nat), disk, d) ∧
        ¬Refused s.d s.off bytes.length ∧ d.type = s.d.type ∧
        off.toNat = s.off.toNat + bytes.length ∧
        s' = Shared.resume { s with
          disk := disk, d := d, off := off
          chunks := s.chunks ++ [⟨l.call, s.off.toNat, bytes⟩] } p { l with i := l.i + n1 } := by
  have hdev : s.d.type ≠ T_DEV := by
    rw [htype]
    decide
  obtain ⟨n1, hn1⟩ : ∃ n1, n1 = min (l.src.length - l.i) maxWrite := ⟨_, rfl⟩
  obtain ⟨bytes, hbytes⟩ : ∃ bytes, bytes = (l.src.drop l.i).take n1 := ⟨_, rfl⟩
  have hlen : bytes.length = n1 := by
    rw [hbytes, length_take, length_drop]
    omega
  have hmax : n1 ≤ 1536 := hn1 ▸ Nat.min_le_right _ _
  unfold Shared.chunk at h
  simp only [← hn1, ← hbytes] at h ⊢
  split at h
  · cases h
  · case _ r disk d hw =>
    rcases writei_cases hdev (by omega) hw with ⟨rfl, rfl, rfl⟩ | ⟨rfl, hd, href⟩
    · cases h
      exact Or.inl rfl
    · have hpos : 0 < n1 := by
        simp only [maxWrite] at hn1
        omega
      have hadd : (s.off + BitVec.ofInt 32 (bytes.length : Nat)).toNat =
          s.off.toNat + bytes.length := by
        unfold Refused at href
        rw [BitVec.ofInt_natCast, BitVec.toNat_add, BitVec.toNat_ofNat]
        omega
      rw [if_neg (by omega), if_neg (by omega), if_pos (by omega)] at h
      cases h
      exact Or.inr ⟨disk, d, _, hw, href, hd, hadd, rfl⟩

structure ContentOk (sb : Superblock) (inum : Nat) (C : List Byte) (start : Nat) (s : Shared P) :
    Prop where
  sound : Sound sb s.disk
  dinode : dinodeAt sb s.disk inum = s.d
  content : Fs.content s.disk s.d = overwrite C start (allBytes s.chunks)

theorem ContentOk.resume {C : List Byte} (h : ContentOk sb inum C start s) (p : P) (l : Loop) :
    ContentOk sb inum C start (s.resume p l) := by
  unfold Shared.resume
  split_ifs
  · exact ⟨h.sound, h.dinode, h.content⟩
  · exact ⟨h.sound, h.dinode, h.content⟩

omit [DecidableEq P] in
theorem ContentOk.store {C bytes : List Byte} (h : ContentOk sb inum C start s)
    (hfile : FileOk start s) (hinum : inum < sb.ninodes) {disk : Disk} {d : Dinode}
    (hlen : bytes.length ≤ maxWrite) (href : ¬Refused s.d s.off bytes.length)
    (hw : writei sb devsw s.disk inum s.d s.off bytes = .ok ((bytes.length : Nat), disk, d))
    (off : BitVec 32) (call : Nat) :
    ContentOk sb inum C start { s with
      disk := disk, d := d, off := off
      chunks := s.chunks ++ [⟨call, s.off.toNat, bytes⟩] } := by
  have hdev : s.d.type ≠ T_DEV := by
    rw [hfile.type]
    decide
  have halloc : s.d.type ≠ 0 := by
    rw [hfile.type]
    decide
  have hsmall : bytes.length ≤ 1536 := hlen
  obtain ⟨-, hstored⟩ := writei_stores hdev (by omega) h.sound hinum h.dinode halloc href hw
  -- the file reaches up to the offset, so the first offset was inside it
  have hstart : start ≤ C.length := by
    have hsize := length_content s.disk s.d
    rw [h.content, overwrite, length_append, length_append, length_take, length_drop] at hsize
    have hoff := hfile.off
    unfold Refused at href
    omega
  refine ⟨hstored.sound, hstored.dinode, ?_⟩
  simp only [allBytes_append]
  rw [hstored.content, h.content, hfile.off, overwrite_overwrite _ _ _ _ hstart]

end File

section Runs

variable {P : Type} [DecidableEq P]

/-- The invariant of a run that starts with offset `start`; `C` is the content of the file then. -/
structure SharedOk (sb : Superblock) (inum : Nat) (C : List Byte) (start : Nat) (sound : Prop)
    (s : Shared P) : Prop where
  calls : CallsOk s
  file : FileOk start s
  content : sound → ContentOk sb inum C start s

theorem sharedOk_step {C : List Byte} {start : Nat} {sound : Prop} {s s' : Shared P}
    {a : WriteAct P} (hinum : sound → inum < sb.ninodes) (h : SharedOk sb inum C start sound s)
    (hstep : s.step sb devsw inum a = .ok () s') : SharedOk sb inum C start sound s' := by
  cases a with
  | call p src =>
    simp only [Shared.step] at hstep
    split at hstep
    · cases hstep
    · cases hstep
      have hfile : FileOk start { s with calls := s.calls + 1 } :=
        ⟨h.file.type, h.file.ranges, h.file.off⟩
      refine ⟨h.calls.call p src, hfile.resume _ _, fun hs => ContentOk.resume ?_ _ _⟩
      obtain ⟨hsound, hdinode, hcontent⟩ := h.content hs
      exact ⟨hsound, hdinode, hcontent⟩
  | chunk p =>
    simp only [Shared.step] at hstep
    split at hstep
    · cases hstep
    · case _ l hp =>
      obtain ⟨hrun, hlt⟩ := h.calls.running p l hp
      rcases chunk_cases h.file.type hlt hstep with
        rfl | ⟨disk, d, off, hw, href, htype, hoff, rfl⟩
      · exact ⟨(h.calls.others p).finish hrun, ⟨h.file.type, h.file.ranges, h.file.off⟩,
          fun hs => ⟨(h.content hs).sound, (h.content hs).dinode, (h.content hs).content⟩⟩
      · obtain ⟨hothers, hrun'⟩ := Running.store h.calls hrun hlt disk d off s.off.toNat
        refine ⟨hothers.resume hrun', (h.file.store disk l.call htype hoff).resume _ _,
          fun hs => ContentOk.resume ?_ _ _⟩
        refine (h.content hs).store h.file (hinum hs) ?_ href hw off l.call
        rw [length_take]
        omega

/-- Processes that write through one file: their chunks follow each other in the file from its
offset on, whatever their order, and each call stores all its data or whole chunks of it. -/
theorem shared_writes_consecutive (sb : Superblock) (devsw : Devsw) (disk : Disk) (inum : Nat)
    (d : Dinode) (off : BitVec 32) (hfile : d.type = T_FILE) (tr : List (Shared P × WriteAct P))
    (s : Shared P) (htr : Trace (Shared.step sb devsw inum) (Shared.init disk d off) tr s) :
    (∀ pre c post, s.chunks = pre ++ c :: post →
      c.start = off.toNat + (allBytes pre).length) ∧
    s.off.toNat = off.toNat + (allBytes s.chunks).length ∧
    (∀ x ∈ s.returns, Kept s.chunks x) ∧
    (Sound sb disk → inum < sb.ninodes → dinodeAt sb disk inum = d →
      content s.disk s.d = overwrite (content disk d) off.toNat (allBytes s.chunks)) := by
  have hinv : SharedOk sb inum (content disk d) off.toNat
      (Sound sb disk ∧ inum < sb.ninodes ∧ dinodeAt sb disk inum = d) s := by
    apply htr.invariant (I := fun _ s => SharedOk sb inum (content disk d) off.toNat
      (Sound sb disk ∧ inum < sb.ninodes ∧ dinodeAt sb disk inum = d) s)
    · refine ⟨⟨nofun, nofun, nofun⟩, ⟨hfile, fun pre c post h => ?_, rfl⟩,
        fun hs => ⟨hs.1, hs.2.2, ?_⟩⟩
      · simp [Shared.init] at h
      · simp [Shared.init, allBytes, overwrite]
    · intro _ s a s' _ h hstep
      exact sharedOk_step (fun hs => hs.2.1) h hstep
  exact ⟨hinv.file.ranges, hinv.file.off, fun x hx => (hinv.calls.returned x hx).2,
    fun hsound hinum hd => (hinv.content ⟨hsound, hinum, hd⟩).content⟩

end Runs

theorem step_chunk {P : Type} [DecidableEq P] {sb : Superblock} {devsw : Devsw} {inum : Nat}
    {s : Shared P} {p : P} {call : Nat} {b : Byte} {disk : Disk} {d : Dinode}
    (hp : s.threads p = some ⟨call, [b], 0⟩)
    (hw : writei sb devsw s.disk inum s.d s.off [b] = .ok (1, disk, d)) :
    ∃ s', s.step sb devsw inum (.chunk p) = .ok () s' ∧ s'.disk = disk ∧ s'.d = d ∧
      s'.off = s.off + 1 ∧ s'.threads = update s.threads p none ∧
      s'.chunks = s.chunks ++ [⟨call, s.off.toNat, [b]⟩] := by
  have hbytes : (([b] : List Byte).drop 0).take (min (([b] : List Byte).length - 0) maxWrite) =
      [b] := rfl
  simp only [Shared.step, hp, Shared.chunk, hbytes, hw]
  exact ⟨_, rfl, rfl, rfl, rfl, rfl, rfl⟩

/-- Two processes write one byte each to an empty file. -/
theorem two_writers_interleave : ∃ (tr : List (Shared Bool × WriteAct Bool)) (s : Shared Bool),
    Trace (Shared.step tinySuperblock noDevs 1)
      (Shared.init tinyDisk emptyFile 0) tr s ∧
    tr.map Prod.snd = [.chunk true, .chunk false, .call true [105], .call false [104]] ∧
    s.off.toNat = 2 ∧ content s.disk s.d = [104, 105] := by
  have href : ¬Refused emptyFile 0 [(104 : Byte)].length := by
    unfold Refused
    decide
  have hinode : dinodeAt tinySuperblock tinyDisk 1 = emptyFile := dinodeAt_iupdate_same _ _ _ _
  have hsome : ∃ r disk d, writei tinySuperblock noDevs tinyDisk 1
      emptyFile 0 [104] = .ok (r, disk, d) :=
    writei_isOk (by decide) (by decide) sound_tinyDisk (by decide) hinode (by decide) href
      (Nat.le_trans (by decide) free_tinyDisk)
  obtain ⟨r, disk, d, hw⟩ := hsome
  obtain ⟨rfl, hstored⟩ := writei_stores (by decide) (by decide) sound_tinyDisk (by decide) hinode
    (by decide) href hw
  obtain ⟨addrs, size, rfl⟩ := hstored.fields
  have hsize : size.toNat = 1 := hstored.size
  have href' : ¬Refused { emptyFile with addrs := addrs, size := size } 1
      [(105 : Byte)].length := by
    simp only [Refused, hsize]
    decide
  have hsome' : ∃ r disk' d', writei tinySuperblock noDevs disk 1
      { emptyFile with addrs := addrs, size := size } 1 [105] = .ok (r, disk', d') := by
    refine writei_isOk (by simp [emptyFile]) (by decide) hstored.sound (by decide) hstored.dinode
      (by simp [emptyFile]) href' ?_
    simp only [hsize]
    exact Nat.zero_le _
  obtain ⟨r', disk', d', hw'⟩ := hsome'
  obtain ⟨rfl, -⟩ := writei_stores (by simp [emptyFile]) (by decide) hstored.sound (by decide)
    hstored.dinode (by simp [emptyFile]) href' hw'
  obtain ⟨s, hs⟩ : ∃ s : Shared Bool, s = ⟨tinyDisk, emptyFile, 0, update (update (fun _ => none)
    false (some ⟨0, [104], 0⟩)) true (some ⟨1, [105], 0⟩), 2, [], []⟩ := ⟨_, rfl⟩
  have hcalls : ∃ tr, Trace (Shared.step tinySuperblock noDevs 1)
      (Shared.init tinyDisk emptyFile 0) tr s ∧
      tr.map Prod.snd = [.call true [105], .call false [104]] := by
    rw [hs]
    exact ⟨_, .cons (a := .call true [105]) (.cons (a := .call false [104]) .nil rfl) rfl, rfl⟩
  obtain ⟨tr, htr, hacts⟩ := hcalls
  have hfalse : s.threads false = some ⟨0, [104], 0⟩ := by rw [hs]; rfl
  have htrue : s.threads true = some ⟨1, [105], 0⟩ := by rw [hs]; rfl
  have hfirst : writei tinySuperblock noDevs s.disk 1 s.d s.off [104] =
      .ok (1, disk, { emptyFile with addrs := addrs, size := size }) := by rw [hs]; exact hw
  obtain ⟨s1, hstep1, rfl, hd1, hoff1, hth1, hchunks1⟩ := step_chunk hfalse hfirst
  have hsecond : writei tinySuperblock noDevs s1.disk 1 s1.d s1.off [105] =
      .ok (1, disk', d') := by
    rw [hd1, hoff1, hs]
    exact hw'
  obtain ⟨s2, hstep2, -, -, -, -, hchunks2⟩ := step_chunk (p := true) (by
    rw [hth1, update_of_ne (by decide), htrue]) hsecond
  have hrun := Trace.cons (Trace.cons htr hstep1) hstep2
  have hall : allBytes s2.chunks = [104, 105] := by
    rw [hchunks2, hchunks1, hs]
    rfl
  obtain ⟨-, hoff, -, hcontent⟩ := shared_writes_consecutive _ _ _ _ _ _ rfl _ _ hrun
  refine ⟨_, s2, hrun, by simp [hacts], by rw [hoff, hall]; rfl, ?_⟩
  rw [hcontent sound_tinyDisk (by decide) hinode, hall]
  rfl

end Xv6.Fs
