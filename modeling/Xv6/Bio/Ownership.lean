import Xv6.Bio.Discipline
import Xv6.Lib.Family

/-!
# Locks, references and contents of the buffers

The invariant of the buffer cache has two parts.  `Owned` relates the locks and
reference counts to what the processes know; `Coherent` relates the buffers and
the disk to a plain map from block numbers to contents.  Every operation that a
process executes by the protocol keeps both.
-/

namespace Xv6.Bio

open Lib Log.Control Function List

variable {P : Type} {b : Buf P}

/-- The contents of the blocks, and whether they are logged and not yet installed. -/
abbrev Contents : Type := Nat → Block × Bool

/-- What an operation makes of the contents, whoever executes it. -/
def store (c : Cache P) : CacheOp → Contents → Contents
  | .logAppend i, A => update A (c.bufs i).blockno ((c.bufs i).data, true)
  | .iderw i, A =>
    if (c.bufs i).dirty then update A (c.bufs i).blockno ((c.bufs i).data, false) else A
  | _, A => A

def StageOk (b : Buf P) : Stage → Prop
  | .locked => True
  | .missing => b.valid = false
  | .ready | .modified => b.valid = true
  | .flushing => b.valid = true ∧ b.dirty = true

def View.refs (v : View) (i : Fin NBUF) : Nat :=
  (v.hold i).isSome.toNat + (v.extra.any fun x => x.1 == i).toNat

/-- The block is cached in a buffer that `bget` may not recycle. -/
def Pinned (c : Cache P) (b : Nat) : Prop :=
  ∃ i, (c.bufs i).dev = 1 ∧ (c.bufs i).blockno = b ∧ (c.bufs i).dirty = true

def Stable (view : P → View) (i : Fin NBUF) : Prop :=
  ∀ p key st, (view p).hold i = some (key, st) → st ≠ .modified ∧ st ≠ .flushing

@[simp] theorem setBuf_bufs_self (c : Cache P) (i : Fin NBUF) (b : Buf P) :
    (c.setBuf i b).bufs i = b := by
  simp [Cache.setBuf]

variable {j : Fin NBUF}

theorem setBuf_bufs_ne (c : Cache P) {i : Fin NBUF} (b : Buf P) (hj : j ≠ i) :
    (c.setBuf i b).bufs j = c.bufs j := by
  simp [Cache.setBuf, hj]

theorem setStage_hold_self {i : Fin NBUF} {v : View} {key : Key} {st st' : Stage}
    (h : v.hold i = some (key, st)) : (v.setStage i st').hold i = some (key, st') := by
  simp [View.setStage, h]

theorem setStage_hold_ne (v : View) {i : Fin NBUF} (st : Stage) (hj : j ≠ i) :
    (v.setStage i st).hold j = v.hold j := by
  simp [View.setStage, hj]

theorem setStage_refs (v : View) (st : Stage) (i j : Fin NBUF) :
    (v.setStage i st).refs j = v.refs j := by
  by_cases hj : j = i
  · subst hj
    simp [View.refs, View.setStage]
  · simp [View.refs, View.setStage, hj]

/-- Who has which buffer, as the locks and the reference counts record it. -/
structure Owned [Fintype P] (view : P → View) (c : Cache P) : Prop where
  refcnt : ∀ i, (c.bufs i).refcnt = ∑ p, (view p).refs i
  lock : ∀ i p, (c.bufs i).lock = some p ↔ (view p).hold i ≠ none
  hold : ∀ p i key st, (view p).hold i = some (key, st) →
    ((c.bufs i).dev, (c.bufs i).blockno) = key ∧ StageOk (c.bufs i) st
  extra : ∀ p i key, (view p).extra = some (i, key) →
    ((c.bufs i).dev, (c.bufs i).blockno) = key

/-- What the buffers and the disk hold, against the map `A`. -/
structure Coherent (A : Contents) (view : P → View) (c : Cache P) : Prop where
  lru : ∀ i, i ∈ c.lru
  unique : ∀ i j, (c.bufs i).dev = 1 → (c.bufs j).dev = 1 →
    (c.bufs i).blockno = (c.bufs j).blockno → i = j
  valid : ∀ i, (c.bufs i).valid = true → (c.bufs i).dev = 1
  dirty : ∀ i, (c.bufs i).dirty = true → (c.bufs i).valid = true
  content : ∀ i, (c.bufs i).valid = true → Stable view i →
    (c.bufs i).data = (A (c.bufs i).blockno).1
  disk : ∀ b, A b = (c.disk b, false) ∨ Pinned c b

section Steps

variable [Fintype P] [DecidableEq P] {A A' : Contents} {view : P → View} {c : Cache P} {p : P}
    {i : Fin NBUF} {key : Key} {st st' : Stage}

omit [DecidableEq P] in
theorem Owned.hold_eq_none (h : Owned view c) (hold : (view p).hold i = some (key, st)) {q : P}
    (hq : q ≠ p) : (view q).hold i = none := by
  by_contra hcon
  have hp := (h.lock i p).mpr (by simp [hold])
  have hq' := (h.lock i q).mpr hcon
  rw [hp] at hq'
  exact hq (Option.some.inj hq').symm

omit [Fintype P] in
theorem stable_of_update (hj : j ≠ i)
    (hst : Stable (update view p ((view p).setStage i st')) j) : Stable view j := by
  intro q key' st2 hq
  apply hst q key' st2
  by_cases hqp : q = p
  · subst hqp
    rwa [update_self, setStage_hold_ne _ _ hj]
  · rwa [update_of_ne hqp]

/-- A buffer with other data and flags, for the same block and the same users. -/
structure SameUse (b b' : Buf P) : Prop where
  dev : b'.dev = b.dev
  blockno : b'.blockno = b.blockno
  lock : b'.lock = b.lock
  refcnt : b'.refcnt = b.refcnt

theorem Owned.move (h : Owned view c) {v : View}
    (hrefcnt : b.refcnt + (view p).refs i = (c.bufs i).refcnt + v.refs i)
    (hlock : b.lock = some p ↔ v.hold i ≠ none)
    (hlocks : ∀ q ≠ p, b.lock = some q ↔ (view q).hold i ≠ none)
    (hhold : ∀ key st, v.hold i = some (key, st) → (b.dev, b.blockno) = key ∧ StageOk b st)
    (hholds : ∀ q ≠ p, ∀ key st, (view q).hold i = some (key, st) →
      (b.dev, b.blockno) = key ∧ StageOk b st)
    (hextra : ∀ key, v.extra = some (i, key) → (b.dev, b.blockno) = key)
    (hextras : ∀ q ≠ p, ∀ key, (view q).extra = some (i, key) → (b.dev, b.blockno) = key)
    (hother : ∀ j, j ≠ i → v.hold j = (view p).hold j ∧ v.refs j = (view p).refs j ∧
      ∀ key, v.extra = some (j, key) → (view p).extra = some (j, key)) :
    Owned (update view p v) (c.setBuf i b) := by
  have hview : ∀ q j, j ≠ i → (update view p v q).hold j = (view q).hold j := by
    intro q j hj
    by_cases hqp : q = p
    · subst hqp
      rw [update_self, (hother j hj).1]
    · rw [update_of_ne hqp]
  refine ⟨?_, ?_, ?_, ?_⟩
  · intro j
    have hsum := sum_update_add (fun v : View => v.refs j) view p v
    have hold := h.refcnt j
    by_cases hj : j = i
    · subst hj
      rw [setBuf_bufs_self]
      omega
    · rw [setBuf_bufs_ne _ _ hj]
      have hsame := (hother j hj).2.1
      omega
  · intro j q
    by_cases hj : j = i
    · subst hj
      rw [setBuf_bufs_self]
      exact (forall_update_iff view fun q w => b.lock = some q ↔ w.hold j ≠ none).mpr
        ⟨hlock, hlocks⟩ q
    · rw [setBuf_bufs_ne _ _ hj, hview q j hj]
      exact h.lock j q
  · intro q j key st hq
    by_cases hj : j = i
    · subst hj
      rw [setBuf_bufs_self]
      exact (forall_update_iff view fun _ w => ∀ key st, w.hold j = some (key, st) →
        (b.dev, b.blockno) = key ∧ StageOk b st).mpr ⟨hhold, hholds⟩ q key st hq
    · rw [hview q j hj] at hq
      rw [setBuf_bufs_ne _ _ hj]
      exact h.hold q j key st hq
  · intro q j key hq
    by_cases hj : j = i
    · subst hj
      rw [setBuf_bufs_self]
      exact (forall_update_iff view fun _ w => ∀ key, w.extra = some (j, key) →
        (b.dev, b.blockno) = key).mpr ⟨hextra, hextras⟩ q key hq
    · rw [setBuf_bufs_ne _ _ hj]
      apply h.extra q j key
      by_cases hqp : q = p
      · subst hqp
        rw [update_self] at hq
        exact (hother j hj).2.2 key hq
      · rwa [update_of_ne hqp] at hq

theorem Owned.setStage (h : Owned view c) (hold : (view p).hold i = some (key, st))
    (hsame : SameUse (c.bufs i) b) (hstage : StageOk b st') :
    Owned (update view p ((view p).setStage i st')) (c.setBuf i b) := by
  have hbuf := (h.hold p i key st hold).1
  apply h.move
  · rw [setStage_refs, hsame.refcnt]
  · rw [hsame.lock, h.lock i p]
    simp [setStage_hold_self hold, hold]
  · intro q _
    rw [hsame.lock, h.lock i q]
  · intro key' st2 hp
    rw [setStage_hold_self hold] at hp
    cases hp
    rw [hsame.dev, hsame.blockno]
    exact ⟨hbuf, hstage⟩
  · intro q hqp key' st2 hq
    rw [h.hold_eq_none hold hqp] at hq
    cases hq
  · intro key' hp
    rw [hsame.dev, hsame.blockno]
    exact h.extra p i key' hp
  · intro q _ key' hq
    rw [hsame.dev, hsame.blockno]
    exact h.extra q i key' hq
  · intro j hj
    exact ⟨setStage_hold_ne _ _ hj, setStage_refs _ _ _ _, fun _ => id⟩

omit [Fintype P] in
theorem Coherent.setStage (h : Coherent A view c) {disk : Disk}
    (hold : (view p).hold i = some (key, st)) (hsame : SameUse (c.bufs i) b)
    (hdev : (c.bufs i).dev = 1) (hvalid : b.valid = true)
    (hother : ∀ n, n ≠ (c.bufs i).blockno → A' n = A n ∧ disk n = c.disk n)
    (hcontent : st' ≠ .modified → st' ≠ .flushing → b.data = (A' (c.bufs i).blockno).1)
    (hdisk : A' (c.bufs i).blockno = (disk (c.bufs i).blockno, false) ∨ b.dirty = true) :
    Coherent A' (update view p ((view p).setStage i st'))
      ({ c with disk := disk }.setBuf i b) := by
  have hself : ({ c with disk := disk }.setBuf i b).bufs i = b := setBuf_bufs_self _ i b
  have hne : ∀ j, j ≠ i → ({ c with disk := disk }.setBuf i b).bufs j = c.bufs j :=
    fun j hj => setBuf_bufs_ne _ b hj
  have hkey : ∀ j, (({ c with disk := disk }.setBuf i b).bufs j).dev = (c.bufs j).dev ∧
      (({ c with disk := disk }.setBuf i b).bufs j).blockno = (c.bufs j).blockno := by
    intro j
    by_cases hj : j = i
    · subst hj
      rw [hself]
      exact ⟨hsame.dev, hsame.blockno⟩
    · rw [hne j hj]
      exact ⟨rfl, rfl⟩
  have hpinned : ∀ n, n ≠ (c.bufs i).blockno → Pinned c n →
      Pinned ({ c with disk := disk }.setBuf i b) n := by
    rintro n hn ⟨j, hjdev, rfl, hjdirty⟩
    have hj : j ≠ i := by
      rintro rfl
      exact hn rfl
    exact ⟨j, by rw [hne j hj]; exact ⟨hjdev, rfl, hjdirty⟩⟩
  have hpin : b.dirty = true → Pinned ({ c with disk := disk }.setBuf i b) (c.bufs i).blockno :=
    fun hdirty => ⟨i, by rw [hself]; exact ⟨hsame.dev.trans hdev, hsame.blockno, hdirty⟩⟩
  refine ⟨h.lru, ?_, ?_, ?_, ?_, ?_⟩
  · intro j k hj hk heq
    rw [(hkey j).1] at hj
    rw [(hkey k).1] at hk
    rw [(hkey j).2, (hkey k).2] at heq
    exact h.unique j k hj hk heq
  · intro j hj
    by_cases hji : j = i
    · subst hji
      rw [hself, hsame.dev, hdev]
    · rw [hne j hji] at hj ⊢
      exact h.valid j hj
  · intro j hj
    by_cases hji : j = i
    · subst hji
      rw [hself, hvalid]
    · rw [hne j hji] at hj ⊢
      exact h.dirty j hj
  · intro j hj hst
    by_cases hji : j = i
    · subst hji
      have hp := hst p key st' (by rw [update_self, setStage_hold_self hold])
      rw [hself, hsame.blockno]
      exact hcontent hp.1 hp.2
    · rw [hne j hji] at hj ⊢
      have hblock : (c.bufs j).blockno ≠ (c.bufs i).blockno := fun heq =>
        hji (h.unique j i (h.valid j hj) hdev heq)
      rw [(hother _ hblock).1]
      exact h.content j hj (stable_of_update hji hst)
  · intro n
    change A' n = (disk n, false) ∨ _
    by_cases hn : n = (c.bufs i).blockno
    · subst hn
      exact hdisk.imp id hpin
    · rw [(hother n hn).1, (hother n hn).2]
      exact (h.disk n).imp id (hpinned n hn)

structure SameData (b b' : Buf P) : Prop where
  dev : b'.dev = b.dev
  blockno : b'.blockno = b.blockno
  valid : b'.valid = b.valid
  dirty : b'.dirty = b.dirty
  data : b'.data = b.data

omit [Fintype P] [DecidableEq P] in
theorem SameData.setBuf (hsame : SameData (c.bufs i) b) (j : Fin NBUF) :
    SameData (c.bufs j) ((c.setBuf i b).bufs j) := by
  by_cases hj : j = i
  · subst hj
    rwa [setBuf_bufs_self]
  · rw [setBuf_bufs_ne _ _ hj]
    exact ⟨rfl, rfl, rfl, rfl, rfl⟩

variable {c' : Cache P}

omit [Fintype P] [DecidableEq P] in
theorem Coherent.congr (h : Coherent A view c) {view' : P → View}
    (hlru : ∀ j, j ∈ c'.lru) (hbuf : ∀ j, SameData (c.bufs j) (c'.bufs j))
    (hdisk : c'.disk = c.disk) (hstable : ∀ j, Stable view' j → Stable view j) :
    Coherent A view' c' := by
  have hpinned : ∀ n, Pinned c n → Pinned c' n := by
    rintro n ⟨j, hdev, hblock, hdirty⟩
    refine ⟨j, ?_⟩
    rw [(hbuf j).dev, (hbuf j).blockno, (hbuf j).dirty]
    exact ⟨hdev, hblock, hdirty⟩
  refine ⟨hlru, ?_, ?_, ?_, ?_, ?_⟩
  · intro j k
    rw [(hbuf j).dev, (hbuf k).dev, (hbuf j).blockno, (hbuf k).blockno]
    exact h.unique j k
  · intro j
    rw [(hbuf j).valid, (hbuf j).dev]
    exact h.valid j
  · intro j
    rw [(hbuf j).dirty, (hbuf j).valid]
    exact h.dirty j
  · intro j hj hst
    rw [(hbuf j).valid] at hj
    rw [(hbuf j).data, (hbuf j).blockno]
    exact h.content j hj (hstable j hst)
  · intro n
    rw [hdisk]
    exact (h.disk n).imp id (hpinned n)

omit [Fintype P] in
theorem stable_of_hold_eq {v' : View} (hv : v'.hold = (view p).hold) (j : Fin NBUF)
    (hst : Stable (update view p v') j) : Stable view j := by
  intro q key' st2 hq
  apply hst q key' st2
  by_cases hqp : q = p
  · subst hqp
    rwa [update_self, hv]
  · rwa [update_of_ne hqp]

section

variable (h : Owned view c)

include h

omit [DecidableEq P] in
theorem Owned.unused (hzero : (c.bufs i).refcnt = 0) (q : P) :
    (view q).hold i = none ∧ ∀ key, (view q).extra ≠ some (i, key) := by
  have hle := share_le_sum (fun v : View => v.refs i) view q
  rw [← h.refcnt i, hzero] at hle
  have hrefs : (view q).refs i = 0 := Nat.le_zero.mp hle
  unfold View.refs at hrefs
  refine ⟨?_, ?_⟩
  · by_contra hcon
    obtain ⟨x, hx⟩ := Option.ne_none_iff_exists'.mp hcon
    simp [hx] at hrefs
  · intro key hkey
    simp [hkey] at hrefs

theorem Owned.ref (hnone : (view p).extra = none)
    (hlock : b.lock = (c.bufs i).lock) (hrefcnt : b.refcnt = (c.bufs i).refcnt + 1)
    (hhold : ∀ q key' st2, (view q).hold i = some (key', st2) →
      (b.dev, b.blockno) = key' ∧ StageOk b st2)
    (hextra : ∀ q key', (view q).extra = some (i, key') → (b.dev, b.blockno) = key')
    (hkey : (b.dev, b.blockno) = key) :
    Owned (update view p { view p with extra := some (i, key) }) (c.setBuf i b) := by
  have hlocks : ∀ q, b.lock = some q ↔ (view q).hold i ≠ none := by
    rw [hlock]
    exact h.lock i
  refine h.move ?_ (hlocks p) (fun q _ => hlocks q) (hhold p) (fun q _ => hhold q)
    (fun key' hp => ?_)
    (fun q _ => hextra q) fun j hj => ⟨rfl, ?_, fun key' hp => ?_⟩
  · simp only [View.refs, hnone, hrefcnt, Option.any_none, Option.any_some, beq_self_eq_true,
      Bool.toNat_true, Bool.toNat_false]
    omega
  · cases hp
    exact hkey
  · simp [View.refs, hnone, hj.symm]
  · cases hp
    exact absurd rfl hj

theorem Owned.unref (hextra : (view p).extra = some (i, key))
    (hsame : SameData (c.bufs i) b) (hlock : b.lock = (c.bufs i).lock)
    (hrefcnt : b.refcnt = (c.bufs i).refcnt - 1) :
    Owned (update view p { view p with extra := none }) (c.setBuf i b) := by
  have hlocks : ∀ q, b.lock = some q ↔ (view q).hold i ≠ none := by
    rw [hlock]
    exact h.lock i
  have hholds : ∀ q key' st, (view q).hold i = some (key', st) →
      (b.dev, b.blockno) = key' ∧ StageOk b st := by
    intro q key' st hq
    obtain ⟨hkey, hst⟩ := h.hold q i key' st hq
    rw [hsame.dev, hsame.blockno]
    refine ⟨hkey, ?_⟩
    cases st <;> simp only [StageOk, hsame.valid, hsame.dirty] at hst ⊢ <;> exact hst
  refine h.move ?_ (hlocks p) (fun q _ => hlocks q) (hholds p) (fun q _ => hholds q) (by simp)
    (fun q _ key' hq => ?_) fun j hj => ⟨rfl, by simp [View.refs, hextra, hj.symm], by simp⟩
  · have hle := share_le_sum (fun v : View => v.refs i) view p
    rw [← h.refcnt i] at hle
    simp only [View.refs, hextra, hrefcnt, Option.any_none, Option.any_some, beq_self_eq_true,
      Bool.toNat_true, Bool.toNat_false] at hle ⊢
    omega
  · rw [hsame.dev, hsame.blockno]
    exact h.extra q i key' hq

theorem Owned.acquire (hextra : (view p).extra = some (i, key)) (hfree : (c.bufs i).lock = none) :
    (view p).hold i = none ∧ Owned (update view p
        ⟨update (view p).hold i (some (key, .locked)), none⟩)
        (c.setBuf i { c.bufs i with lock := some p }) := by
  have hnone : ∀ q, (view q).hold i = none := by
    intro q
    by_contra hcon
    rw [(h.lock i q).mpr hcon] at hfree
    cases hfree
  refine ⟨hnone p, h.move (by simp [View.refs, hextra, hnone p]) (by simp) (fun q hqp => ?_)
    (fun key' st2 hp => ?_) (fun q _ key' st2 hq => ?_) (by simp) (fun q _ => h.extra q i)
    fun j hj => ⟨by simp [hj], by simp [View.refs, hextra, hj, hj.symm], by simp⟩⟩
  · simp [hnone q, Ne.symm hqp]
  · simp only [update_self] at hp
    cases hp
    exact ⟨h.extra p i key hextra, trivial⟩
  · rw [hnone q] at hq
    cases hq

theorem Owned.release (hold : (view p).hold i = some (key, .ready))
    (hnone : (view p).extra = none) :
    Owned (update view p ⟨update (view p).hold i none, some (i, key)⟩)
      (c.setBuf i { c.bufs i with lock := none }) := by
  refine h.move (by simp [View.refs, hold, hnone]) (by simp) (fun q hqp => ?_) (by simp)
    (fun q hqp key' st2 hq => ?_) (fun key' hp => ?_) (fun q _ => h.extra q i)
    fun j hj => ⟨by simp [hj], by simp [View.refs, hnone, hj, hj.symm], fun key' hp => ?_⟩
  · simp [h.hold_eq_none hold hqp]
  · rw [h.hold_eq_none hold hqp] at hq
    cases hq
  · cases hp
    exact (h.hold p i key .ready hold).1
  · cases hp
    exact absurd rfl hj

end

omit [Fintype P] [DecidableEq P] in
theorem Coherent.recycle (h : Coherent A view c) {view' : P → View}
    (hclean : (c.bufs i).dirty = false) (hvalid : b.valid = false) (hdirty : b.dirty = false)
    (hfresh : ∀ j, (c.bufs j).dev = b.dev → (c.bufs j).blockno ≠ b.blockno)
    (hstable : ∀ j, Stable view' j → Stable view j) : Coherent A view' (c.setBuf i b) := by
  have hpinned : ∀ n, Pinned c n → Pinned (c.setBuf i b) n := by
    rintro n ⟨j, hdev, hblock, hjdirty⟩
    have hj : j ≠ i := by
      rintro rfl
      rw [hclean] at hjdirty
      cases hjdirty
    exact ⟨j, by rw [setBuf_bufs_ne _ _ hj]; exact ⟨hdev, hblock, hjdirty⟩⟩
  refine ⟨h.lru, ?_, ?_, ?_, ?_, ?_⟩
  · intro j k hj hk heq
    by_cases hji : j = i
    · by_cases hki : k = i
      · rw [hji, hki]
      · subst hji
        rw [setBuf_bufs_self] at hj heq
        rw [setBuf_bufs_ne _ _ hki] at hk heq
        exact absurd heq.symm (hfresh k (hk.trans hj.symm))
    · rw [setBuf_bufs_ne _ _ hji] at hj heq
      by_cases hki : k = i
      · subst hki
        rw [setBuf_bufs_self] at hk heq
        exact absurd heq (hfresh j (hj.trans hk.symm))
      · rw [setBuf_bufs_ne _ _ hki] at hk heq
        exact h.unique j k hj hk heq
  · intro j hj
    by_cases hji : j = i
    · subst hji
      rw [setBuf_bufs_self, hvalid] at hj
      cases hj
    · rw [setBuf_bufs_ne _ _ hji] at hj ⊢
      exact h.valid j hj
  · intro j hj
    by_cases hji : j = i
    · subst hji
      rw [setBuf_bufs_self, hdirty] at hj
      cases hj
    · rw [setBuf_bufs_ne _ _ hji] at hj ⊢
      exact h.dirty j hj
  · intro j hj hst
    by_cases hji : j = i
    · subst hji
      rw [setBuf_bufs_self, hvalid] at hj
      cases hj
    · rw [setBuf_bufs_ne _ _ hji] at hj ⊢
      exact h.content j hj (hstable j hst)
  · exact fun n => (h.disk n).imp id (hpinned n)

theorem scan_step {dev blockno : Nat} (ho : Owned view c)
    (hc : Coherent A view c) (hnone : (view p).extra = none)
    (hop : scan c dev blockno = .ok i c') :
    Owned (update view p { view p with extra := some (i, (dev, blockno)) }) c' ∧
      Coherent A (update view p { view p with extra := some (i, (dev, blockno)) })
        c' := by
  unfold scan at hop
  split at hop
  · rename_i j hfind
    cases hop
    have hkey := List.find?_some hfind
    simp only [Bool.and_eq_true, beq_iff_eq] at hkey
    refine ⟨?_, ?_⟩
    · refine ho.ref hnone ?_ ?_ ?_ ?_ ?_
      · rfl
      · rfl
      · exact fun q key' st2 hq => ho.hold q i key' st2 hq
      · exact fun q key' hq => ho.extra q i key' hq
      · rw [hkey.1, hkey.2]
    · refine hc.congr hc.lru (SameData.setBuf ⟨?_, ?_, ?_, ?_, ?_⟩) ?_ (stable_of_hold_eq rfl)
      all_goals rfl
  · rename_i hmiss
    split at hop
    · rename_i j hfind
      cases hop
      have hfree := List.find?_some hfind
      simp only [Bool.and_eq_true, beq_iff_eq, Bool.not_eq_true'] at hfree
      refine ⟨?_, ?_⟩
      · refine ho.ref hnone ?_ ?_ ?_ ?_ ?_
        · rfl
        · rw [hfree.1]
        · intro q key' st2 hq
          rw [(ho.unused hfree.1 q).1] at hq
          cases hq
        · exact fun q key' hq => absurd hq ((ho.unused hfree.1 q).2 key')
        · rfl
      · refine hc.recycle hfree.2 ?_ ?_ ?_ (stable_of_hold_eq rfl)
        · rfl
        · rfl
        · intro k hdev hblock
          have hk := List.find?_eq_none.mp hmiss k (hc.lru k)
          simp [hdev, hblock] at hk
    · cases hop

theorem iderw_step (ho : Owned view c) (hc : Coherent A view c)
    (hpre : ∃ key, (view p).hold i = some (key, .missing) ∨ (view p).hold i = some (key, .flushing))
    (hop : iderw p c i = .ok () c') :
    Owned (update view p ((view p).setStage i .ready)) c' ∧
      Coherent (store c (.iderw i) A) (update view p ((view p).setStage i .ready)) c' := by
  obtain ⟨key, hpre⟩ := hpre
  unfold iderw at hop
  simp only at hop
  split_ifs at hop with hlock hidle hdev hrange hdirty
  · cases hop
    obtain ⟨st, hold⟩ : ∃ st, (view p).hold i = some (key, st) := by
      rcases hpre with hpre | hpre <;> exact ⟨_, hpre⟩
    have hsame : SameUse (c.bufs i) { c.bufs i with dirty := false, valid := true } :=
      ⟨rfl, rfl, rfl, rfl⟩
    refine ⟨?_, ?_⟩
    · have hstage : StageOk { c.bufs i with dirty := false, valid := true } .ready := rfl
      have hmoved := ho.setStage hold hsame hstage
      exact ⟨hmoved.refcnt, hmoved.lock, hmoved.hold, hmoved.extra⟩
    · simp only [store, hdirty, if_true]
      refine hc.setStage hold hsame (by simpa using hdev) rfl ?_ ?_ ?_
      · intro n hn
        simp [hn]
      · simp
      · simp
  · cases hop
    -- a clean buffer is being filled, so its block is not cached anywhere
    have hmissing : (view p).hold i = some (key, .missing) := by
      rcases hpre with hpre | hpre
      · exact hpre
      · exact absurd (ho.hold p i key _ hpre).2.2 hdirty
    have hinvalid : (c.bufs i).valid = false := (ho.hold p i key _ hmissing).2
    have hnotpinned : ¬ Pinned c (c.bufs i).blockno := by
      rintro ⟨j, hjdev, hjblock, hjdirty⟩
      have hj := hc.unique j i hjdev (by simpa using hdev) hjblock
      subst hj
      exact hdirty hjdirty
    have hsame : SameUse (c.bufs i)
        { c.bufs i with data := c.disk (c.bufs i).blockno, valid := true } :=
      ⟨rfl, rfl, rfl, rfl⟩
    have hstore : store c (.iderw i) A = A := by simp [store, hdirty]
    refine ⟨ho.setStage hmissing hsame rfl, ?_⟩
    rw [hstore]
    have hfresh := (hc.disk (c.bufs i).blockno).resolve_right hnotpinned
    refine hc.setStage hmissing hsame (by simpa using hdev) rfl ?_ ?_ ?_
    · exact fun n _ => ⟨rfl, rfl⟩
    · exact fun _ _ => by rw [hfresh]
    · exact Or.inl hfresh

omit [Fintype P] in
theorem stable_of_setStage (hold : (view p).hold i = some (key, st))
    (hst : st ≠ .modified ∧ st ≠ .flushing) (j : Fin NBUF)
    (hstable : Stable (update view p ((view p).setStage i st')) j) : Stable view j := by
  by_cases hj : j = i
  · subst hj
    intro q key' st2 hq
    by_cases hqp : q = p
    · subst hqp
      rw [hold] at hq
      cases hq
      exact hst
    · apply hstable q key' st2
      rwa [update_of_ne hqp]
  · exact stable_of_update hj hstable

omit [Fintype P] [DecidableEq P] in
theorem Coherent.log (h : Coherent A view c) (log : LogState) :
    Coherent A view { c with log := log } :=
  ⟨h.lru, h.unique, h.valid, h.dirty, h.content, h.disk⟩

omit [DecidableEq P] in
theorem Owned.log (h : Owned view c) (log : LogState) : Owned view { c with log := log } :=
  ⟨h.refcnt, h.lock, h.hold, h.extra⟩

omit [DecidableEq P] in
theorem usable_spec (ho : Owned view c) (hc : Coherent A view c)
    (husable : (view p).Usable i) :
    ∃ key st, (view p).hold i = some (key, st) ∧ (c.bufs i).valid = true ∧ (c.bufs i).dev = 1 := by
  obtain ⟨key, hold | hold⟩ := husable
  · have hvalid := (ho.hold p i key _ hold).2
    exact ⟨key, _, hold, hvalid, hc.valid i hvalid⟩
  · have hvalid := (ho.hold p i key _ hold).2
    exact ⟨key, _, hold, hvalid, hc.valid i hvalid⟩

omit [Fintype P] [DecidableEq P] in
theorem Coherent.dirty_of_pinned (h : Coherent A view c) (hdev : (c.bufs i).dev = 1)
    (hpinned : Pinned c (c.bufs i).blockno) : (c.bufs i).dirty = true := by
  obtain ⟨j, hjdev, hjblock, hjdirty⟩ := hpinned
  have hj := h.unique j i hjdev hdev hjblock
  rwa [hj] at hjdirty

theorem unref_step (ho : Owned view c) (hc : Coherent A view c)
    (hextra : (view p).extra = some (i, key)) :
    Owned (update view p { view p with extra := none }) (unref c i) ∧
      Coherent A (update view p { view p with extra := none }) (unref c i) := by
  have hsame : SameData (c.bufs i) { c.bufs i with refcnt := (c.bufs i).refcnt - 1 } :=
    ⟨rfl, rfl, rfl, rfl, rfl⟩
  have howned := ho.unref hextra hsame rfl rfl
  have hcoherent : Coherent A (update view p { view p with extra := none })
      (c.setBuf i { c.bufs i with refcnt := (c.bufs i).refcnt - 1 }) :=
    hc.congr hc.lru hsame.setBuf rfl (stable_of_hold_eq rfl)
  unfold unref
  simp only
  split_ifs
  · refine ⟨⟨howned.refcnt, howned.lock, howned.hold, howned.extra⟩, ?_, hcoherent.unique,
      hcoherent.valid, hcoherent.dirty, hcoherent.content, hcoherent.disk⟩
    intro j
    by_cases hj : j = i
    · subst hj
      exact mem_cons_self
    · exact mem_cons_of_mem _ ((mem_erase_of_ne hj).mpr (hc.lru j))
  · exact ⟨howned, hcoherent⟩

/-- Every operation takes the view of its process along the protocol, the cache
along the map, and keeps both parts of the invariant. -/
theorem cache_step {o : CacheOp} {r : o.Ret} (ho : Owned view c)
    (hc : Coherent A view c) (hpre : cacheProtocol.pre o (view p))
    (hop : cache p o c = .ok r c') :
    ∃ v, cacheProtocol.post o (view p) r v ∧ Owned (update view p v) c' ∧
      Coherent (store c o A) (update view p v) c' := by
  cases o with
  | scan dev blockno => exact ⟨_, rfl, scan_step ho hc hpre hop⟩
  | acquiresleep i =>
    obtain ⟨key, hextra⟩ := hpre
    simp only [cache] at hop
    split at hop
    · cases hop
    · rename_i hfree
      cases hop
      obtain ⟨hnone, hacquired⟩ := ho.acquire hextra hfree
      refine ⟨_, ⟨hnone, key, hextra, rfl⟩, hacquired, ?_⟩
      refine hc.congr hc.lru (SameData.setBuf ⟨?_, ?_, ?_, ?_, ?_⟩) ?_ ?_
      all_goals try rfl
      intro j hst q key' st2 hq
      apply hst q key' st2
      by_cases hqp : q = p
      · subst hqp
        have hj : j ≠ i := by
          rintro rfl
          rw [hnone] at hq
          cases hq
        simpa [hj] using hq
      · rwa [update_of_ne hqp]
  | valid i =>
    obtain ⟨key, hold⟩ := hpre
    cases hop
    refine ⟨_, rfl, ?_, ?_⟩
    · have hsame : SameUse (c.bufs i) (c.bufs i) := ⟨rfl, rfl, rfl, rfl⟩
      have hstage : StageOk (c.bufs i) (if (c.bufs i).valid then .ready else .missing) := by
        cases hvalid : (c.bufs i).valid <;> exact hvalid
      have hmoved := ho.setStage hold hsame hstage
      rwa [Cache.setBuf, update_eq_self] at hmoved
    · refine hc.congr hc.lru (fun _ => ⟨rfl, rfl, rfl, rfl, rfl⟩) rfl ?_
      exact stable_of_setStage hold (by simp)
  | iderw i => exact ⟨_, rfl, iderw_step ho hc hpre hop⟩
  | setDirty i =>
    obtain ⟨key, st, hold, hvalid, hdev⟩ := usable_spec ho hc hpre
    simp only [cache] at hop
    split_ifs at hop
    cases hop
    have hsame : SameUse (c.bufs i) { c.bufs i with dirty := true } := ⟨rfl, rfl, rfl, rfl⟩
    refine ⟨_, rfl, ho.setStage hold hsame ⟨hvalid, rfl⟩, ?_⟩
    refine hc.setStage hold hsame hdev hvalid ?_ ?_ ?_
    · exact fun n _ => ⟨rfl, rfl⟩
    · exact fun _ hst => absurd rfl hst
    · exact Or.inr rfl
  | setData i data =>
    obtain ⟨key, st, hold, hvalid, hdev⟩ := usable_spec ho hc hpre
    cases hop
    have hsame : SameUse (c.bufs i) { c.bufs i with data := data } := ⟨rfl, rfl, rfl, rfl⟩
    refine ⟨_, rfl, ho.setStage hold hsame hvalid, ?_⟩
    refine hc.setStage hold hsame hdev hvalid ?_ ?_ ?_
    · exact fun n _ => ⟨rfl, rfl⟩
    · exact fun hst => absurd rfl hst
    · exact (hc.disk _).imp id (hc.dirty_of_pinned hdev)
  | logAppend i =>
    obtain ⟨key, st, hold, hvalid, hdev⟩ := usable_spec ho hc hpre
    cases hop
    have hsame : SameUse (c.bufs i) { c.bufs i with dirty := true } := ⟨rfl, rfl, rfl, rfl⟩
    refine ⟨_, rfl, (ho.log _).setStage hold hsame hvalid, ?_⟩
    have hlogged := hc.log (c.log.append (c.bufs i).blockno)
    refine hlogged.setStage hold hsame hdev hvalid ?_ ?_ ?_
    · intro n hn
      simp only at hn
      simp [store, hn]
    · simp [store]
    · exact Or.inr rfl
  | releasesleep i =>
    obtain ⟨⟨key, hold⟩, hnone⟩ := hpre
    simp only [cache] at hop
    split_ifs at hop
    cases hop
    refine ⟨_, ⟨key, hold, rfl⟩, ho.release hold hnone, ?_⟩
    refine hc.congr hc.lru (SameData.setBuf ⟨?_, ?_, ?_, ?_, ?_⟩) ?_ ?_
    all_goals try rfl
    intro j hst q key' st2 hq
    by_cases hqp : q = p
    · subst hqp
      by_cases hj : j = i
      · subst hj
        rw [hold] at hq
        cases hq
        simp
      · exact hst q key' st2 (by simpa [hj] using hq)
    · exact hst q key' st2 (by rwa [update_of_ne hqp])
  | unref i =>
    obtain ⟨key, hextra⟩ := hpre
    cases hop
    exact ⟨_, rfl, unref_step ho hc hextra⟩
  | beginOp | endOp =>
    simp only [cache] at hop
    split at hop <;> cases hop
    exact ⟨_, rfl, by rw [update_eq_self]; exact ⟨ho.log _, hc.log _⟩⟩
  | logTest =>
    simp only [cache] at hop
    split at hop <;> cases hop
    exact ⟨_, rfl, by rw [update_eq_self]; exact ⟨ho, hc⟩⟩
  | _ =>
    cases hop
    exact ⟨_, rfl, by rw [update_eq_self]; exact ⟨ho.log _, hc.log _⟩⟩

end Steps

end Xv6.Bio
