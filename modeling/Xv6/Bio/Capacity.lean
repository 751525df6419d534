import Xv6.Bio.Ownership
import Xv6.Bio.Pinning
import Xv6.Log.Invariant

/-!
# When the buffer cache runs out

`bget` recycles a buffer that nobody refers to and that is not dirty.  Buffers are kept from it by
the references of processes and by blocks in the log; as long as both together are fewer than
`NBUF`, one is left.
-/

namespace Xv6.Bio

open Lib Log.Control Function

variable {P : Type} {i : Fin NBUF} {v : View} {ph : Phase}

def Flushing (view : P → View) (i : Fin NBUF) : Prop :=
  ∃ q key, (view q).hold i = some (key, .flushing)

def DirtyIn (S : Nat → Prop) (view : P → View) (c : Cache P) : Prop :=
  ∀ i, (c.bufs i).dirty = true → S (c.bufs i).blockno ∨ Flushing view i

section Dirty

variable [DecidableEq P] {view : P → View} {c c' : Cache P} {p : P} {v : View} {o : CacheOp}
  {r : o.Ret} {i j : Fin NBUF}

theorem Flushing.update (h : Flushing view j)
    (hkeep : ∀ key, (view p).hold j = some (key, .flushing) → v.hold j = some (key, .flushing)) :
    Flushing (update view p v) j := by
  obtain ⟨q, key, hq⟩ := h
  refine ⟨q, key, ?_⟩
  by_cases hqp : q = p
  · subst hqp
    rw [update_self]
    exact hkeep key hq
  · rwa [update_of_ne hqp]

omit [DecidableEq P] in
theorem keep_setStage {key : Key} {st : Stage} (hold : (view p).hold i = some (key, st))
    (hst : st ≠ .flushing) (st' : Stage) (key' : Key)
    (hj : (view p).hold j = some (key', .flushing)) :
    ((view p).setStage i st').hold j = some (key', .flushing) := by
  have hne : j ≠ i := fun heq => by
    rw [heq, hold] at hj
    cases hj
    exact hst rfl
  rwa [setStage_hold_ne _ _ hne]

omit [DecidableEq P] in
theorem setBuf_flags {b : Buf P} (hdirty : b.dirty = (c.bufs i).dirty)
    (hblockno : b.blockno = (c.bufs i).blockno) :
    ((c.setBuf i b).bufs j).dirty = (c.bufs j).dirty ∧
      ((c.setBuf i b).bufs j).blockno = (c.bufs j).blockno := by
  by_cases hj : j = i
  · subst hj
    rw [setBuf_bufs_self]
    exact ⟨hdirty, hblockno⟩
  · rw [setBuf_bufs_ne _ _ hj]
    exact ⟨rfl, rfl⟩

inductive DirtyCase (view view' : P → View) (c c' : Cache P) (o : CacheOp) (j : Fin NBUF) :
    Prop where
  | before (hdirty : (c.bufs j).dirty = true)
      (hblockno : (c'.bufs j).blockno = (c.bufs j).blockno) (ho : o ≠ .iderw j)
      (hkeep : Flushing view j → Flushing view' j)
  | flushing (h : Flushing view' j)
  | logged (ho : o = .logAppend j) (hblockno : (c'.bufs j).blockno = (c.bufs j).blockno)

theorem DirtyCase.same (hj : (c'.bufs j).dirty = true)
    (hflags : (c'.bufs j).dirty = (c.bufs j).dirty ∧ (c'.bufs j).blockno = (c.bufs j).blockno)
    (ho : o ≠ .iderw j)
    (hkeep : ∀ key, (view p).hold j = some (key, .flushing) → v.hold j = some (key, .flushing)) :
    DirtyCase view (update view p v) c c' o j :=
  .before (hflags.1 ▸ hj) hflags.2 ho fun h => h.update hkeep

theorem dirty_cases (hpre : cacheProtocol.pre o (view p)) (hop : cache p o c = .ok r c')
    (hpost : cacheProtocol.post o (view p) r v) (hj : (c'.bufs j).dirty = true) :
    DirtyCase view (update view p v) c c' o j := by
  cases o with
  | scan dev blockno =>
    cases hpost
    simp only [cache, scan] at hop
    split at hop
    · cases hop
      exact .same hj (setBuf_flags rfl rfl) (by simp) fun _ h => h
    · split at hop
      · case _ i _ =>
        cases hop
        have hne : j ≠ r := fun heq => by
          rw [heq, setBuf_bufs_self] at hj
          cases hj
        rw [setBuf_bufs_ne _ _ hne] at hj
        refine .before hj (by rw [setBuf_bufs_ne _ _ hne]) (by simp) fun h => h.update fun _ h => h
      · cases hop
  | acquiresleep i =>
    obtain ⟨hfree, key, -, rfl⟩ := hpost
    simp only [cache] at hop
    split at hop
    · cases hop
    · cases hop
      refine .same hj (setBuf_flags rfl rfl) (by simp) fun key' h => ?_
      have hne : j ≠ i := fun heq => by
        rw [heq, hfree] at h
        cases h
      exact (update_of_ne hne _ _).trans h
  | valid i =>
    obtain ⟨key, hold⟩ := hpre
    cases hpost
    cases hop
    exact .same hj ⟨rfl, rfl⟩ (by simp) (keep_setStage hold (by simp) _)
  | iderw i =>
    cases hpost
    have hother : j ≠ i ∧ c'.bufs j = c.bufs j := by
      simp only [cache, iderw] at hop
      split_ifs at hop with _ _ _ _ hdirty
      · cases hop
        have hne : j ≠ i := fun heq => by
          rw [heq, setBuf_bufs_self] at hj
          cases hj
        exact ⟨hne, setBuf_bufs_ne _ _ hne⟩
      · cases hop
        have hne : j ≠ i := fun heq => by
          rw [heq, setBuf_bufs_self] at hj
          exact hdirty hj
        exact ⟨hne, setBuf_bufs_ne _ _ hne⟩
    have ho : CacheOp.iderw i ≠ .iderw j := fun heq => hother.1 (CacheOp.iderw.inj heq).symm
    refine .same hj (by rw [hother.2]; exact ⟨rfl, rfl⟩) ho fun key h => ?_
    rwa [setStage_hold_ne _ _ hother.1]
  | setDirty i =>
    cases hpost
    simp only [cache] at hop
    split at hop
    · cases hop
    · cases hop
      by_cases hji : j = i
      · subst hji
        obtain ⟨key, hold | hold⟩ := hpre <;>
          exact .flushing ⟨p, key, by rw [update_self, setStage_hold_self hold]⟩
      · refine .same hj (by rw [setBuf_bufs_ne _ _ hji]; exact ⟨rfl, rfl⟩) (by simp) fun key h => ?_
        rwa [setStage_hold_ne _ _ hji]
  | setData i data =>
    cases hpost
    cases hop
    obtain ⟨key, hold | hold⟩ := hpre <;>
      exact .same hj (setBuf_flags rfl rfl) (by simp) (keep_setStage hold (by simp) _)
  | logAppend i =>
    cases hpost
    cases hop
    by_cases hji : j = i
    · subst hji
      exact .logged rfl (by rw [setBuf_bufs_self])
    · obtain ⟨key, hold | hold⟩ := hpre <;>
        exact .same hj (by rw [setBuf_bufs_ne _ _ hji]; exact ⟨rfl, rfl⟩) (by simp)
          (keep_setStage hold (by simp) _)
  | releasesleep i =>
    obtain ⟨key, hold, rfl⟩ := hpost
    simp only [cache] at hop
    split at hop
    · cases hop
    · cases hop
      refine .same hj (setBuf_flags rfl rfl) (by simp) fun key' h => ?_
      have hne : j ≠ i := fun heq => by
        rw [heq, hold] at h
        cases h
      exact (update_of_ne hne _ _).trans h
  | unref i =>
    cases hpost
    cases hop
    have hbufs : ((unref c i).bufs j) =
        (c.setBuf i { c.bufs i with refcnt := (c.bufs i).refcnt - 1 }).bufs j := by
      simp only [unref]
      split <;> rfl
    refine .same hj ?_ (by simp) fun _ h => h
    rw [hbufs]
    exact setBuf_flags rfl rfl
  | beginOp | logTest | endOp =>
    cases hpost
    simp only [cache] at hop
    split at hop
    · cases hop
    · cases hop
      exact .same hj ⟨rfl, rfl⟩ (by simp) fun _ h => h
  | data | log | clear | commitDone =>
    cases hpost
    cases hop
    exact .same hj ⟨rfl, rfl⟩ (by simp) fun _ h => h

theorem DirtyIn.step {S S' : Nat → Prop} (h : DirtyIn S view c)
    (hpre : cacheProtocol.pre o (view p)) (hop : cache p o c = .ok r c')
    (hpost : cacheProtocol.post o (view p) r v)
    (hkeep : ∀ j, (c.bufs j).dirty = true → o ≠ .iderw j → S (c.bufs j).blockno →
      S' (c.bufs j).blockno)
    (hlogged : ∀ j, o = .logAppend j → S' (c.bufs j).blockno) :
    DirtyIn S' (update view p v) c' := by
  intro j hj
  cases dirty_cases hpre hop hpost hj with
  | before hdirty hblockno ho hflush =>
    rw [hblockno]
    exact (h j hdirty).imp (hkeep j hdirty ho) hflush
  | flushing hflush => exact .inr hflush
  | logged ho hblockno =>
    rw [hblockno]
    exact .inl (hlogged j ho)

end Dirty

structure LogOk [Fintype P] (lv : P → LogView) (log : LogState) : Prop where
  outstanding : log.outstanding = ((∑ p, (lv p).phase.ops : Nat) : Int)
  committing : log.committing = true ↔ ∃ p, (lv p).phase.isCommit = true
  unique : ∀ p q, (lv p).phase.isCommit = true → (lv q).phase.isCommit = true → p = q
  quiet : ∀ p q, (lv p).phase.isCommit = true → (lv q).phase.ops = 0
  lh : ∀ p lh left, (lv p).phase = .commit lh left → log.lh = lh

section Log

variable [Fintype P] [DecidableEq P] {lv : P → LogView} {log log' : LogState} {p : P} {w : LogView}

theorem Phase.ops_of_isCommit (h : ph.isCommit = true) : ph.ops = 0 := by
  cases ph with
  | commit lh left => rfl
  | outside => rfl
  | inOp => cases h

omit [DecidableEq P] in
theorem LogOk.not_commit (h : LogOk lv log) (hp : (lv p).phase = .inOp) (q : P) :
    (lv q).phase.isCommit = false := by
  by_contra hq
  rw [Bool.not_eq_false] at hq
  have hops := h.quiet q p hq
  rw [hp] at hops
  cases hops

theorem LogOk.same (h : LogOk lv log) (hout : log'.outstanding = log.outstanding)
    (hcommitting : log'.committing = log.committing) (hops : w.phase.ops = (lv p).phase.ops)
    (hcommit : w.phase.isCommit = (lv p).phase.isCommit)
    (hlh : ∀ q lh left, (update lv p w q).phase = .commit lh left → log'.lh = lh) :
    LogOk (update lv p w) log' := by
  have hops' : ∀ q, (update lv p w q).phase.ops = (lv q).phase.ops := fun q => by
    by_cases hq : q = p
    · rw [hq, update_self, hops]
    · rw [update_of_ne hq]
  have hcommit' : ∀ q, (update lv p w q).phase.isCommit = (lv q).phase.isCommit :=
    fun q => by
      by_cases hq : q = p
      · rw [hq, update_self, hcommit]
      · rw [update_of_ne hq]
  refine ⟨?_, ?_, fun q q' => ?_, fun q q' => ?_, hlh⟩
  · simp only [hops', hout, h.outstanding]
  · simp only [hcommit', hcommitting, h.committing]
  · rw [hcommit', hcommit']
    exact h.unique q q'
  · rw [hcommit', hops']
    exact h.quiet q q'

omit [Fintype P] in
theorem phase_update {q : P} (h : (update lv p w q).phase = ph) :
    q = p ∧ w.phase = ph ∨ q ≠ p ∧ (lv q).phase = ph := by
  by_cases hq : q = p
  · rw [hq, update_self] at h
    exact .inl ⟨hq, h⟩
  · rw [update_of_ne hq] at h
    exact .inr ⟨hq, h⟩

theorem ops_update (lv : P → LogView) (p : P) (ph : Phase) :
    (∑ q, (update lv p ((lv p).setPhase ph) q).phase.ops) + (lv p).phase.ops =
      (∑ q, (lv q).phase.ops) + ph.ops :=
  sum_update_add (fun v : LogView => v.phase.ops) lv p ((lv p).setPhase ph)

@[simp] theorem Phase.ops_inOp : Phase.inOp.ops = 1 := rfl

@[simp] theorem Phase.ops_outside : Phase.outside.ops = 0 := rfl

omit [DecidableEq P] in
theorem LogOk.of_none (hout : log'.outstanding = ((∑ q, (lv q).phase.ops : Nat) : Int))
    (hcommitting : log'.committing = false) (hnone : ∀ q, (lv q).phase.isCommit = false) :
    LogOk lv log' := by
  refine ⟨hout, ?_, fun q q' hq => ?_, fun q q' hq => ?_, fun q lh left hq => ?_⟩
  · simp [hnone, hcommitting]
  · rw [hnone] at hq
    cases hq
  · rw [hnone] at hq
    cases hq
  · have hq' := hnone q
    rw [hq] at hq'
    cases hq'

omit [Fintype P] in
theorem isCommit_update (hnone : ∀ q, q ≠ p → (lv q).phase.isCommit = false)
    (hph : ph.isCommit = false) (q : P) :
    (update lv p ((lv p).setPhase ph) q).phase.isCommit = false := by
  by_cases hq : q = p
  · rw [hq, update_self]
    exact hph
  · rw [update_of_ne hq]
    exact hnone q hq

theorem LogOk.beginOp (h : LogOk lv log) (hp : (lv p).phase = .outside)
    (hlog : log.beginOp = some log') : LogOk (update lv p ((lv p).setPhase .inOp)) log' := by
  have hsum := ops_update lv p .inOp
  simp only [LogState.beginOp] at hlog
  split at hlog
  · cases hlog
  · split at hlog
    · cases hlog
    · case _ hcommitting _ =>
      cases hlog
      have hnone : ∀ q, (lv q).phase.isCommit = false := fun q => by
        by_contra hq
        exact hcommitting (h.committing.mpr ⟨q, by simpa using hq⟩)
      refine .of_none ?_ (by simpa using hcommitting) (isCommit_update (fun q _ => hnone q) rfl)
      have hout := h.outstanding
      rw [hp, Phase.ops_inOp, Phase.ops_outside] at hsum
      simp only [hout]
      omega

omit [DecidableEq P] in
theorem LogOk.append (h : LogOk lv log) (hp : (lv p).phase = .inOp) (b : Nat) :
    LogOk lv (log.append b) := by
  have hnone := h.not_commit hp
  refine .of_none ((log.append_outstanding b).trans h.outstanding) ?_ hnone
  rw [log.append_committing]
  by_contra hyes
  obtain ⟨q, hq⟩ := h.committing.mp (by simpa using hyes)
  rw [hnone q] at hq
  cases hq

/-- The phase after the critical section of `end_op`. -/
def endPhase (log : LogState) (doCommit : Bool) : Phase :=
  if doCommit then .commit log.lh log.lh else .outside

theorem LogOk.endOp (h : LogOk lv log) (hp : (lv p).phase = .inOp) {doCommit : Bool}
    (hlog : log.endOp = .ok (log', doCommit)) :
    log'.lh = log.lh ∧ LogOk (update lv p ((lv p).setPhase (endPhase log doCommit))) log' := by
  have hsum := ops_update lv p (endPhase log doCommit)
  rw [hp, Phase.ops_inOp] at hsum
  have hnone := h.not_commit hp
  have hout := h.outstanding
  simp only [LogState.endOp] at hlog
  split at hlog
  · cases hlog
  · case _ hcommitting =>
    split at hlog
    · case _ hzero =>
      cases hlog
      have hops : (endPhase log true).ops = 0 := rfl
      have hquiet : ∑ q, (update lv p ((lv p).setPhase (endPhase log true)) q).phase.ops = 0 := by
        omega
      have hself : (update lv p ((lv p).setPhase (endPhase log true)) p).phase =
          .commit log.lh log.lh := by
        rw [update_self]
        rfl
      have honly : ∀ q, (update lv p
          ((lv p).setPhase (endPhase log true)) q).phase.isCommit = true → q = p := fun q hq => by
        by_contra hne
        rw [update_of_ne hne, hnone q] at hq
        cases hq
      refine ⟨rfl, ?_, ?_, fun q q' hq hq' => ?_, fun q q' hq => ?_, fun q lh left hq => ?_⟩
      · rw [hquiet]
        exact hzero
      · exact iff_of_true rfl ⟨p, by rw [hself]; rfl⟩
      · rw [honly q hq, honly q' hq']
      · exact (Finset.sum_eq_zero_iff.mp hquiet) q' (Finset.mem_univ q')
      · have hqp := honly q (by rw [hq]; rfl)
        rw [hqp, hself] at hq
        cases hq
        rfl
    · cases hlog
      refine ⟨rfl, .of_none ?_ (by simpa using hcommitting)
        (isCommit_update (fun q _ => hnone q) rfl)⟩
      have hops : (endPhase log false).ops = 0 := rfl
      simp only
      omega

theorem LogOk.clear (h : LogOk lv log) {lh left : List Nat} (hp : (lv p).phase = .commit lh left) :
    LogOk (update lv p ((lv p).setPhase (.commit [] []))) { log with lh := [] } := by
  have hcommit : (lv p).phase.isCommit = true := by rw [hp]; rfl
  refine h.same rfl rfl (by rw [hp]; rfl) (by rw [hcommit]; rfl) fun q lh' left' hq => ?_
  rcases phase_update hq with ⟨-, hw⟩ | ⟨hne, hq⟩
  · cases hw
    rfl
  · exact absurd (h.unique q p (by rw [hq]; rfl) hcommit) hne

theorem LogOk.commitDone (h : LogOk lv log) (hp : (lv p).phase.isCommit = true) :
    LogOk (update lv p ((lv p).setPhase .outside)) { log with committing := false } := by
  have hsum := ops_update lv p .outside
  have hnone : ∀ q, q ≠ p → (lv q).phase.isCommit = false := fun q hne => by
    by_contra hq
    exact hne (h.unique q p (by simpa using hq) hp)
  refine .of_none ?_ rfl (isCommit_update hnone rfl)
  have hout := h.outstanding
  rw [Phase.ops_of_isCommit hp, Phase.ops_outside] at hsum
  simp only [hout]
  omega

end Log

/-- The block numbers a process remembers are those of the buffers it uses. -/
structure Known (v : View) (w : LogView) : Prop where
  hold : ∀ i key st, v.hold i = some (key, st) → w.keys i = key.2
  extra : ∀ i key, v.extra = some (i, key) → w.keys i = key.2

structure Pins [Fintype P] (view : P → View) (lv : P → LogView) (c : Cache P) : Prop where
  known : ∀ p, Known (view p) (lv p)
  log : LogOk lv c.log
  dirty : DirtyIn (· ∈ c.log.lh) view c
  left : ∀ p lh left, (lv p).phase = .commit lh left → DirtyIn (· ∈ left) view c

section Steps

variable [Fintype P] [DecidableEq P] {A : Contents} {view : P → View}
  {lv : P → LogView} {c c' : Cache P} {p : P} {v : View} {w : LogView} {o : CacheOp} {r : o.Ret}

theorem setStage_hold_inv {i j : Fin NBUF} {st st' : Stage} {key : Key}
    (h : (v.setStage i st).hold j = some (key, st')) : ∃ st0, v.hold j = some (key, st0) := by
  by_cases hj : j = i
  · subst hj
    simp only [View.setStage, update_self, Option.map_eq_some_iff] at h
    obtain ⟨⟨key', st0⟩, hx, heq⟩ := h
    cases heq
    exact ⟨st0, hx⟩
  · rw [setStage_hold_ne _ _ hj] at h
    exact ⟨st', h⟩

theorem Known.setStage (h : Known v w) (i : Fin NBUF) (st : Stage) : Known (v.setStage i st) w where
  hold j key st' hj := by
    obtain ⟨st0, hold⟩ := setStage_hold_inv hj
    exact h.hold j key st0 hold
  extra := h.extra

omit [Fintype P] [DecidableEq P] in
theorem Known.step (h : Known (view p) w) (hpost : cacheProtocol.post o (view p) r v)
    (hscan : ∀ dev blockno, o ≠ .scan dev blockno) : Known v w := by
  cases o with
  | scan dev blockno => exact absurd rfl (hscan dev blockno)
  | acquiresleep i =>
    obtain ⟨-, key, hextra, rfl⟩ := hpost
    refine ⟨fun j key' st hj => ?_, nofun⟩
    by_cases hji : j = i
    · subst hji
      simp only [update_self] at hj
      cases hj
      exact h.extra j _ hextra
    · simp only [update_of_ne hji] at hj
      exact h.hold j key' st hj
  | releasesleep i =>
    obtain ⟨key, hold, rfl⟩ := hpost
    refine ⟨fun j key' st hj => ?_, fun j key' hj => ?_⟩
    · by_cases hji : j = i
      · subst hji
        simp only [update_self] at hj
        cases hj
      · simp only [update_of_ne hji] at hj
        exact h.hold j key' st hj
    · cases hj
      exact h.hold i key _ hold
  | unref i =>
    cases hpost
    exact ⟨h.hold, nofun⟩
  | valid | iderw | setDirty | setData | logAppend =>
    cases hpost
    exact h.setStage _ _
  | data | beginOp | logTest | endOp | log | clear | commitDone =>
    cases hpost
    exact h

theorem Known.setPhase (h : Known v w) (phase : Phase) : Known v (w.setPhase phase) :=
  ⟨h.hold, h.extra⟩

theorem Known.scan (h : Known (view p) w) {dev blockno : Nat}
    (ho' : Owned (update view p { view p with extra := some (i, (dev, blockno)) }) c') :
    Known { view p with extra := some (i, (dev, blockno)) }
      { w with keys := update w.keys i blockno } where
  hold j key st hj := by
    by_cases hji : j = i
    · subst hji
      have hbuf := (ho'.hold p j key st (by rwa [update_self])).1
      have hnew := ho'.extra p j (dev, blockno) (by rw [update_self])
      rw [hbuf] at hnew
      simp only [update_self, hnew]
    · simp only [update_of_ne hji]
      exact h.hold j key st hj
  extra j key hj := by
    cases hj
    simp only [update_self]

omit [Fintype P] in
theorem Known.update (h : ∀ q, Known (view q) (lv q)) (hp : Known v w) (q : P) :
    Known (update view p v q) (update lv p w q) := by
  by_cases hq : q = p
  · rw [hq, update_self, update_self]
    exact hp
  · rw [update_of_ne hq, update_of_ne hq]
    exact h q

theorem Pins.quiet (h : Pins view lv c) (hpre : cacheProtocol.pre o (view p))
    (hop : cache p o c = .ok r c') (hpost : cacheProtocol.post o (view p) r v) (hknown : Known v w)
    (hphase : w.phase = (lv p).phase) (hlog : c'.log = c.log) (hne : ∀ j, o ≠ .logAppend j) :
    Pins (update view p v) (update lv p w) c' := by
  have hdirty : ∀ {S : Nat → Prop}, DirtyIn S view c → DirtyIn S (update view p v) c' := fun hS =>
    hS.step hpre hop hpost (fun _ _ _ hb => hb) fun j hj => absurd hj (hne j)
  have hcommit : ∀ q lh left, (update lv p w q).phase = .commit lh left →
      ∃ q', (lv q').phase = .commit lh left := fun q lh left hq => by
    rcases phase_update hq with ⟨-, hw⟩ | ⟨-, hq⟩
    · exact ⟨p, by rw [← hphase, hw]⟩
    · exact ⟨q, hq⟩
  refine ⟨Known.update h.known hknown, ?_, ?_, fun q lh left hq => ?_⟩
  · rw [hlog]
    refine h.log.same rfl rfl (by rw [hphase]) (by rw [hphase]) fun q lh left hq => ?_
    obtain ⟨q', hq'⟩ := hcommit q lh left hq
    exact h.log.lh q' lh left hq'
  · rw [hlog]
    exact hdirty h.dirty
  · obtain ⟨q', hq'⟩ := hcommit q lh left hq
    exact hdirty (h.left q' lh left hq')

theorem Pins.scan (h : Pins view lv c) {dev blockno : Nat}
    (hpre : cacheProtocol.pre (.scan dev blockno) (view p))
    (hop : cache p (.scan dev blockno) c = .ok i c')
    (ho' : Owned (update view p { view p with extra := some (i, (dev, blockno)) }) c') :
    Pins (update view p { view p with extra := some (i, (dev, blockno)) })
      (update lv p { lv p with keys := update (lv p).keys i blockno }) c' := by
  have hlog : c'.log = c.log := by
    simp only [cache, Bio.scan] at hop
    split at hop
    · cases hop
      rfl
    · split at hop <;> cases hop
      rfl
  exact h.quiet hpre hop rfl ((h.known p).scan ho') rfl hlog (by simp)

theorem beginOp_lh {log log' : LogState} (hlog : log.beginOp = some log') : log'.lh = log.lh := by
  simp only [LogState.beginOp] at hlog
  split_ifs at hlog
  cases hlog
  rfl

omit [Fintype P] in
theorem iderw_log (hop : iderw p c i = .ok () c') : (c.bufs i).dev = 1 ∧ c'.log = c.log := by
  simp only [iderw] at hop
  split_ifs at hop with _ _ hdev
  · cases hop
    exact ⟨by simpa using hdev, rfl⟩
  · cases hop
    exact ⟨by simpa using hdev, rfl⟩

variable (h : Pins view lv c)

include h

theorem Pins.iderw (ho : Owned view c) (hc : Coherent A view c)
    (hpre : cacheProtocol.pre (.iderw i) (view p)) (hop : cache p (.iderw i) c = .ok () c') :
    Pins (update view p ((view p).setStage i .ready))
      (update lv p ((lv p).setPhase ((lv p).phase.written ((lv p).keys i)))) c' := by
  obtain ⟨hdev, hlog⟩ := iderw_log hop
  have hkey : (lv p).keys i = (c.bufs i).blockno := by
    obtain ⟨key, hold | hold⟩ := hpre
    · rw [(h.known p).hold i key _ hold, ← (ho.hold p i key _ hold).1]
    · rw [(h.known p).hold i key _ hold, ← (ho.hold p i key _ hold).1]
  have hdirty : ∀ {S : Nat → Prop}, DirtyIn S view c →
      DirtyIn S (update view p ((view p).setStage i .ready)) c' := fun hS =>
    hS.step hpre hop rfl (fun _ _ _ hb => hb) nofun
  refine ⟨Known.update h.known (((h.known p).setStage i .ready).setPhase _), ?_, ?_,
    fun q lh left hq => ?_⟩
  · rw [hlog]
    refine h.log.same rfl rfl ?_ ?_ fun q lh left hq => ?_
    · cases hp : (lv p).phase <;> rfl
    · cases hp : (lv p).phase <;> rfl
    · rcases phase_update hq with ⟨-, hw⟩ | ⟨-, hq⟩
      · have hbelow := Phase.written_below ((lv p).keys i) (lv p).phase
        simp only [LogView.setPhase] at hw
        rw [hw] at hbelow
        obtain ⟨more, hmore, -⟩ := hbelow
        exact h.log.lh p lh more hmore
      · exact h.log.lh q lh left hq
  · rw [hlog]
    exact hdirty h.dirty
  · rcases phase_update hq with ⟨-, hw⟩ | ⟨-, hq⟩
    · cases hp : (lv p).phase with
      | outside | inOp => rw [hp] at hw; cases hw
      | commit lh' more =>
        rw [hp] at hw
        cases hw
        refine (h.left p lh more hp).step hpre hop rfl (fun j hj hne hb => ?_) nofun
        refine List.mem_filter.mpr ⟨hb, ?_⟩
        rw [hkey]
        have hji : j ≠ i := fun heq => hne (by rw [heq])
        have hblock : (c.bufs j).blockno ≠ (c.bufs i).blockno := fun heq =>
          hji (hc.unique j i (hc.valid j (hc.dirty j hj)) hdev heq)
        simpa using hblock
    · exact hdirty (h.left q lh left hq)

theorem Pins.logAppend (hpre : cacheProtocol.pre (.logAppend i) (view p))
    (hinOp : (lv p).phase = .inOp) (hop : cache p (.logAppend i) c = .ok () c')
    (hpost : cacheProtocol.post (.logAppend i) (view p) () v) : Pins (update view p v) lv c' := by
  have hknown := Known.update (p := p) h.known ((h.known p).step hpost nofun)
  rw [update_eq_self] at hknown
  have hlh : c'.log = c.log.append (c.bufs i).blockno := by
    cases hop
    rfl
  refine ⟨hknown, ?_, ?_, fun q lh left hq => ?_⟩
  · rw [hlh]
    exact h.log.append hinOp _
  · rw [hlh]
    refine h.dirty.step hpre hop hpost (fun j _ _ hb => ?_) fun j hj => ?_
    · exact LogState.mem_append_lh.mpr (.inl hb)
    · cases hj
      exact LogState.mem_append_lh.mpr (.inr rfl)
  · have hnone := h.log.not_commit hinOp q
    rw [hq] at hnone
    cases hnone

/-- A change of the log and of the phase of one process, which leaves the buffers alone. -/
theorem Pins.phase {log : LogState}
    (hlog : LogOk (update lv p ((lv p).setPhase ph)) log) (hdirty : DirtyIn (· ∈ log.lh) view c)
    (hleft : ∀ lh left, ph = .commit lh left → DirtyIn (· ∈ left) view c) :
    Pins view (update lv p ((lv p).setPhase ph)) { c with log := log } := by
  have hknown := Known.update (p := p) h.known ((h.known p).setPhase ph)
  rw [update_eq_self] at hknown
  refine ⟨hknown, hlog, hdirty, fun q lh left hq => ?_⟩
  rcases phase_update hq with ⟨-, hw⟩ | ⟨-, hq⟩
  · exact hleft lh left hw
  · exact h.left q lh left hq

theorem Pins.endOp (hinOp : (lv p).phase = .inOp) {log : LogState}
    {doCommit : Bool} (hlog : c.log.endOp = .ok (log, doCommit)) :
    Pins view (update lv p ((lv p).setPhase (endPhase c.log doCommit)))
      { c with log := log } := by
  obtain ⟨hlh, hok⟩ := h.log.endOp hinOp hlog
  refine h.phase hok (by rw [hlh]; exact h.dirty) fun lh left hph => ?_
  cases doCommit with
  | false => cases hph
  | true =>
    cases hph
    exact h.dirty

theorem Pins.step (ho : Owned view c) (hc : Coherent A view c)
    (ho' : Owned (update view p v) c') (hpre : cacheProtocol.pre o (view p))
    (hphase : phaseProtocol.pre o (lv p)) (hop : cache p o c = .ok r c')
    (hpost : cacheProtocol.post o (view p) r v) :
    ∃ w, phaseProtocol.post o (lv p) r w ∧ Pins (update view p v) (update lv p w) c' := by
  cases o with
  | scan dev blockno =>
    cases hpost
    exact ⟨_, rfl, h.scan hpre hop ho'⟩
  | iderw i =>
    cases hpost
    exact ⟨_, rfl, h.iderw ho hc hpre hop⟩
  | logAppend i =>
    refine ⟨lv p, rfl, ?_⟩
    rw [update_eq_self]
    exact h.logAppend hpre hphase hop hpost
  | beginOp =>
    cases hpost
    simp only [cache] at hop
    split at hop
    · cases hop
    · case _ log hlog =>
      cases hop
      refine ⟨_, rfl, ?_⟩
      rw [update_eq_self]
      refine h.phase (h.log.beginOp hphase hlog) ?_ (by simp)
      rw [beginOp_lh hlog]
      exact h.dirty
  | endOp =>
    cases hpost
    simp only [cache] at hop
    split at hop
    · cases hop
    · case _ log doCommit hlog =>
      cases hop
      refine ⟨(lv p).setPhase (endPhase c.log r), ⟨_, rfl, ?_⟩, ?_⟩
      · cases r with
        | true => exact ⟨c.log.lh, rfl⟩
        | false => rfl
      · rw [update_eq_self]
        exact h.endOp hphase hlog
  | clear =>
    cases hpost
    obtain ⟨lh, hlh⟩ := hphase
    cases hop
    refine ⟨_, rfl, ?_⟩
    rw [update_eq_self]
    refine h.phase (h.log.clear hlh) (h.left p lh [] hlh) fun lh' left hph => ?_
    cases hph
    exact h.left p lh [] hlh
  | commitDone =>
    cases hpost
    cases hop
    refine ⟨_, rfl, ?_⟩
    rw [update_eq_self]
    exact h.phase (h.log.commitDone hphase) h.dirty (by simp)
  | log =>
    have hknown := (h.known p).step hpost (by simp)
    cases hop
    exact ⟨lv p, ⟨rfl, h.log.lh p⟩, h.quiet hpre rfl hpost hknown rfl rfl (by simp)⟩
  | acquiresleep | setDirty | releasesleep | logTest =>
    have hknown := (h.known p).step hpost (by simp)
    refine ⟨lv p, rfl, h.quiet hpre hop hpost hknown rfl ?_ (by simp)⟩
    simp only [cache] at hop
    split at hop <;> cases hop
    rfl
  | unref i =>
    have hknown := (h.known p).step hpost (by simp)
    refine ⟨lv p, rfl, h.quiet hpre hop hpost hknown rfl ?_ (by simp)⟩
    cases hop
    simp only [unref]
    split <;> rfl
  | valid | setData | data =>
    have hknown := (h.known p).step hpost (by simp)
    refine ⟨lv p, rfl, h.quiet hpre hop hpost hknown rfl ?_ (by simp)⟩
    cases hop
    rfl

end Steps

end Xv6.Bio
