import Xv6.Bio.Transparent

/-!
# Running out of buffers

As long as the references of processes and the blocks in the log are together fewer than the
buffers, `bget` finds one.  Nothing bounds the references: readers are not throttled, and thirty-one
of them exhaust the cache.
-/

namespace Xv6.Bio

open Lib Log.Control Function List Finset

variable {P : Type}

variable [Fintype P] [DecidableEq P]

def Cache.refs (c : Cache P) : Nat := ∑ i, (c.bufs i).refcnt

omit [Fintype P] [DecidableEq P] in
theorem card_referenced (c : Cache P) :
    (univ.filter fun i => (c.bufs i).refcnt ≠ 0).card ≤ c.refs := by
  rw [Finset.card_eq_sum_ones, Finset.sum_filter]
  refine Finset.sum_le_sum fun i _ => ?_
  split <;> omega

section Counting

variable {A : Contents} {view : P → View} {lv : P → LogView} {c : Cache P}

omit [DecidableEq P] in
theorem Pins.card_dirty (h : Pins view lv c) (ho : Owned view c) (hc : Coherent A view c) :
    (univ.filter fun i => (c.bufs i).refcnt = 0 ∧ (c.bufs i).dirty = true).card ≤
      c.log.lh.length := by
  have hmaps : ∀ i ∈ univ.filter
      (fun i => (c.bufs i).refcnt = 0 ∧ (c.bufs i).dirty = true),
      (c.bufs i).blockno ∈ c.log.lh.toFinset := fun i hi => by
    obtain ⟨-, hzero, hdirty⟩ := Finset.mem_filter.mp hi
    rcases h.dirty i hdirty with hlogged | ⟨q, key, hq⟩
    · exact mem_toFinset.mpr hlogged
    · rw [(ho.unused hzero q).1] at hq
      cases hq
  have hinj : Set.InjOn (fun i => (c.bufs i).blockno) (univ.filter
      fun i => (c.bufs i).refcnt = 0 ∧ (c.bufs i).dirty = true) := fun i hi j hj heq => by
    obtain ⟨-, -, hi⟩ := Finset.mem_filter.mp hi
    obtain ⟨-, -, hj⟩ := Finset.mem_filter.mp hj
    exact hc.unique i j (hc.valid i (hc.dirty i hi)) (hc.valid j (hc.dirty j hj)) heq
  calc (univ.filter fun i => (c.bufs i).refcnt = 0 ∧ (c.bufs i).dirty = true).card
      ≤ c.log.lh.toFinset.card := card_le_card_of_injOn _ hmaps hinj
    _ ≤ c.log.lh.length := toFinset_card_le _

omit [DecidableEq P] in
theorem Pins.exists_recyclable (h : Pins view lv c) (ho : Owned view c)
    (hc : Coherent A view c) (hload : c.refs + c.log.lh.length < NBUF) :
    ∃ i, (c.bufs i).refcnt = 0 ∧ (c.bufs i).dirty = false := by
  by_contra hnone
  push Not at hnone
  have hcover : (univ : Finset (Fin NBUF)) ⊆
      (univ.filter fun i => (c.bufs i).refcnt ≠ 0) ∪
        univ.filter fun i => (c.bufs i).refcnt = 0 ∧ (c.bufs i).dirty = true := fun i _ => by
    by_cases hzero : (c.bufs i).refcnt = 0
    · have hdirty : (c.bufs i).dirty = true := by simpa using hnone i hzero
      simp [hzero, hdirty]
    · simp [hzero]
  have hall := (card_le_card hcover).trans (card_union_le _ _)
  rw [card_univ, Fintype.card_fin] at hall
  have href := card_referenced c
  have hdirty := h.card_dirty ho hc
  omega

omit [Fintype P] [DecidableEq P] in
theorem scan_finds (hc : Coherent A view c) {i : Fin NBUF} (hzero : (c.bufs i).refcnt = 0)
    (hclean : (c.bufs i).dirty = false) (dev blockno : Nat) :
    ∃ j c', scan c dev blockno = .ok j c' := by
  simp only [scan]
  split
  · exact ⟨_, _, rfl⟩
  · split
    · exact ⟨_, _, rfl⟩
    · case _ hnone =>
      rw [List.find?_eq_none] at hnone
      have hi := hnone i (mem_reverse.mpr (hc.lru i))
      simp [hzero, hclean] at hi

end Counting

section

variable {s : Sys P} {p : P} {msg : String}

omit [Fintype P] in
theorem op_of_panic (h : step s p = .panic msg) :
    ∃ c o k rest, s.threads p = .inside c (.op o k) rest ∧ cache p o s.cache = .panic msg := by
  unfold step at h
  split at h
  · cases h
  · cases h
  · cases h
  · case _ c o k rest hth =>
    split at h
    · cases h
    · cases h
    · case _ msg hop =>
      cases h
      exact ⟨c, o, k, rest, hth, hop⟩

/-- The panics beside the guards of `iderw`, `bwrite` and `brelse`. -/
def limits : List String :=
  ["bget: no buffers", "iderw: request not for disk 1", "iderw: block out of range",
    "too big a transaction", "log_write outside of trans", "log.committing"]

omit [Fintype P] in
theorem panic_cases {o : CacheOp} {c : Cache P} (h : cache p o c = .panic msg) :
    (∃ dev blockno, o = .scan dev blockno ∧ msg = "bget: no buffers") ∨
    msg ∈ limits ∧ msg ≠ "bget: no buffers" ∨
    msg ≠ "bget: no buffers" ∧ ∃ i, (o = .iderw i ∨ o = .setDirty i ∨ o = .releasesleep i) ∧
      ((c.bufs i).lock = some p → o = .iderw i ∧ (c.bufs i).valid = true ∧
        (c.bufs i).dirty = false) := by
  cases o with
  | scan dev blockno =>
    simp only [cache, scan] at h
    split at h
    · cases h
    · split at h <;> cases h
      exact .inl ⟨dev, blockno, rfl, rfl⟩
  | iderw i =>
    simp only [cache, iderw] at h
    split_ifs at h with hlock hidle <;> cases h
    · exact .inr (.inr ⟨by decide, i, .inl rfl, fun hheld => absurd hheld hlock⟩)
    · exact .inr (.inr ⟨by decide, i, .inl rfl, fun _ => ⟨rfl, hidle⟩⟩)
    · exact .inr (.inl (by decide))
    · exact .inr (.inl (by decide))
  | logTest =>
    simp only [cache, LogState.writeTest] at h
    split at h
    · case _ msg hmsg =>
      split_ifs at hmsg <;> cases hmsg <;> cases h <;> exact .inr (.inl (by decide))
    · cases h
  | endOp =>
    simp only [cache, LogState.endOp] at h
    split at h
    · case _ msg hmsg =>
      split_ifs at hmsg
      cases hmsg
      cases h
      exact .inr (.inl (by decide))
    · cases h
  | beginOp | acquiresleep =>
    simp only [cache] at h
    split at h <;> cases h
  | setDirty i | releasesleep i =>
    simp only [cache] at h
    split_ifs at h with hlock
    cases h
    exact .inr (.inr ⟨by decide, i, by simp, fun hheld => absurd hheld hlock⟩)
  | valid | unref | data | setData | logAppend | log | clear | commitDone => cases h

omit [Fintype P] in
theorem scan_of_panic (h : step s p = .panic "bget: no buffers") :
    ∃ dev blockno, opOf s p = some (.scan dev blockno) ∧
      scan s.cache dev blockno = .panic "bget: no buffers" := by
  obtain ⟨c, o, k, rest, hth, hop⟩ := op_of_panic h
  rcases panic_cases hop with ⟨dev, blockno, rfl, -⟩ | ⟨-, hne⟩ | ⟨hne, -⟩
  · exact ⟨dev, blockno, by simp [opOf, hth], hop⟩
  · exact absurd rfl hne
  · exact absurd rfl hne

end

/-- While the references of processes and the blocks in the log are together fewer than the
buffers, `bget` finds a buffer and does not panic. -/
theorem bget_finds_buffer (disk : Disk) (disksize start : Nat) (size : Int)
    (progs : P → CallM Unit) (hclient : ∀ p, Client false (fun _ => none) (progs p))
    (tr : List (Sys P × P)) (s : Sys P)
    (htr : Trace step (init disk disksize start size progs) tr s) (p : P)
    (hload : ∀ dev blockno, opOf s p = some (.scan dev blockno) →
      s.cache.refs + s.cache.log.lh.length < NBUF) :
    (∀ dev blockno, opOf s p = some (.scan dev blockno) →
      ∃ i c, scan s.cache dev blockno = .ok i c) ∧
    step s p ≠ .panic "bget: no buffers" := by
  obtain ⟨view, lv, h⟩ := inv_trace hclient htr
  have hfinds : ∀ dev blockno, opOf s p = some (.scan dev blockno) →
      ∃ i c, scan s.cache dev blockno = .ok i c := fun dev blockno hop => by
    obtain ⟨i, hzero, hclean⟩ :=
      h.pins.exists_recyclable h.owned h.coherent (hload dev blockno hop)
    exact scan_finds h.coherent hzero hclean dev blockno
  refine ⟨hfinds, fun hpanic => ?_⟩
  obtain ⟨dev, blockno, hop, hscan⟩ := scan_of_panic hpanic
  obtain ⟨i, c, hok⟩ := hfinds dev blockno hop
  rw [hok] at hscan
  cases hscan

/-- The guards of the cache hold whatever the interleaving: a process that does what the
functions ask for is stopped only by a cache or a log that is full, by a block that is not on
the disk, or outside of an operation. -/
theorem guards_hold (disk : Disk) (disksize start : Nat) (size : Int) (progs : P → CallM Unit)
    (hclient : ∀ p, Client false (fun _ => none) (progs p)) (tr : List (Sys P × P)) (s : Sys P)
    (htr : Trace step (init disk disksize start size progs) tr s) (p : P) (msg : String)
    (h : step s p = .panic msg) : msg ∈ limits := by
  obtain ⟨view, lv, hinv⟩ := inv_trace hclient htr
  obtain ⟨c, o, k, rest, hth, hop⟩ := op_of_panic h
  have hp := hinv.threads p
  rw [hth] at hp
  obtain ⟨-, ⟨hpre, -⟩, -⟩ := hp
  rcases panic_cases hop with ⟨-, -, -, rfl⟩ | ⟨hlimit, -⟩ | ⟨-, i, ho, hguard⟩
  · decide
  · exact hlimit
  · exfalso
    -- the process holds the buffer, at a stage at which the guard passes
    obtain ⟨key, st, hold, hwork⟩ : ∃ key st, (view p).hold i = some (key, st) ∧
        (o = .iderw i → st = .missing ∨ st = .flushing) := by
      rcases ho with rfl | rfl | rfl
      · obtain ⟨key, hold | hold⟩ := hpre
        · exact ⟨key, _, hold, fun _ => .inl rfl⟩
        · exact ⟨key, _, hold, fun _ => .inr rfl⟩
      · obtain ⟨key, hold | hold⟩ := hpre
        · exact ⟨key, _, hold, nofun⟩
        · exact ⟨key, _, hold, nofun⟩
      · obtain ⟨⟨key, hold⟩, -⟩ := hpre
        exact ⟨key, _, hold, nofun⟩
    obtain ⟨hiderw, hvalid, hclean⟩ := hguard ((hinv.owned.lock i p).mpr (by simp [hold]))
    have hstage := (hinv.owned.hold p i key st hold).2
    rcases hwork hiderw with rfl | rfl <;> simp [StageOk, hvalid, hclean] at hstage

def readBlock (blockno : Nat) : CallM Unit := do
  let bp ← call (.bread 1 blockno)
  let _ ← call (.data bp)
  call (.brelse bp)

theorem client_readBlock (blockno : Nat) : Client false (fun _ => none) (readBlock blockno) := by
  apply Client.bread
  intro i _
  apply Client.data i (by simp)
  intro _
  apply Client.brelse i (by simp)
  exact Client.done

/-- Process `p` reads block `40 + p`. -/
def readers (n : Nat) : Sys (Fin n) := init (fun _ => 0) 1000 2 30 fun p => readBlock (40 + p)

/-- The next step of `p` is the critical section of `bget`, and the load is admitted. -/
def admitted {n : Nat} (p : Fin n) (s : Sys (Fin n)) : Bool :=
  match opOf s p with
  | some (.scan _ _) => s.cache.refs + s.cache.log.lh.length < NBUF
  | _ => false

theorem admitted_load {n : Nat} {p : Fin n} {s : Sys (Fin n)} (h : admitted p s = true) :
    s.cache.refs + s.cache.log.lh.length < NBUF := by
  unfold admitted at h
  split at h
  · simpa using h
  · cases h

/-- The second of two readers, while the first waits for the disk. -/
theorem second_reader_served : ∃ (tr : List (Sys (Fin 2) × Fin 2)) (s : Sys (Fin 2)),
    Trace step (readers 2) tr s ∧ admitted 1 s = true ∧
      step s 1 ≠ .panic "bget: no buffers" := by
  obtain ⟨tr, s, htr, -, hgood⟩ := Trace.of_play step (fun _ _ => true) (readers 2)
    [0, 0, 0, 0, 1] (admitted 1) (by decide +kernel)
  exact ⟨tr, s, htr, hgood,
    (bget_finds_buffer _ _ _ _ _ (fun p : Fin 2 => client_readBlock (40 + p)) tr
    s htr 1 fun _ _ _ => admitted_load hgood).2⟩

/-- The block is behind the end of the disk. -/
theorem guards_hold_range : ∃ (tr : List (Sys (Fin 1) × Fin 1)) (s : Sys (Fin 1)) (msg : String),
    Trace step (init (fun _ => 0) 1000 2 30 fun _ => readBlock 2000) tr s ∧
      step s 0 = .panic msg ∧ msg ∈ limits := by
  obtain ⟨tr, s, htr, -, hgood⟩ := Trace.of_play step (fun _ _ => true)
    (init (fun _ => 0) 1000 2 30 fun _ => readBlock 2000) (replicate 4 (0 : Fin 1))
    (fun s => (step s 0).panicsWith "iderw: block out of range") (by decide +kernel)
  have hstep := Outcome.eq_panic_of_panicsWith hgood
  exact ⟨tr, s, _, htr, hstep,
    guards_hold _ _ _ _ _ (fun _ => client_readBlock 2000) tr s htr 0 _ hstep⟩

def outOfBuffers (s : Sys (Fin 31)) : Bool :=
  match step s 30 with
  | .panic msg => msg == "bget: no buffers"
  | _ => false

/-- Thirty readers wait for the disk and another one calls `bget`. -/
def thirtyOneReaders : List (Fin 31) :=
  ((List.finRange 31).take 30).flatMap (List.replicate 4) ++ [30]

/-- Every process reads one block, and `bget` panics. -/
theorem readers_exhaust_cache :
    (∀ p : Fin 31, Client false (fun _ => none) (readBlock (40 + p))) ∧
    ∃ (tr : List (Sys (Fin 31) × Fin 31)) (s : Sys (Fin 31)),
      Trace step (readers 31) tr s ∧ step s 30 = .panic "bget: no buffers" := by
  refine ⟨fun p => client_readBlock (40 + p), ?_⟩
  obtain ⟨tr, s, htr, -, hgood⟩ := Trace.of_play step (fun _ _ => true) (readers 31)
    thirtyOneReaders outOfBuffers (by decide +kernel)
  refine ⟨tr, s, htr, ?_⟩
  unfold outOfBuffers at hgood
  split at hgood
  · case _ msg hstep =>
    rw [hstep, beq_iff_eq.mp hgood]
  · cases hgood

end Xv6.Bio
