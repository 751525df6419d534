import Xv6.Ipc.Pipe

/-!
# Sleepers on a pipe

A process sleeps on a channel only as long as what it waits for has not happened.  While
a process holds `p->lock` this may fail, but then that process is on its way to the
`wakeup`.  The exception is the early return of `pipewrite`, which has no `wakeup`.
-/

namespace Xv6.Ipc

open Lib Function

/-- The process is in `sleep(chan, &p->lock)` and has released `p->lock`. -/
def Proc.asleep (x : Proc) (chan : Chan) : Prop :=
  x.sleeping = some chan ∨ x.pc.committed = some chan

/-- What a process that sleeps on the channel waits for has not happened. -/
def Pipe.Pending (pipe : Pipe) : Chan → Prop
  | .nread => pipe.empty ∧ pipe.writeopen = true
  | .nwrite => pipe.full ∧ pipe.readopen = true

/-- The points from which a `wakeup` of the channel is on the way. -/
def Pc.owes : Pc → Chan → Bool
  | .write _ _ _ point, .nread =>
    match point with
    | .loop => true
    | .full => true
    | .wakeup => true
    | .done => true
    | _ => false
  | .read _ _ point, .nwrite =>
    match point with
    | .copy => true
    | .wakeup => true
    | _ => false
  | .close writable .wakeup, chan => decide (chan = if writable then .nread else .nwrite)
  | _, _ => false

def PointOk (pipe : Pipe) : Pc → Prop
  | .write _ _ _ point =>
    match point with
    | .full => pipe.full
    | .wakeup => pipe.Pending .nwrite
    | .sleep => pipe.Pending .nwrite
    | _ => True
  | .read _ _ point =>
    match point with
    | .killed => pipe.Pending .nread
    | .sleep => pipe.Pending .nread
    | _ => True
  | _ => True

/-- `pipewrite` is about to return -1 from inside its loop. -/
def Pc.givesUp (pipe : Pipe) (killed : Bool) : Pc → Prop
  | .write _ _ _ .full => pipe.readopen = false ∨ killed = true
  | _ => False

section Moves

variable {P : Type} {me : P} {killed : Bool} {g : Shared P} {pc : Pc} {m : Move P}

theorem Moves.pointOk (h : Moves me killed g pc m) (hok : PointOk g.pipe pc) :
    PointOk m.shared.pipe m.pc := by
  cases h <;> simp_all [PointOk, Pipe.Pending]

theorem Moves.ptable_of_wake (h : Moves me killed g pc m) (hwake : m.wake ≠ none) :
    g.ptable = none ∧ m.sleep = none ∧ m.pc.committed = none := by
  cases h <;> simp_all [Pc.committed]

theorem owes_critical {chan : Chan} (h : pc.owes chan = true) : pc.critical = true := by
  cases pc with
  | write addr n i point | read n got point =>
    cases point <;> cases chan <;> simp_all [Pc.owes, Pc.critical]
  | close writable point => cases point <;> simp_all [Pc.owes, Pc.critical]
  | idle | returned r => simp [Pc.owes] at h

/-- A step wakes the sleepers of a channel, or is on the way there, or gives up, or what
they wait for has still not happened. -/
theorem Moves.chan (h : Moves me killed g pc m) (hok : PointOk g.pipe pc) (chan : Chan) :
    m.wake = some chan ∨ m.pc.owes chan = true ∨
    (chan = .nread ∧ pc.givesUp g.pipe killed) ∨
    (pc.owes chan = false ∧ (g.pipe.Pending chan → m.shared.pipe.Pending chan) ∧
      (m.sleep = some chan ∨ m.pc.committed = some chan →
        m.shared.pipe.Pending chan ∨ pc.committed = some chan)) := by
  cases chan <;> cases h <;>
    simp_all [Pc.owes, Pc.givesUp, Pc.committed, PointOk, Pipe.Pending, Pipe.full, Pipe.empty]

end Moves

variable {P : Type} [DecidableEq P]

/-- A step that takes the early return of `pipewrite` finds no process in `sleep` on
`&p->nread`. -/
def MayGiveUp (s : State P) : Action P → Prop
  | .step p => (s.procs p).pc.givesUp s.pipe (s.procs p).killed →
      ∀ q, ¬ (s.procs q).asleep .nread
  | _ => True

structure Awake (s : State P) : Prop where
  held : Held s
  points : ∀ p, PointOk s.pipe (s.procs p).pc
  sleepers : ∀ chan, (∀ p, (s.procs p).asleep chan → s.pipe.Pending chan) ∨
    ∃ p, s.lock = some p ∧ (s.procs p).pc.owes chan = true

omit [DecidableEq P] in
theorem awake_init (data : Nat → Byte) (killed : P → Bool) : Awake (init data killed) where
  held := held_init data killed
  points := fun _ => trivial
  sleepers := fun chan => Or.inl fun p hp => by
    rcases hp with hp | hp <;> cases hp

variable {s : State P} {p : P}

theorem asleep_apply_of_ne {q : P} {m : Move P} {chan : Chan} (hq : q ≠ p)
    (h : ((s.apply p m).procs q).asleep chan) : (s.procs q).asleep chan := by
  rw [State.apply_of_ne hq] at h
  rcases h with h | h
  · exact Or.inl (wake_sleeping h).1
  · rw [wake_pc] at h
    exact Or.inr h

theorem not_asleep_of_wake (hheld : Held s) {m : Move P} {chan : Chan}
    (hm : Moves p (s.procs p).killed s.toShared (s.procs p).pc m) (hwake : m.wake = some chan)
    (q : P) : ¬ ((s.apply p m).procs q).asleep chan := by
  obtain ⟨hptable, hsleep, hcomm⟩ := hm.ptable_of_wake (by simp [hwake])
  intro h
  by_cases hq : q = p
  · subst hq
    rw [State.apply_self] at h
    rcases h with h | h
    · change m.sleep = some chan at h
      rw [hsleep] at h
      cases h
    · change m.pc.committed = some chan at h
      rw [hcomm] at h
      cases h
  · rw [State.apply_of_ne hq] at h
    rcases h with h | h
    · exact (wake_sleeping h).2 hwake
    · rw [wake_pc] at h
      have howner := (hheld.committed q).mp (by simp [h])
      rw [hptable] at howner
      cases howner

theorem Awake.apply (h : Awake s) {m : Move P} (hawake : (s.procs p).sleeping = none)
    (hm : Moves p (s.procs p).killed s.toShared (s.procs p).pc m)
    (hmay : MayGiveUp s (.step p)) : Awake (s.apply p m) := by
  have hheld := h.held.apply hm
  have hlock := (h.held.critical p).mp
  -- the pipe is as before for whoever else has the lock
  have hsame : ∀ q, q ≠ p → s.lock = some q → m.shared.pipe = s.pipe := by
    intro q hq hq'
    rcases hm.pipe hlock with hsame | hnone | hself
    · exact hsame
    · rw [hq'] at hnone
      cases hnone
    · rw [hq'] at hself
      cases hself
      exact absurd rfl hq
  refine ⟨hheld, ?_, ?_⟩
  · intro q
    by_cases hq : q = p
    · subst hq
      rw [State.apply_self]
      exact hm.pointOk (h.points q)
    · rw [State.apply_pc_of_ne hq]
      by_cases hcrit : (s.procs q).pc.critical = true
      · change PointOk m.shared.pipe _
        rw [hsame q hq ((h.held.critical q).mp hcrit)]
        exact h.points q
      · -- outside the critical section nothing is claimed
        have htriv : ∀ pipe, PointOk pipe (s.procs q).pc := by
          intro pipe
          cases hpc : (s.procs q).pc with
          | write addr n i point | read n got point =>
            cases point <;> simp_all [PointOk, Pc.critical]
          | _ => trivial
        exact htriv _
  · intro chan
    rcases hm.chan (h.points p) chan with hwake | howes | ⟨rfl, hgive⟩ | ⟨howes, hpend, hjoin⟩
    · exact Or.inl fun q hq => absurd hq (not_asleep_of_wake h.held hm hwake q)
    · refine Or.inr ⟨p, ?_, by rw [State.apply_self]; exact howes⟩
      exact (hheld.critical p).mp (by rw [State.apply_self]; exact owes_critical howes)
    · left
      intro q hq
      by_cases hqp : q = p
      · subst hqp
        have hpc : (s.procs q).pc.committed = none := by
          cases hpc : (s.procs q).pc with
          | write addr n i point => cases point <;> simp_all [Pc.givesUp, Pc.committed]
          | _ => simp_all [Pc.givesUp]
        exfalso
        revert hm hq hgive
        rw [State.apply_self]
        generalize (s.procs q).pc = pc
        intro hm hq hgive
        cases hm <;> simp_all [Pc.givesUp, Proc.asleep, Pc.committed]
      · exact absurd (asleep_apply_of_ne hqp hq) (hmay hgive q)
    · rcases h.sleepers chan with hall | ⟨q, hq, hqowes⟩
      · left
        intro q hq
        by_cases hqp : q = p
        · subst hqp
          rw [State.apply_self] at hq
          rcases hjoin hq with hdone | hwas
          · exact hdone
          · exact hpend (hall q (Or.inr hwas))
        · exact hpend (hall q (asleep_apply_of_ne hqp hq))
      · -- the process on its way to the `wakeup` is another one
        right
        have hqp : q ≠ p := by
          rintro rfl
          rw [howes] at hqowes
          cases hqowes
        have hpc := State.apply_pc_of_ne (s := s) (m := m) hqp
        refine ⟨q, ?_, by rw [hpc]; exact hqowes⟩
        exact (hheld.critical q).mp (by rw [hpc]; exact owes_critical hqowes)

theorem Awake.step {s' : State P} {a : Action P} (h : Awake s) (hstep : step s a = .ok () s')
    (hmay : MayGiveUp s a) : Awake s' := by
  have hheld := h.held.step hstep
  rcases step_cases hstep with ⟨p, c, rfl, hidle, rfl⟩ | ⟨p, m, rfl, hawake, hm, rfl⟩ |
    ⟨p, rfl, -, rfl⟩
  · refine ⟨hheld, ?_, ?_⟩
    · intro q
      simp only [update_apply]
      split_ifs with hq
      · cases c <;> trivial
      · exact h.points q
    · intro chan
      rcases h.sleepers chan with hall | ⟨q, hq, howes⟩
      · left
        intro q hq
        apply hall q
        simp only [update_apply] at hq
        split_ifs at hq with hqp
        · subst hqp
          rcases hq with hq | hq
          · exact Or.inl hq
          · rw [(entry_free c).2] at hq
            cases hq
        · exact hq
      · right
        refine ⟨q, hq, ?_⟩
        simp only [update_apply]
        split_ifs with hqp
        · rw [hqp, hidle] at howes
          cases howes
        · exact howes
  · exact h.apply hawake (moves_of_move hm) hmay
  · refine ⟨hheld, ?_, ?_⟩
    · intro q
      simp only [update_apply]
      split_ifs with hq
      · exact h.points p
      · exact h.points q
    · intro chan
      rcases h.sleepers chan with hall | ⟨q, hq, howes⟩
      · left
        intro q hq
        apply hall q
        simp only [update_apply] at hq
        split_ifs at hq with hqp
        · subst hqp
          rcases hq with hq | hq
          · cases hq
          · exact Or.inr hq
        · exact hq
      · right
        refine ⟨q, hq, ?_⟩
        simp only [update_apply]
        split_ifs with hqp
        · rw [← hqp]
          exact howes
        · exact howes

/-- In every run in which `pipewrite` takes its early return only when no process is in
`sleep` on `&p->nread`: with `p->lock` free, no process sleeps on `&p->nread` while there
is something to read or the write end is closed, and none on `&p->nwrite` while there is
room or the read end is closed. -/
theorem no_lost_wakeup {data : Nat → Byte} {killed : P → Bool} {tr : List (State P × Action P)}
    {s : State P} (htr : Trace step (init data killed) tr s)
    (hmay : ∀ x ∈ tr, MayGiveUp x.1 x.2) (hfree : s.lock = none) (p : P) :
    ((s.procs p).sleeping = some .nread → s.pipe.empty ∧ s.pipe.writeopen = true) ∧
    ((s.procs p).sleeping = some .nwrite → s.pipe.full ∧ s.pipe.readopen = true) := by
  have h : (∀ x ∈ tr, MayGiveUp x.1 x.2) → Awake s := by
    refine Trace.invariant (I := fun tr s => (∀ x ∈ tr, MayGiveUp x.1 x.2) → Awake s)
      (fun _ => awake_init data killed) ?_ htr
    intro tr s a s' _ ih hstep hmay
    exact (ih fun x hx => hmay x (List.mem_cons_of_mem _ hx)).step hstep
      (hmay _ List.mem_cons_self)
  have hpending : ∀ chan, (s.procs p).sleeping = some chan → s.pipe.Pending chan := by
    intro chan hchan
    rcases (h hmay).sleepers chan with hall | ⟨q, hq, -⟩
    · exact hall p (Or.inl hchan)
    · rw [hfree] at hq
      cases hq
  exact ⟨hpending .nread, hpending .nwrite⟩

def readerSleeps (p : Fin 2) : List (Action (Fin 2)) :=
  .start p (.piperead 1) :: List.replicate 5 (.step p)

def neverFull (s : State (Fin 2)) : Action (Fin 2) → Bool
  | .step p =>
    match (s.procs p).pc with
    | .write _ _ _ .full => false
    | _ => true
  | _ => true

/-- The reader is asleep with the lock free; `pipe` is what is asked of the pipe. -/
def readerAsleep (p : Fin 2) (pipe : Pipe → Bool) (s : State (Fin 2)) : Bool :=
  s.lock == none && (s.procs p).sleeping == some .nread && pipe s.pipe

theorem no_lost_wakeup_reader : ∃ tr s,
    Trace step (init (P := Fin 2) (fun _ => 0) fun _ => false) tr s ∧
    (s.procs 0).sleeping = some .nread ∧ s.pipe.empty ∧ s.pipe.writeopen = true := by
  obtain ⟨tr, s, htr, hok, hend⟩ := Trace.of_play step neverFull
    (init (P := Fin 2) (fun _ => 0) fun _ => false) (readerSleeps 0) (readerAsleep 0 fun _ => true)
    (by decide)
  simp only [readerAsleep, Bool.and_true, Bool.and_eq_true, beq_iff_eq] at hend
  refine ⟨tr, s, htr, hend.2, (no_lost_wakeup htr ?_ hend.1 0).1 hend.2⟩
  intro x hx
  have hx := hok x hx
  cases ha : x.2 with
  | step p =>
    intro hgive
    cases hpc : (x.1.procs p).pc with
    | write addr n i point => cases point <;> simp_all [neverFull, Pc.givesUp]
    | _ => simp_all [Pc.givesUp]
  | _ => trivial

def killedWriter (p q : Fin 2) : List (Action (Fin 2)) :=
  readerSleeps p ++ [.start q (.pipewrite (fun _ => 0) 513), .kill q] ++
    List.replicate 516 (.step q)

theorem pipewrite_leaves_reader_asleep : ∃ tr s,
    Trace step (init (P := Fin 2) (fun _ => 0) fun _ => false) tr s ∧ s.lock = none ∧
    (s.procs 0).sleeping = some .nread ∧ ¬ s.pipe.empty := by
  obtain ⟨tr, s, htr, -, hend⟩ := Trace.of_play step (fun _ _ => true)
    (init (P := Fin 2) (fun _ => 0) fun _ => false) (killedWriter 0 1)
    (readerAsleep 0 fun pipe => !decide pipe.empty) (by decide +kernel)
  simp only [readerAsleep, Bool.and_eq_true, beq_iff_eq, Bool.not_eq_true',
    decide_eq_false_iff_not] at hend
  exact ⟨tr, s, htr, hend.1.1, hend.1.2, hend.2⟩

end Xv6.Ipc
