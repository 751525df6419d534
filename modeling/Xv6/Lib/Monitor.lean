import Mathlib.Logic.Function.Basic
import Mathlib.Tactic.SplitIfs
import Xv6.Lib.Transition

/-!
# Monitors with sleepers

Threads that share data under a lock and wait on channels.  The states of the threads have
a lock of their own, the table lock: a thread that sleeps takes it before it gives up the
lock, and gives it up as it falls asleep; a wakeup needs it.  A system says what a thread
does next as a `Move`; this module says what the move does to the locks and the sleepers,
who then holds which lock, and when no wakeup is lost.
-/

namespace Xv6.Lib.Monitor

open Function

inductive LockOp (C : Type) where
  | stay
  | acquire
  | release
  | acquireTable
  | releaseTable
  /-- fall asleep on a channel and give up the table lock -/
  | sched (chan : C)
  | wakeup1 (chan : C)

/-- A move: the locks, the data afterwards, and where the thread then is. -/
structure Move (D L C : Type) where
  op : LockOp C
  data : D
  loc : L

structure Thread (L C : Type) where
  loc : L
  sleeping : Option C

structure State (P D L C : Type) where
  data : D
  lock : Option P
  table : Option P
  threads : P → Thread L C

variable {P D L C : Type} [DecidableEq P]

section apply

variable [DecidableEq C]

def Thread.wake (x : Thread L C) (chan : C) : Thread L C :=
  if x.sleeping = some chan then { x with sleeping := none } else x

/-- The thread `p` makes the move `m`, if it is awake and the lock it takes is free. -/
def State.apply (s : State P D L C) (p : P) (m : Move D L C) : Option (State P D L C) :=
  let threads := update s.threads p ⟨m.loc, none⟩
  if (s.threads p).sleeping ≠ none then none
  else
    match m.op with
    | .stay => some { s with data := m.data, threads }
    | .acquire =>
      if s.lock = none then some { s with data := m.data, lock := some p, threads } else none
    | .release => some { s with data := m.data, lock := none, threads }
    | .acquireTable =>
      if s.table = none then some { s with data := m.data, table := some p, threads } else none
    | .releaseTable => some { s with data := m.data, table := none, threads }
    | .sched chan =>
      some ⟨m.data, s.lock, none, update s.threads p ⟨m.loc, some chan⟩⟩
    | .wakeup1 chan =>
      some { s with
        data := m.data
        threads := update (fun q => (s.threads q).wake chan) p ⟨m.loc, none⟩ }

end apply

def State.kill (s : State P D L C) (p : P) : State P D L C :=
  { s with threads := update s.threads p { s.threads p with sleeping := none } }

/-- The holder of the lock after a move of `p`. -/
def LockOp.lock (op : LockOp C) (p : P) (held : Option P) : Option P :=
  match op with
  | .acquire => some p
  | .release => none
  | _ => held

/-- The holder of the table lock after a move of `p`. -/
def LockOp.table (op : LockOp C) (p : P) (held : Option P) : Option P :=
  match op with
  | .acquireTable => some p
  | .releaseTable => none
  | .sched _ => none
  | _ => held

structure Applied (s : State P D L C) (p : P) (m : Move D L C) (s' : State P D L C) : Prop where
  awake : (s.threads p).sleeping = none
  data : s'.data = m.data
  loc : (s'.threads p).loc = m.loc
  others : ∀ q, q ≠ p → (s'.threads q).loc = (s.threads q).loc
  sleepers : ∀ q c, q ≠ p → (s'.threads q).sleeping = some c →
    (s.threads q).sleeping = some c ∧ m.op ≠ .wakeup1 c
  sleeping : ∀ c, (s'.threads p).sleeping = some c → m.op = .sched c
  lock : s'.lock = m.op.lock p s.lock
  table : s'.table = m.op.table p s.table
  free : m.op = .acquire → s.lock = none
  tableFree : m.op = .acquireTable → s.table = none

variable {s s' : State P D L C} {p q : P} {m : Move D L C}

/-- The moves that leave the mover awake and every other thread as it was. -/
theorem applied_of_update (hawake : (s.threads p).sleeping = none) (hdata : s'.data = m.data)
    (hthreads : s'.threads = update s.threads p ⟨m.loc, none⟩)
    (hop : ∀ c, m.op ≠ .wakeup1 c) (hlock : s'.lock = m.op.lock p s.lock)
    (htable : s'.table = m.op.table p s.table) (hfree : m.op = .acquire → s.lock = none)
    (htableFree : m.op = .acquireTable → s.table = none) : Applied s p m s' := by
  refine ⟨hawake, hdata, ?_, fun q hq => ?_, fun q c hq hc => ⟨?_, hop c⟩, fun c hc => ?_, hlock,
    htable, hfree, htableFree⟩
  · rw [hthreads, update_self]
  · rw [hthreads, update_of_ne hq]
  · rwa [hthreads, update_of_ne hq] at hc
  · rw [hthreads, update_self] at hc
    cases hc

theorem killed (s : State P D L C) (p q : P) : ((s.kill p).threads q).loc = (s.threads q).loc ∧
    ∀ c, ((s.kill p).threads q).sleeping = some c → (s.threads q).sleeping = some c := by
  by_cases hqp : q = p
  · simp [State.kill, hqp]
  · simp [State.kill, hqp]

section applied

variable [DecidableEq C]

omit [DecidableEq P] in
theorem loc_wake (x : Thread L C) (chan : C) : (x.wake chan).loc = x.loc := by
  rw [Thread.wake]
  split <;> rfl

theorem sleeping_wake {x : Thread L C} {chan c : C} (h : (x.wake chan).sleeping = some c) :
    x.sleeping = some c ∧ c ≠ chan := by
  rw [Thread.wake] at h
  split at h
  · cases h
  · case isFalse hne => exact ⟨h, fun heq => hne (heq ▸ h)⟩

theorem applied (h : s.apply p m = some s') : Applied s p m s' := by
  obtain ⟨op, data, loc⟩ := m
  simp only [State.apply] at h
  by_cases hsleep : (s.threads p).sleeping ≠ none
  · rw [if_pos hsleep] at h
    cases h
  rw [if_neg hsleep] at h
  have hawake : (s.threads p).sleeping = none := not_not.mp hsleep
  cases op with
  | stay | release | releaseTable =>
    cases h
    exact applied_of_update hawake rfl rfl (by simp) rfl rfl (by simp) (by simp)
  | acquire =>
    simp only at h
    split_ifs at h with hfree
    cases h
    exact applied_of_update hawake rfl rfl (by simp) rfl rfl (fun _ => hfree) (by simp)
  | acquireTable =>
    simp only at h
    split_ifs at h with hfree
    cases h
    exact applied_of_update hawake rfl rfl (by simp) rfl rfl (by simp) (fun _ => hfree)
  | sched chan =>
    cases h
    refine ⟨hawake, rfl, ?_, fun q hq => ?_, fun q c hq hc => ⟨?_, by simp⟩, fun c hc => ?_, rfl,
      rfl, by simp, by simp⟩
    · simp only [update_self]
    · simp only [update_of_ne hq]
    · simpa only [update_of_ne hq] using hc
    · simp only [update_self] at hc
      cases hc
      rfl
  | wakeup1 chan =>
    cases h
    refine ⟨hawake, rfl, ?_, fun q hq => ?_, fun q c hq hc => ?_, fun c hc => ?_, rfl, rfl,
      by simp, by simp⟩
    · simp only [update_self]
    · simp only [update_of_ne hq, loc_wake]
    · simp only [update_of_ne hq] at hc
      obtain ⟨hsleeping, hne⟩ := sleeping_wake hc
      exact ⟨hsleeping, by simpa using Ne.symm hne⟩
    · simp only [update_self] at hc
      cases hc

end applied

/-- The places at which a thread holds the lock, those at which it holds the table lock, and
those at which it is about to sleep; there it holds one of the two. -/
structure Roles (L C : Type) where
  critical : L → Bool
  tabled : L → Bool
  committed : L → Option C
  held : ∀ l c, committed l = some c → critical l = true ∨ tabled l = true

/-- The move of a thread at `l` fits the roles. -/
def Roles.Proper (R : Roles L C) (l : L) (m : Move D L C) : Prop :=
  match m.op with
  | .stay => R.critical m.loc = R.critical l ∧ R.tabled m.loc = R.tabled l
  | .acquire => R.critical l = false ∧ R.critical m.loc = true ∧ R.tabled m.loc = R.tabled l
  | .release => R.critical l = true ∧ R.critical m.loc = false ∧ R.tabled m.loc = R.tabled l
  | .acquireTable => R.critical m.loc = R.critical l ∧ R.tabled l = false ∧ R.tabled m.loc = true
  | .releaseTable => R.critical m.loc = R.critical l ∧ R.tabled l = true ∧ R.tabled m.loc = false
  | .sched chan => R.critical l = false ∧ R.critical m.loc = false ∧ R.tabled l = true ∧
      R.tabled m.loc = false ∧ R.committed l = some chan
  | .wakeup1 _ => R.critical l = true ∧ R.critical m.loc = true ∧ R.tabled l = true ∧
      R.tabled m.loc = true ∧ R.committed l = none ∧ R.committed m.loc = none

/-- The locks belong to the threads at the places where they are held, and a thread that
sleeps holds neither. -/
structure Locked (R : Roles L C) (s : State P D L C) : Prop where
  lock : ∀ p, R.critical (s.threads p).loc = true ↔ s.lock = some p
  table : ∀ p, R.tabled (s.threads p).loc = true ↔ s.table = some p
  asleep : ∀ p, (s.threads p).sleeping ≠ none →
    R.critical (s.threads p).loc = false ∧ R.tabled (s.threads p).loc = false

variable {R : Roles L C}

theorem Locked.kill (h : Locked R s) (p : P) : Locked R (s.kill p) := by
  refine ⟨fun q => ?_, fun q => ?_, fun q hq => ?_⟩
  · rw [(killed s p q).1]
    exact h.lock q
  · rw [(killed s p q).1]
    exact h.table q
  · obtain ⟨c, hc⟩ := Option.ne_none_iff_exists'.mp hq
    rw [(killed s p q).1]
    refine h.asleep q ?_
    rw [(killed s p q).2 c hc]
    simp

omit [DecidableEq P] in
theorem Locked.unique (h : Locked R s) (hp : R.critical (s.threads p).loc = true)
    (hq : R.critical (s.threads q).loc = true) : p = q :=
  Option.some.inj (((h.lock p).mp hp).symm.trans ((h.lock q).mp hq))

theorem Locked.apply [DecidableEq C] (h : Locked R s) (hproper : R.Proper (s.threads p).loc m)
    (hs : s.apply p m = some s') : Locked R s' := by
  have happ := applied hs
  have hlock := h.lock
  have htable := h.table
  refine ⟨fun q => ?_, fun q => ?_, fun q hq => ?_⟩
  · by_cases hqp : q = p
    · subst hqp
      rw [happ.loc, happ.lock]
      cases hop : m.op <;> simp only [Roles.Proper, LockOp.lock, hop] at hproper ⊢ <;> grind
    · rw [happ.others q hqp, happ.lock]
      cases hop : m.op <;> simp only [Roles.Proper, LockOp.lock, hop] at hproper ⊢ <;>
        grind [happ.free]
  · by_cases hqp : q = p
    · subst hqp
      rw [happ.loc, happ.table]
      cases hop : m.op <;> simp only [Roles.Proper, LockOp.table, hop] at hproper ⊢ <;> grind
    · rw [happ.others q hqp, happ.table]
      cases hop : m.op <;> simp only [Roles.Proper, LockOp.table, hop] at hproper ⊢ <;>
        grind [happ.tableFree]
  · obtain ⟨c, hc⟩ := Option.ne_none_iff_exists'.mp hq
    by_cases hqp : q = p
    · subst hqp
      rw [happ.loc]
      simp only [Roles.Proper, happ.sleeping c hc] at hproper
      exact ⟨hproper.2.1, hproper.2.2.2.1⟩
    · rw [happ.others q hqp]
      refine h.asleep q ?_
      rw [(happ.sleepers q c hqp hc).1]
      simp

/-! ## No lost wakeup

`Blocked c d`: with the data `d`, who waits on `c` still has to wait.  `Owes l c`: a thread
at `l` has not yet woken the sleepers of `c`, but will before it gives up the lock. -/

def Waiting (R : Roles L C) (s : State P D L C) (p : P) (c : C) : Prop :=
  (s.threads p).sleeping = some c ∨ R.committed (s.threads p).loc = some c

/-- Whoever waits on a channel has to, or will be woken by the thread that holds the lock. -/
def NoLost (R : Roles L C) (Blocked : C → D → Prop) (Owes : L → C → Prop)
    (s : State P D L C) : Prop :=
  ∀ p c, Waiting R s p c → Blocked c s.data ∨ ∃ q, s.lock = some q ∧ Owes (s.threads q).loc c

variable {Blocked : C → D → Prop} {Owes : L → C → Prop}

theorem NoLost.kill (hn : NoLost R Blocked Owes s) (p : P) : NoLost R Blocked Owes (s.kill p) := by
  intro q c hw
  have hold : Waiting R s q c := by
    rw [Waiting, (killed s p q).1] at hw
    exact hw.imp_left ((killed s p q).2 c)
  rcases hn q c hold with hb | ⟨r, hr, howes⟩
  · exact .inl hb
  · exact .inr ⟨r, hr, by rwa [(killed s p r).1]⟩

omit [DecidableEq P] in
theorem NoLost.blocked (hn : NoLost R Blocked Owes s) (hfree : s.lock = none) {c : C}
    (hw : (s.threads p).sleeping = some c) : Blocked c s.data := by
  rcases hn p c (.inl hw) with hb | ⟨q, hq, -⟩
  · exact hb
  · rw [hfree] at hq
    cases hq

variable [DecidableEq C]

section

variable (h : Locked R s)
  (hproper : R.Proper (s.threads p).loc m) (hs : s.apply p m = some s')

include h hproper hs

theorem lock_of_ne (hq : s.lock = some q) (hqp : q ≠ p) : s'.lock = some q := by
  have happ := applied hs
  have hcritical : R.critical (s.threads p).loc ≠ true := fun hc =>
    hqp (Option.some.inj (hq.symm.trans ((h.lock p).mp hc)))
  rw [happ.lock]
  cases hop : m.op <;> simp only [Roles.Proper, LockOp.lock, hop] at hproper ⊢ <;>
    grind [happ.free]

/-- Whoever waits after a move waited on the same channel before it, or is the mover that
has just decided to sleep. -/
theorem waited {c : C} (hw : Waiting R s' q c) : (Waiting R s q c ∧ m.op ≠ .wakeup1 c) ∨
      (R.committed m.loc = some c ∧ R.committed (s.threads p).loc ≠ some c) := by
  have happ := applied hs
  by_cases hqp : q = p
  · subst hqp
    rcases hw with hw | hw
    · have hop := happ.sleeping c hw
      simp only [Roles.Proper, hop] at hproper
      exact .inl ⟨.inr hproper.2.2.2.2, by simp [hop]⟩
    · rw [happ.loc] at hw
      by_cases hold : R.committed (s.threads q).loc = some c
      · refine .inl ⟨.inr hold, fun hop => ?_⟩
        simp only [Roles.Proper, hop] at hproper
        rw [hproper.2.2.2.2.1] at hold
        cases hold
      · exact .inr ⟨hw, hold⟩
  · rcases hw with hw | hw
    · exact .inl ⟨.inl (happ.sleepers q c hqp hw).1, (happ.sleepers q c hqp hw).2⟩
    · rw [happ.others q hqp] at hw
      refine .inl ⟨.inr hw, fun hop => ?_⟩
      -- the waker holds both locks, so nobody else is about to sleep
      simp only [Roles.Proper, hop] at hproper
      rcases R.held _ c hw with hheld | hheld
      · exact hqp (h.unique hheld hproper.1)
      · have hp := (h.table p).mp hproper.2.2.1
        rw [(h.table q).mp hheld] at hp
        exact hqp (Option.some.inj hp)

end

theorem NoLost.apply (hn : NoLost R Blocked Owes s) (h : Locked R s)
    (hproper : R.Proper (s.threads p).loc m) (hs : s.apply p m = some s')
    (hsleep : ∀ c, R.committed m.loc = some c → R.committed (s.threads p).loc ≠ some c →
      Blocked c m.data)
    (hkeep : ∀ q c, Waiting R s q c → m.op ≠ .wakeup1 c →
      Blocked c s.data ∨ (R.critical (s.threads p).loc = true ∧ Owes (s.threads p).loc c) →
      Blocked c m.data ∨ (R.critical m.loc = true ∧ Owes m.loc c)) :
    NoLost R Blocked Owes s' := by
  intro q c hw
  have happ := applied hs
  have hlocked := h.apply hproper hs
  -- what the mover itself guarantees after the step
  have hmine : Blocked c m.data ∨ (R.critical m.loc = true ∧ Owes m.loc c) →
      Blocked c s'.data ∨ ∃ r, s'.lock = some r ∧ Owes (s'.threads r).loc c := by
    rintro (hb | ⟨hcritical, howes⟩)
    · exact .inl (happ.data ▸ hb)
    · rw [← happ.loc] at hcritical howes
      exact .inr ⟨p, (hlocked.lock p).mp hcritical, howes⟩
  rcases waited h hproper hs hw with ⟨hw, hop⟩ | ⟨hc, hnew⟩
  · rcases hn q c hw with hb | ⟨r, hr, howes⟩
    · exact hmine (hkeep q c hw hop (.inl hb))
    · by_cases hrp : r = p
      · subst hrp
        exact hmine (hkeep q c hw hop (.inr ⟨(h.lock r).mpr hr, howes⟩))
      · exact .inr ⟨r, lock_of_ne h hproper hs hr hrp, by rwa [happ.others r hrp]⟩
  · exact hmine (.inl (hsleep c hc hnew))

end Xv6.Lib.Monitor
