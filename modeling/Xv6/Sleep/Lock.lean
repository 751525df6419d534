import Xv6.Lib.Monitor

/-!
# Sleep locks

`acquiresleep`, `releasesleep` and `holdingsleep` of sleeplock.c over `sleep` and `wakeup` of
proc.c, for one lock and any number of processes, named by their pids.  A step of the model
is one operation on a spin lock, or one group of accesses between two of them.
-/

namespace Xv6.Sleep

open Lib Monitor

/-- The fields of `struct sleeplock` that `lk->lk` protects. -/
structure Sleeplock where
  locked : Bool
  pid : Int
  deriving DecidableEq

def initsleeplock : Sleeplock := ⟨false, 0⟩

inductive Chan where
  | lk
  deriving DecidableEq

/-- The points of `acquiresleep`; `sleep` is the part from `sleepTable` to `tidy`. -/
inductive Acquire where
  | acquire
  | test
  | sleepTable
  | sleepRelease
  | sched
  /-- the scheduler takes `ptable.lock` and runs the process again -/
  | resume
  | tidy
  | set
  | release
  deriving DecidableEq

/-- The points of `releasesleep`; `wakeup` is the part from `wakeTable` to `wakeRelease`. -/
inductive Release where
  | acquire
  | clear
  | wakeTable
  | wakeup1
  | wakeRelease
  | release
  deriving DecidableEq

/-- The points of `holdingsleep`; the last one keeps the result. -/
inductive Ask where
  | acquire
  | read
  | release (r : Bool)
  deriving DecidableEq

/-- Where a process is.  `holdingsleep` goes back to where it was called from: `held` says
whether that is between `acquiresleep` and `releasesleep`. -/
inductive Pc where
  | idle
  | acquiring (pt : Acquire)
  | holding
  | releasing (pt : Release)
  | asking (held : Bool) (pt : Ask)
  deriving DecidableEq

inductive Call where
  | proceed
  | acquiresleep
  | releasesleep
  | holdingsleep
  deriving DecidableEq

def next (pid : Int) (lk : Sleeplock) : Call → Pc → Option (Move Sleeplock Pc Chan)
  | .acquiresleep, .idle => some ⟨.stay, lk, .acquiring .acquire⟩
  | .releasesleep, .holding => some ⟨.stay, lk, .releasing .acquire⟩
  | .holdingsleep, .idle => some ⟨.stay, lk, .asking false .acquire⟩
  | .holdingsleep, .holding => some ⟨.stay, lk, .asking true .acquire⟩
  | .proceed, .acquiring pt =>
    match pt with
    | .acquire => some ⟨.acquire, lk, .acquiring .test⟩
    -- while (lk->locked)
    | .test => some ⟨.stay, lk, .acquiring (if lk.locked then .sleepTable else .set)⟩
    | .sleepTable => some ⟨.acquireTable, lk, .acquiring .sleepRelease⟩
    | .sleepRelease => some ⟨.release, lk, .acquiring .sched⟩
    | .sched => some ⟨.sched .lk, lk, .acquiring .resume⟩
    | .resume => some ⟨.acquireTable, lk, .acquiring .tidy⟩
    | .tidy => some ⟨.releaseTable, lk, .acquiring .acquire⟩
    | .set => some ⟨.stay, ⟨true, pid⟩, .acquiring .release⟩
    | .release => some ⟨.release, lk, .holding⟩
  | .proceed, .releasing pt =>
    match pt with
    | .acquire => some ⟨.acquire, lk, .releasing .clear⟩
    | .clear => some ⟨.stay, ⟨false, 0⟩, .releasing .wakeTable⟩
    | .wakeTable => some ⟨.acquireTable, lk, .releasing .wakeup1⟩
    | .wakeup1 => some ⟨.wakeup1 .lk, lk, .releasing .wakeRelease⟩
    | .wakeRelease => some ⟨.releaseTable, lk, .releasing .release⟩
    | .release => some ⟨.release, lk, .idle⟩
  | .proceed, .asking held pt =>
    match pt with
    | .acquire => some ⟨.acquire, lk, .asking held .read⟩
    | .read => some ⟨.stay, lk, .asking held (.release (lk.locked && lk.pid == pid))⟩
    | .release _ => some ⟨.release, lk, if held then .holding else .idle⟩
  | _, _ => none

abbrev System := State Int Sleeplock Pc Chan

inductive Act where
  | run (pid : Int) (call : Call)
  /-- `kill` of some process, which makes a sleeper `RUNNABLE` -/
  | kill (pid : Int)

def step (s : System) : Act → Outcome System Unit
  | .run pid call =>
    match (next pid s.data call (s.threads pid).loc).bind (s.apply pid) with
    | some s' => .ok () s'
    | none => .blocked
  | .kill pid => .ok () (s.kill pid)

def boot : System := ⟨initsleeplock, none, none, fun _ => ⟨.idle, none⟩⟩

def critical : Pc → Bool
  | .acquiring .test | .acquiring .sleepTable | .acquiring .sleepRelease | .acquiring .set
  | .acquiring .release => true
  | .releasing .clear | .releasing .wakeTable | .releasing .wakeup1 | .releasing .wakeRelease
  | .releasing .release => true
  | .asking _ .read | .asking _ (.release _) => true
  | _ => false

def tabled : Pc → Bool
  | .acquiring .sleepRelease | .acquiring .sched | .acquiring .tidy => true
  | .releasing .wakeup1 | .releasing .wakeRelease => true
  | _ => false

def committed : Pc → Option Chan
  | .acquiring .sleepTable | .acquiring .sleepRelease | .acquiring .sched => some .lk
  | _ => none

theorem committed_held (l : Pc) (c : Chan) (h : committed l = some c) :
    critical l = true ∨ tabled l = true := by
  revert h
  unfold committed
  split
  · exact fun _ => .inl rfl
  · exact fun _ => .inl rfl
  · exact fun _ => .inr rfl
  · exact fun h => nomatch h

def roles : Roles Pc Chan := ⟨critical, tabled, committed, committed_held⟩

/-- The process owns the lock: from the assignments of `acquiresleep` to those of
`releasesleep`. -/
def inside : Pc → Bool
  | .acquiring .release | .holding | .releasing .acquire | .releasing .clear => true
  | .asking held _ => held
  | _ => false

def Owes (l : Pc) (_ : Chan) : Prop := l = .releasing .wakeTable ∨ l = .releasing .wakeup1

def Blocked (_ : Chan) (lk : Sleeplock) : Prop := lk.locked = true

/-- The lock names the process exactly while it is inside, the lock is free where the process
is about to take it, and `holdingsleep` has read which of the two holds. -/
structure Knows (lk : Sleeplock) (pid : Int) (l : Pc) : Prop where
  inside : inside l = true ↔ lk.locked = true ∧ lk.pid = pid
  free : l = .acquiring .set → lk.locked = false
  answer : ∀ held r, l = .asking held (.release r) → r = held

variable {lk : Sleeplock} {pid pid' : Int} {call : Call} {l l' : Pc}
  {m : Move Sleeplock Pc Chan}

theorem proper_next (h : next pid lk call l = some m) : roles.Proper l m := by
  unfold next at h
  split at h
  all_goals try split at h
  all_goals cases h
  -- the loop test and the return of `holdingsleep` choose where to go
  all_goals try split_ifs
  all_goals simp [Roles.Proper, roles, critical, tabled, committed]

theorem Knows.next (h : Knows lk pid l) (hm : next pid lk call l = some m) :
    Knows m.data pid m.loc := by
  obtain ⟨hinside, hfree, hanswer⟩ := h
  unfold Sleep.next at hm
  split at hm
  all_goals try split at hm
  all_goals cases hm
  all_goals try split_ifs
  all_goals constructor <;> grind [Sleep.inside]

theorem next_data (h : next pid lk call l = some m) : m.data = lk ∨
    l = .acquiring .set ∧ m.data = ⟨true, pid⟩ ∨ l = .releasing .clear ∧ m.data = ⟨false, 0⟩ := by
  unfold next at h
  split at h
  all_goals try split at h
  all_goals cases h
  all_goals simp

theorem Knows.others (h : Knows lk pid l) (h' : Knows lk pid' l') (hne : pid' ≠ pid)
    (hcritical : critical l = true → critical l' = false) (hm : Sleep.next pid lk call l = some m) :
    Knows m.data pid' l' := by
  rcases next_data hm with hdata | ⟨rfl, hdata⟩ | ⟨rfl, hdata⟩
  · rw [hdata]
    exact h'
  · have hfree := h.free rfl
    have hout : Sleep.inside l' ≠ true := by
      intro hin
      rw [(h'.inside.mp hin).1] at hfree
      cases hfree
    rw [hdata]
    refine ⟨⟨fun hin => absurd hin hout, fun hin => absurd hin.2.symm hne⟩, ?_, h'.answer⟩
    rintro rfl
    exact absurd (hcritical rfl) (by decide)
  · have hout : Sleep.inside l' ≠ true := by
      intro hin
      exact hne ((h'.inside.mp hin).2.symm.trans (h.inside.mp rfl).2)
    rw [hdata]
    refine ⟨⟨fun hin => absurd hin hout, fun hin => ?_⟩, fun _ => rfl, h'.answer⟩
    cases hin.1

theorem blocked_of_committed (h : next pid lk call l = some m) {c : Chan}
    (hm : committed m.loc = some c) (hl : committed l ≠ some c) : Blocked c m.data := by
  by_cases hlocked : lk.locked = true
  all_goals unfold next at h
  all_goals split at h
  all_goals try split at h
  all_goals cases h
  all_goals grind [committed, Blocked]

theorem blocked_or_owes (h : next pid lk call l = some m) {c : Chan} (hop : m.op ≠ .wakeup1 c)
    (hold : Blocked c lk ∨ critical l = true ∧ Owes l c) :
    Blocked c m.data ∨ critical m.loc = true ∧ Owes m.loc c := by
  unfold next at h
  split at h
  all_goals try split at h
  all_goals cases h
  all_goals cases c
  all_goals grind [critical, Blocked, Owes]

structure Inv (s : System) : Prop where
  locked : Locked roles s
  noLost : NoLost roles Blocked Owes s
  knows : ∀ pid, Knows s.data pid (s.threads pid).loc

variable {s s' : System}

theorem inv_boot : Inv boot := by
  refine ⟨⟨?_, ?_, ?_⟩, ?_, ?_⟩
  · simp [boot, roles, critical]
  · simp [boot, roles, tabled]
  · simp [boot]
  · simp [NoLost, Waiting, boot, roles, committed]
  · intro pid
    exact ⟨by simp [boot, initsleeplock, Sleep.inside], by simp [boot], by simp [boot]⟩

theorem Inv.apply (h : Inv s) (hm : next pid s.data call (s.threads pid).loc = some m)
    (hs : s.apply pid m = some s') : Inv s' := by
  have happ := applied hs
  have hproper := proper_next hm
  refine ⟨h.locked.apply hproper hs, ?_, fun q => ?_⟩
  · exact h.noLost.apply h.locked hproper hs (fun c => blocked_of_committed hm)
      (fun _ c _ => blocked_or_owes hm)
  · rw [happ.data]
    by_cases hq : q = pid
    · rw [hq, happ.loc]
      exact (h.knows pid).next hm
    · rw [happ.others q hq]
      refine (h.knows pid).others (h.knows q) hq (fun hp => ?_) hm
      exact Bool.eq_false_iff.mpr fun hcritical => hq (h.locked.unique hcritical hp)

theorem Inv.kill (h : Inv s) (pid : Int) : Inv (s.kill pid) := by
  refine ⟨h.locked.kill pid, h.noLost.kill pid, fun q => ?_⟩
  rw [(killed s pid q).1]
  exact h.knows q

theorem Inv.step {a : Act} (h : Inv s) (hs : step s a = .ok () s') : Inv s' := by
  cases a with
  | run pid call =>
    simp only [Sleep.step] at hs
    split at hs
    · case h_1 t ht =>
      cases hs
      obtain ⟨m, hm, happly⟩ := Option.bind_eq_some_iff.mp ht
      exact h.apply hm happly
    · cases hs
  | kill pid =>
    cases hs
    exact h.kill pid

theorem inv_of_trace {tr : List (System × Act)} (htr : Trace step boot tr s) : Inv s :=
  Trace.invariant (I := fun _ s => Inv s) inv_boot (fun _ _ _ _ _ h hs => h.step hs) htr

/-- In every reachable state at most one process is between `acquiresleep` and
`releasesleep`, `holdingsleep` tells exactly that process so, and while the spin locks are
free nobody sleeps on a free lock. -/
theorem sleeplock_excludes {tr : List (System × Act)} (htr : Trace step boot tr s) :
    (∀ p q, inside (s.threads p).loc = true → inside (s.threads q).loc = true → p = q) ∧
    (∀ p held r, (s.threads p).loc = .asking held (.release r) →
      (r = true ↔ inside (s.threads p).loc = true)) ∧
    (s.lock = none → s.table = none → ∀ p, (s.threads p).sleeping = some .lk →
      s.data.locked = true) := by
  have h := inv_of_trace htr
  refine ⟨fun p q hp hq => ?_, fun p held r hl => ?_, fun hlock _ p hp => ?_⟩
  · rw [← ((h.knows p).inside.mp hp).2, ((h.knows q).inside.mp hq).2]
  · rw [hl, (h.knows p).answer held r hl]
    rfl
  · exact h.noLost.blocked hlock hp

/-- Process 1 takes the lock, process 2 falls asleep on it and is killed, finds the lock
still taken and sleeps again; process 1 asks `holdingsleep`. -/
def contended : List Act :=
  [.run 1 .acquiresleep] ++ List.replicate 4 (.run 1 .proceed) ++
  [.run 2 .acquiresleep] ++ List.replicate 5 (.run 2 .proceed) ++ [.kill 2] ++
  List.replicate 7 (.run 2 .proceed) ++
  [.run 1 .holdingsleep] ++ List.replicate 2 (.run 1 .proceed)

theorem contended_excludes : ∃ tr s, Trace step boot tr s ∧
    (s.threads 1).loc = .asking true (.release true) ∧ (s.threads 2).sleeping = some .lk ∧
    ∀ p, inside (s.threads p).loc = true → p = 1 := by
  obtain ⟨tr, s, htr, -, hgood⟩ := Trace.of_actions step boot contended
    (fun s => decide ((s.threads 1).loc = .asking true (.release true) ∧
      (s.threads 2).sleeping = some .lk)) (by decide)
  have hgood := of_decide_eq_true hgood
  refine ⟨tr, s, htr, hgood.1, hgood.2, fun p hp => ?_⟩
  exact (sleeplock_excludes htr).1 p 1 hp (by rw [hgood.1]; rfl)

end Xv6.Sleep
