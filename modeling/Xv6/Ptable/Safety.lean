import Xv6.Ptable.Slots

/-!
# Runs of the process table

What holds in every run, whatever the number of CPUs: the invariant of the table, and
that `exit` and `wait` never miss each other.
-/

namespace Xv6.Ptable

open Lib List

variable {C : Type} [DecidableEq C] {s s' : State C} {a : Action C} {i : Slot}
  {tr : List (State C × Action C)}

omit [DecidableEq C] in
theorem life_live {x : ProcState} : x.life = .live ↔
    x = .sleeping ∨ x = .runnable ∨ x = .running := by
  cases x <;> simp [ProcState.life]

omit [DecidableEq C] in
theorem Table.parent_of_alive (h : Table s)
    (hi : (s.procs i).state = .sleeping ∨ (s.procs i).state = .runnable ∨
      (s.procs i).state = .running ∨ (s.procs i).state = .zombie) (hinit : i ≠ s.initproc) :
    ∃ j, (s.procs i).parent = some j ∧ (s.procs j).state ≠ .unused ∧
      (s.procs j).state ≠ .zombie := by
  have hlife : s.life i = .live ∨ s.life i = .zombie := by
    rcases hi with hi | hi | hi | hi <;> simp [State.life, hi, ProcState.life]
  obtain ⟨j, hj, hlive⟩ := h.family.hasParent i hlife hinit
  refine ⟨j, hj, ?_⟩
  rcases life_live.mp hlive with hs | hs | hs <;> simp [hs]

omit [DecidableEq C] in
theorem Table.running_iff (h : Table s) (i : Slot) :
    (s.procs i).state = .running ↔ ∃! c, (s.cpus c).proc = some i := by
  have hrun := h.cpus.running i
  simp only [State.runs, decide_eq_true_eq] at hrun
  rw [hrun]
  constructor
  · rintro ⟨c, hc⟩
    exact ⟨c, hc, fun d hd => h.cpus.inj d c i hd hc⟩
  · rintro ⟨c, hc, -⟩
    exact ⟨c, hc⟩

/-- A slot that becomes unused was a zombie or being set up, and no CPU runs it. -/
theorem Table.off_cpu_of_freed (h : Table s) (hstep : step s a = .ok () s')
    (hfree : (s'.procs i).state = .unused) (c : C) : (s.cpus c).proc ≠ some i := by
  intro hc
  have hrun := h.state_of_on hc
  have hlife' : (s'.card i).life = .unused := by
    simp [State.card, Proc.card, hfree, ProcState.life]
  have hlife : (s.card i).life = .live := by
    simp [State.card, Proc.card, hrun, ProcState.life]
  cases turn_of_moves (i := i) h (moves_of_step hstep) <;> simp_all

/-- In every state of every run with fewer than 2³¹ calls of `allocproc`, the one of
`userinit` included. -/
theorem process_table_invariant (htr : Trace step (init : State C) tr s)
    (hcalls : forks tr + 1 < 2 ^ 31) :
    (∀ i j, (s.procs i).state ≠ .unused → (s.procs j).state ≠ .unused →
      (s.procs i).pid = (s.procs j).pid → i = j) ∧
    (∀ i, (s.procs i).state = .running ↔ ∃! c, (s.cpus c).proc = some i) ∧
    (∀ i, (s.procs i).state = .sleeping ∨ (s.procs i).state = .runnable ∨
      (s.procs i).state = .running ∨ (s.procs i).state = .zombie → i ≠ s.initproc →
      ∃ j, (s.procs i).parent = some j ∧ (s.procs j).state ≠ .unused ∧
        (s.procs j).state ≠ .zombie) ∧
    (∀ i, (s.procs i).state = .zombie ∨ (s.procs i).state = .unused →
      ∀ c, (s.cpus c).proc ≠ some i) ∧
    (∀ a s' i, step s a = .ok () s' → (s.procs i).state ≠ .unused →
      (s'.procs i).state = .unused → ∀ c, (s.cpus c).proc ≠ some i) := by
  have h := table_of_trace htr
  have hpids := (pids_of_trace htr hcalls).1
  refine ⟨?_, h.running_iff, fun i => h.parent_of_alive, ?_, ?_⟩
  · intro i j hi hj heq
    exact hpids.inj i j (by simpa [State.used] using hi) (by simpa [State.used] using hj) heq
  · intro i hi c hc
    have hrun := h.state_of_on hc
    rcases hi with hi | hi <;> simp [hi] at hrun
  · intro a s' i hstep _ hfree c
    exact h.off_cpu_of_freed hstep hfree c

def initForks (c : Fin 2) : List (Action (Fin 2)) :=
  [.sched c, .sched c, .step c true, .call c .fork, .step c true, .step c true, .step c true]

theorem process_table_invariant_fork : ∃ tr s, Trace step (init : State (Fin 2)) tr s ∧
    (s.procs 1).state = .runnable ∧
    ∃ j, (s.procs 1).parent = some j ∧ (s.procs j).state ≠ .unused ∧
      (s.procs j).state ≠ .zombie := by
  obtain ⟨tr, s, htr, hacts, hend⟩ := Trace.of_actions step (init : State (Fin 2)) (initForks 0)
    (fun s => (s.procs 1).state == .runnable && s.initproc == 0) (by decide)
  simp only [Bool.and_eq_true, beq_iff_eq] at hend
  have hforks : forks tr ≤ tr.length := countP_le_length
  have hlen : tr.length = 7 := by
    rw [← length_map (f := Prod.snd), hacts]
    rfl
  have hinv := process_table_invariant htr (by omega)
  refine ⟨tr, s, htr, hend.1, hinv.2.2.1 1 (Or.inr (Or.inl hend.1)) ?_⟩
  rw [hend.2]
  decide

/-- The step frees the zombie `i`. -/
def Reaps (s : State C) (a : Action C) (i : Slot) : Prop :=
  ∃ s', step s a = .ok () s' ∧ (s.procs i).state = .zombie ∧ (s'.procs i).state ≠ .zombie

/-- The step is the end of the process `i`. -/
def Exits (s : State C) (a : Action C) (i : Slot) : Prop :=
  ∃ c, a = .call c .exit ∧ (s.cpus c).proc = some i

omit [DecidableEq C] in
theorem zombie_iff : (s.procs i).state = .zombie ↔ (s.card i).life = .zombie := by
  cases hs : (s.procs i).state <;> simp [State.card, Proc.card, hs, ProcState.life]

omit [DecidableEq C] in
theorem unused_iff : (s.procs i).state = .unused ↔ (s.card i).life = .unused := by
  cases hs : (s.procs i).state <;> simp [State.card, Proc.card, hs, ProcState.life]

/-- A zombie is freed by a `wait` of its parent, which returns its pid. -/
theorem Table.reaped (h : Table s) (hstep : step s a = .ok () s')
    (hi : (s.procs i).state = .zombie) (hfree : (s'.procs i).state ≠ .zombie) :
    (s'.procs i).state = .unused ∧ ∃ c ok p, a = .step c ok ∧ (s.cpus c).proc = some p ∧
      (s.procs p).pc = .waitScan ∧ (s.procs i).parent = some p ∧
      (s'.procs p).pc = .ret (s.procs i).pid := by
  rw [unused_iff]
  rw [zombie_iff] at hi
  rw [Ne, zombie_iff] at hfree
  cases turn_of_moves (i := i) h (moves_of_step hstep) with
  | reap hcpu hpc hparent _ hnew hret =>
    exact ⟨by rw [hnew], _, _, _, rfl, hcpu, hpc, hparent, hret⟩
  | keep hnew => simp_all
  | alloc hold hnew => simp_all
  | unfork _ _ hold hnew => simp_all
  | ready hold hnew => simp_all
  | exit _ hold hnew => simp_all
  | kill _ hnew => simp_all

theorem Table.not_zombie (h : Table s) (hstep : step s a = .ok () s')
    (hi : (s.procs i).state ≠ .zombie) (hexit : ¬ Exits s a i) : (s'.procs i).state ≠ .zombie := by
  rw [Ne, zombie_iff] at hi ⊢
  cases turn_of_moves (i := i) h (moves_of_step hstep) with
  | exit hcpu => exact absurd ⟨_, rfl, hcpu⟩ hexit
  | keep hnew => simp_all
  | alloc _ hnew => simp_all
  | unfork _ _ _ hnew => simp_all
  | ready _ hnew => simp_all
  | reap _ _ _ hold => simp_all
  | kill _ hnew => simp_all

/-- Between two times a slot is a zombie and is freed in between, its process exits. -/
theorem exits_of_reaped {xs ys : List (State C × Action C)} {t : State C} {b : Action C}
    (htr : Trace step init (xs ++ (t, b) :: ys) s) (hreap : Reaps t b i)
    (hi : (s.procs i).state = .zombie) : ∃ x ∈ xs, Exits x.1 x.2 i := by
  by_contra hnone
  push Not at hnone
  refine htr.since (I := fun u => (u.procs i).state ≠ .zombie) ?_ ?_ hi
  · intro u hu
    cases hu with
    | cons _ hstep =>
      obtain ⟨t', ht', -, hfree⟩ := hreap
      rw [ht'] at hstep
      cases hstep
      exact hfree
  · intro tr u a u' hu hui hmem hstep
    exact (table_of_trace hu).not_zombie hstep hui (hnone _ hmem)

theorem wait_returns {c : C} {p : Slot} {r : BitVec 32} (hpc : ((s.wait c p).procs p).pc = .ret r) :
    (∃ z, s.ZombieOf z p ∧ r = (s.procs z).pid) ∨
    r = -1 ∧ (∀ z, ¬ s.ZombieOf z p) ∧
      ((∀ z, (s.procs z).parent ≠ some p) ∨ (s.procs p).killed = true) := by
  unfold State.wait at hpc
  simp only at hpc
  split at hpc
  · rename_i z hfind
    have hz := List.find?_some hfind
    simp only [Bool.and_eq_true, decide_eq_true_eq] at hz
    have hret : ((s.reap z).setPc p (.ret (s.procs z).pid)).release.procs p =
        { (s.reap z).procs p with pc := .ret (s.procs z).pid } := State.setProc_self
    rw [hret] at hpc
    cases hpc
    exact Or.inl ⟨z, ⟨hz.2, hz.1⟩, rfl⟩
  · rename_i hfind
    rw [List.find?_eq_none] at hfind
    have hnone : ∀ z, ¬ s.ZombieOf z p := by
      rintro z ⟨hz, hparent⟩
      exact hfind z (mem_finRange z) (by simp [hz, hparent])
    split_ifs at hpc with hkids
    · have hret : ((s.setPc p (.ret (-1))).release).procs p =
          { s.procs p with pc := .ret (-1) } := State.setProc_self
      rw [hret] at hpc
      cases hpc
      refine Or.inr ⟨rfl, hnone, ?_⟩
      simpa using hkids
    · have hsleep : (s.sleep c p (.proc p) .waiting).procs p =
          { s.procs p with state := .sleeping, chan := some (.proc p), pc := .waiting } :=
        State.setProc_self
      rw [hsleep] at hpc
      cases hpc

theorem step_scan {c : C} {ok : Bool} {p : Slot} (hcpu : (s.cpus c).proc = some p)
    (hpc : (s.procs p).pc = .waitScan) (hstep : step s (.step c ok) = .ok () s') :
    s' = s.wait c p := by
  simp only [step, hcpu, proceed, hpc] at hstep
  split_ifs at hstep
  cases hstep
  rfl

/-- Nobody sleeps in `wait` with a zombie child; a zombie leaves the table in a `wait` of
its parent that returns its pid, and a slot is freed once for each exit; `wait` fails only
without children, or if the caller has been killed and has no zombie child. -/
theorem exit_wait_meet (htr : Trace step (init : State C) tr s) :
    (∀ p z, (s.procs p).state = .sleeping → (s.procs p).chan = some (.proc p) →
      (s.procs z).state = .zombie → (s.procs z).parent ≠ some p) ∧
    (∀ a s' z, step s a = .ok () s' → (s.procs z).state = .zombie →
      (s'.procs z).state ≠ .zombie →
      (s'.procs z).state = .unused ∧ ∃ c ok p, a = .step c ok ∧ (s.cpus c).proc = some p ∧
        (s.procs p).pc = .waitScan ∧ (s.procs z).parent = some p ∧
        (s'.procs p).pc = .ret (s.procs z).pid) ∧
    (∀ xs t b ys z, tr = xs ++ (t, b) :: ys → Reaps t b z → (s.procs z).state = .zombie →
      ∃ x ∈ xs, Exits x.1 x.2 z) ∧
    (∀ c ok p s' r, (s.cpus c).proc = some p → (s.procs p).pc = .waitScan →
      step s (.step c ok) = .ok () s' → (s'.procs p).pc = .ret r →
      ((∃ z, s.ZombieOf z p ∧ r = (s.procs z).pid) ∨
        r = -1 ∧ (∀ z, ¬ s.ZombieOf z p) ∧
          ((∀ z, (s.procs z).parent ≠ some p) ∨ (s.procs p).killed = true)) ∧
      (forks tr + 1 < 2 ^ 31 → r = -1 → (∀ z, (s.procs z).parent ≠ some p) ∨
        (s.procs p).killed = true ∧ ∀ z, ¬ s.ZombieOf z p)) := by
  have h := table_of_trace htr
  refine ⟨?_, fun a s' z => h.reaped, ?_, ?_⟩
  · intro p z hp hchan hz hparent
    exact h.asleep p z ⟨hp, hchan⟩ ⟨hz, hparent⟩
  · rintro xs t b ys z rfl hreap hz
    exact exits_of_reaped htr hreap hz
  · intro c ok p s' r hcpu hpc hstep hret
    rw [step_scan hcpu hpc hstep] at hret
    have hcases := wait_returns hret
    refine ⟨hcases, ?_⟩
    rintro hcalls rfl
    rcases hcases with ⟨z, hz, hpid⟩ | ⟨-, hnone, hkids | hkilled⟩
    · -- a pid is smaller than `nextpid`, which stays below 2³¹ + 1
      obtain ⟨hpids, hle⟩ := pids_of_trace htr hcalls
      have hlt := hpids.range z (by simp [State.used, hz.1])
      have heq : (s.pids z).toNat = 2 ^ 32 - 1 := by
        rw [State.pids, ← hpid]
        rfl
      omega
    · exact Or.inl hkids
    · exact Or.inr ⟨hkilled, hnone⟩

/-- The child of init runs and exits while init sleeps in `wait`. -/
def childExits (c : Fin 2) : List (Action (Fin 2)) :=
  initForks c ++ [.step c true, .call c .wait, .step c true, .sched c, .step c true,
    .call c .exit]

theorem exit_wait_meet_child : ∃ tr s, Trace step (init : State (Fin 2)) tr s ∧
    (s.procs 1).state = .zombie ∧ (s.procs 0).state ≠ .sleeping := by
  obtain ⟨tr, s, htr, -, hend⟩ := Trace.of_actions step (init : State (Fin 2)) (childExits 0)
    (fun s => (s.procs 1).state == .zombie && (s.procs 1).parent == some 0 &&
      (s.procs 0).chan == some (.proc 0)) (by decide +kernel)
  simp only [Bool.and_eq_true, beq_iff_eq] at hend
  refine ⟨tr, s, htr, hend.1.1, ?_⟩
  intro hsleep
  exact (exit_wait_meet htr).1 0 1 hsleep hend.2 hend.1.1 hend.1.2

end Xv6.Ptable
