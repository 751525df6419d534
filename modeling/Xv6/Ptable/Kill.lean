import Xv6.Ptable.Safety

/-!
# `kill` and the recycling of slots

`kill` looks at every slot, also at the unused ones: their pid is 0, or what a failed
`fork` left there.  It marks the first one it finds, and no later `allocproc` clears the
mark.  Where that does not happen, a process is killed only by its pid.
-/

namespace Xv6.Ptable

open Lib List

section Runs

variable {C : Type} {s s' : State C} {a : Action C} {i p : Slot}
  {tr : List (State C × Action C)}

/-- No `kill` is given the pid of an unused slot, and `fork` does not fail for a slot that
has been killed. -/
def KillsInUse (s : State C) : Action C → Prop
  | .call _ (.kill pid) => ∀ i, (s.procs i).pid = pid → (s.procs i).state ≠ .unused
  | .step c false => ∀ p np, (s.cpus c).proc = some p →
      (s.procs p).pc = .forkStack np ∨ (s.procs p).pc = .forkCopy np →
      (s.procs np).killed = false
  | _ => True

/-- A `kill` named the process in the slot `i`, which has been in the slot since then. -/
def NamedByKill (tr : List (State C × Action C)) (s : State C) (i : Slot) : Prop :=
  ∃ xs u c ys, tr = xs ++ (u, .call c (.kill (s.procs i).pid)) :: ys ∧
    ∀ x ∈ xs ++ [(u, .call c (.kill (s.procs i).pid))],
      (x.1.procs i).state ≠ .unused ∧ (x.1.procs i).pid = (s.procs i).pid

theorem NamedByKill.next (h : NamedByKill tr s i) (hused : (s.procs i).state ≠ .unused)
    (hpid : (s'.procs i).pid = (s.procs i).pid) : NamedByKill ((s, a) :: tr) s' i := by
  obtain ⟨xs, u, c, ys, rfl, hxs⟩ := h
  refine ⟨(s, a) :: xs, u, c, ys, ?_, ?_⟩
  · rw [hpid]
    rfl
  · intro x hx
    rw [hpid] at hx ⊢
    rcases mem_cons.mp hx with rfl | hx
    · exact ⟨hused, rfl⟩
    · exact hxs x hx

/-- The marks of the slots: none on unused slots, and the others are from a `kill`. -/
structure Marks (tr : List (State C × Action C)) (s : State C) : Prop where
  clean : ∀ i, (s.procs i).state = .unused → (s.procs i).killed = false
  named : ∀ i, (s.procs i).state ≠ .unused → (s.procs i).killed = true → NamedByKill tr s i

theorem marks_init : Marks [] (init : State C) := by
  refine ⟨?_, ?_⟩ <;> intro i <;> simp only [init] <;> split_ifs <;> simp

theorem Marks.turn (h : Marks tr s) (hmay : KillsInUse s a) (hturn : ∀ i, Turn s s' i a) :
    Marks ((s, a) :: tr) s' := by
  refine ⟨?_, ?_⟩
  · intro i hi
    change (s'.card i).killed = false
    rw [unused_iff] at hi
    have hclean : (s.card i).life = .unused → (s.card i).killed = false :=
      fun hold => h.clean i (unused_iff.mpr hold)
    cases hturn i with
    | keep hnew =>
      rw [hnew] at hi ⊢
      exact hclean hi
    | alloc _ hnew => simp [hnew] at hi
    | unfork hcpu hpc _ hnew =>
      rw [hnew]
      exact hmay _ i hcpu hpc
    | ready _ hnew | exit _ _ hnew => simp [hnew] at hi
    | reap _ _ _ _ hnew => rw [hnew]
    | kill hpid hnew =>
      rw [hnew] at hi
      exact absurd (unused_iff.mpr hi) (hmay i hpid)
  · intro i hi hkilled
    change (s'.card i).killed = true at hkilled
    rw [Ne, unused_iff] at hi
    -- a process that stays, with its pid
    have hnext : (s.card i).life ≠ .unused → (s'.card i).pid = (s.card i).pid →
        (s.card i).killed = true → NamedByKill ((s, a) :: tr) s' i := by
      intro hold hpid hmark
      have hused : (s.procs i).state ≠ .unused := fun hu => hold (unused_iff.mp hu)
      exact (h.named i hused hmark).next hused hpid
    cases hturn i with
    | keep hnew =>
      rw [hnew] at hi hkilled
      exact hnext hi (by rw [hnew]) hkilled
    | alloc hold hnew =>
      rw [hnew] at hkilled
      have hclean : (s.card i).killed = false := h.clean i (unused_iff.mpr hold)
      simp [hclean] at hkilled
    | unfork _ _ _ hnew => simp [hnew] at hi
    | ready hold hnew | exit _ hold hnew =>
      rw [hnew] at hkilled
      exact hnext (by simp [hold]) (by rw [hnew]) hkilled
    | reap _ _ _ _ hnew => simp [hnew] at hi
    | @kill c pid hpid hnew =>
      have hsame : (s'.procs i).pid = pid := by
        have hcard : (s'.card i).pid = (s.card i).pid := by rw [hnew]
        rw [← hpid]
        exact hcard
      refine ⟨[], s, c, tr, by rw [hsame]; rfl, ?_⟩
      rw [hsame]
      intro x hx
      rcases mem_singleton.mp hx with rfl
      exact ⟨hmay i hpid, hpid⟩

theorem marks_of_trace [DecidableEq C] (htr : Trace step (init : State C) tr s)
    (hmay : ∀ x ∈ tr, KillsInUse x.1 x.2) : Marks tr s := by
  induction htr with
  | nil => exact marks_init
  | cons htr hstep ih =>
    have hold := ih fun x hx => hmay x (mem_cons_of_mem _ hx)
    exact hold.turn (hmay _ mem_cons_self) fun i =>
      turn_of_moves (table_of_trace htr) (moves_of_step hstep)

theorem kill_spec (pid : BitVec 32) (hp : s' = s.kill p pid) :
    (∃ i, (s.procs i).pid = pid ∧ (s'.procs p).pc = .ret 0 ∧ (s'.procs i).killed = true ∧
      ∀ j, j ≠ i → s'.procs j = if j = p then { s.procs p with pc := .ret 0 } else s.procs j) ∨
    (∀ i, (s.procs i).pid ≠ pid) ∧ (s'.procs p).pc = .ret (-1) := by
  unfold State.kill at hp
  split at hp
  · rename_i hfind
    rw [List.find?_eq_none] at hfind
    right
    refine ⟨fun i hi => hfind i (mem_finRange i) (by simp [hi]), ?_⟩
    rw [hp]
    exact congrArg Proc.pc State.setProc_self
  · rename_i i hfind
    left
    refine ⟨i, by simpa using List.find?_some hfind, ?_, ?_, ?_⟩
    · rw [hp]
      exact congrArg Proc.pc State.setProc_self
    · rw [hp]
      simp only [State.setPc]
      by_cases hip : i = p
      · subst hip
        simp only [State.setProc_self]
      · simp only [State.setProc_of_ne hip, State.setProc_self]
    · intro j hj
      rw [hp]
      simp only [State.setPc]
      by_cases hjp : j = p
      · subst hjp
        rw [if_pos rfl, State.setProc_self, State.setProc_of_ne hj]
      · rw [if_neg hjp, State.setProc_of_ne hjp, State.setProc_of_ne hj]

theorem step_kill [DecidableEq C] {c : C} {pid : BitVec 32} (hcpu : (s.cpus c).proc = some p)
    (hstep : step s (.call c (.kill pid)) = .ok () s') : s' = s.kill p pid := by
  cases moves_of_step hstep with
  | kill hcpu' =>
    rw [hcpu] at hcpu'
    cases hcpu'
    rfl

/-- In every run without a `kill` of an unused slot and without a `fork` that fails after
its child has been killed. -/
theorem kill_reaches_live_only [DecidableEq C] (htr : Trace step (init : State C) tr s)
    (hmay : ∀ x ∈ tr, KillsInUse x.1 x.2) :
    (∀ c p pid s', (s.cpus c).proc = some p → KillsInUse s (.call c (.kill pid)) →
      step s (.call c (.kill pid)) = .ok () s' →
      ((s'.procs p).pc = .ret 0 ↔ ∃ i, (s.procs i).state ≠ .unused ∧ (s.procs i).pid = pid) ∧
      ((s'.procs p).pc ≠ .ret 0 → (s'.procs p).pc = .ret (-1)) ∧
      ((s'.procs p).pc = .ret 0 → ∃ i, (s.procs i).state ≠ .unused ∧ (s.procs i).pid = pid ∧
        (s'.procs i).killed = true ∧
        ∀ j, j ≠ i → s'.procs j =
          if j = p then { s.procs p with pc := .ret 0 } else s.procs j)) ∧
    (∀ i, (s.procs i).state = .unused → (s.procs i).killed = false) ∧
    (∀ i, (s.procs i).state ≠ .unused → (s.procs i).killed = true → NamedByKill tr s i) := by
  have h := marks_of_trace htr hmay
  refine ⟨?_, h.clean, h.named⟩
  intro c p pid s' hcpu hguard hstep
  rcases kill_spec pid (step_kill hcpu hstep) with ⟨i, hi, hret, hkilled, hrest⟩ | ⟨hnone, hret⟩
  · refine ⟨⟨fun _ => ⟨i, hguard i hi, hi⟩, fun _ => hret⟩, fun hne => absurd hret hne, ?_⟩
    exact fun _ => ⟨i, hguard i hi, hi, hkilled, hrest⟩
  · rw [hret]
    refine ⟨⟨?_, ?_⟩, fun _ => rfl, ?_⟩
    · intro habs
      simp at habs
    · rintro ⟨i, -, hi⟩
      exact absurd hi (hnone i)
    · intro habs
      simp at habs

end Runs

def killsInUse (s : State (Fin 2)) (a : Action (Fin 2)) : Bool :=
  match a with
  | .call _ (.kill pid) =>
    (List.finRange NPROC).all fun i => (s.procs i).pid ≠ pid || (s.procs i).state ≠ .unused
  | .step _ ok => ok
  | _ => true

theorem killsInUse_sound {s : State (Fin 2)} {a : Action (Fin 2)} (h : killsInUse s a = true) :
    KillsInUse s a := by
  cases a with
  | call c cl =>
    cases cl with
    | kill pid =>
      intro i hi
      simp only [killsInUse, all_eq_true, Bool.or_eq_true, decide_eq_true_eq] at h
      rcases h i (mem_finRange i) with hne | hne
      · exact absurd hi hne
      · exact hne
    | _ => trivial
  | step c ok =>
    cases ok with
    | true => trivial
    | false => simp [killsInUse] at h
  | _ => trivial

/-- The child of init has the pid 2, and init kills it. -/
theorem kill_reaches_live_only_child : ∃ tr s, Trace step (init : State (Fin 2)) tr s ∧
    (s.procs 1).state ≠ .unused ∧ (s.procs 1).killed = true ∧ NamedByKill tr s 1 := by
  obtain ⟨tr, s, htr, hok, hend⟩ := Trace.of_play step killsInUse (init : State (Fin 2))
    (initForks 0 ++ [.step 0 true, .call 0 (.kill 2)])
    (fun s => (s.procs 1).state == .runnable && (s.procs 1).killed) (by decide +kernel)
  simp only [Bool.and_eq_true, beq_iff_eq] at hend
  have hused : (s.procs 1).state ≠ .unused := by simp [hend.1]
  refine ⟨tr, s, htr, hused, hend.2, ?_⟩
  exact (kill_reaches_live_only htr fun x hx => killsInUse_sound (hok x hx)).2.2 1 hused hend.2

/-- `kill(0)` right after the boot. -/
def killZero (c : Fin 2) : List (Action (Fin 2)) :=
  [.sched c, .sched c, .step c true, .call c (.kill 0)]

def forkAfterKillZero (c : Fin 2) : List (Action (Fin 2)) :=
  killZero c ++ [.step c true, .call c .fork, .step c true, .step c true, .step c true]

/-- A child of init kills the slot that init is setting up for another one, and `kalloc`
fails. -/
def forkFailsAfterKill (c d : Fin 2) : List (Action (Fin 2)) :=
  initForks c ++ [.step c true, .sched d, .sched d, .sched d, .step d true, .call c .fork,
    .call d (.kill 3), .step c false]

/-- `kill(0)` succeeds without a process of that pid and marks an unused slot; the child
that gets the slot starts killed, though no `kill` named it; a failed `fork` can leave a
marked slot as well. -/
theorem kill_marks_unused_slot :
    (∃ tr s, Trace step (init : State (Fin 2)) tr s ∧ (s.procs 0).pc = .ret 0 ∧
      tr.map Prod.snd = (killZero 0).reverse ∧
      (∀ i, (s.procs i).state ≠ .unused → (s.procs i).pid ≠ 0) ∧
      (s.procs 1).state = .unused ∧ (s.procs 1).killed = true) ∧
    (∃ tr s, Trace step (init : State (Fin 2)) tr s ∧
      tr.map Prod.snd = (forkAfterKillZero 0).reverse ∧ (s.procs 0).pc = .ret 2 ∧
      (s.procs 1).state = .runnable ∧ (s.procs 1).pid = 2 ∧ (s.procs 1).killed = true) ∧
    (∃ tr s, Trace step (init : State (Fin 2)) tr s ∧
      tr.map Prod.snd = (forkFailsAfterKill 0 1).reverse ∧
      (s.procs 2).state = .unused ∧ (s.procs 2).killed = true) := by
  refine ⟨?_, ?_, ?_⟩
  · obtain ⟨tr, s, htr, hacts, hend⟩ := Trace.of_actions step (init : State (Fin 2)) (killZero 0)
      (fun s => (s.procs 0).pc == .ret 0 && (s.procs 1).state == .unused && (s.procs 1).killed &&
        (List.finRange NPROC).all fun i => (s.procs i).state = .unused || (s.procs i).pid ≠ 0)
      (by decide +kernel)
    simp only [Bool.and_eq_true, beq_iff_eq, all_eq_true, Bool.or_eq_true,
      decide_eq_true_eq] at hend
    obtain ⟨⟨⟨hret, hunused⟩, hkilled⟩, hall⟩ := hend
    refine ⟨tr, s, htr, hret, hacts, ?_, hunused, hkilled⟩
    intro i hi
    exact (hall i (mem_finRange i)).resolve_left hi
  · obtain ⟨tr, s, htr, hacts, hend⟩ := Trace.of_actions step (init : State (Fin 2))
      (forkAfterKillZero 0)
      (fun s => (s.procs 0).pc == .ret 2 && (s.procs 1).state == .runnable &&
        (s.procs 1).pid == 2 && (s.procs 1).killed) (by decide +kernel)
    simp only [Bool.and_eq_true, beq_iff_eq] at hend
    obtain ⟨⟨⟨hret, hstate⟩, hpid⟩, hkilled⟩ := hend
    exact ⟨tr, s, htr, hacts, hret, hstate, hpid, hkilled⟩
  · obtain ⟨tr, s, htr, hacts, hend⟩ := Trace.of_actions step (init : State (Fin 2))
      (forkFailsAfterKill 0 1) (fun s => (s.procs 2).state == .unused && (s.procs 2).killed)
      (by decide +kernel)
    simp only [Bool.and_eq_true, beq_iff_eq] at hend
    exact ⟨tr, s, htr, hacts, hend.1, hend.2⟩

end Xv6.Ptable
