import Xv6.Log.Invariant

/-!
# Operations are never split across transactions

What the header list, the commits and the operations of a run have to do with
each other.  The facts are about the history of a run: which blocks were recorded
since the header was last cleared, and what the current commit has installed.
-/

namespace Xv6.Log.Control

open Lib Function List

variable {P : Type} {xs : List (Sys P × Action P)} {x : Sys P × Action P}
  {tr : List (Sys P × Action P)} {s s' : Sys P} {a : Action P} {mid pre : List (Sys P × Action P)}

def logs : Sys P × Action P → Option (P × Nat)
  | (s, .logAppend p) =>
    match s.procs p with
    | .logging _ b => some (p, b)
    | _ => none
  | _ => none

def installs : Sys P × Action P → Option (P × Nat)
  | (s, .commitStep c) =>
    match s.procs c with
    | .commit (.install tail) => s.log.lh[tail]?.map fun b => (c, b)
    | _ => none
  | _ => none

/-- The process that takes a step of `commit`. -/
def commits : Sys P × Action P → Option P
  | (_, .commitStep c) => some c
  | _ => none

/-- `log.lh.n = 0`. -/
def clears : Sys P × Action P → Bool
  | (s, .commitStep c) => s.procs c = .commit .clear
  | _ => false

/-- The end of a commit, where `log.committing` is reset. -/
def finishes : Sys P × Action P → Bool
  | (_, .commitDone _) => true
  | _ => false

def sinceClear (tr : List (Sys P × Action P)) : List (Sys P × Action P) :=
  tr.takeWhile fun x => !clears x

def sinceCommit (tr : List (Sys P × Action P)) : List (Sys P × Action P) :=
  tr.takeWhile fun x => !finishes x

def LoggedIn (xs : List (Sys P × Action P)) (b : Nat) : Prop :=
  ∃ x ∈ xs, ∃ p, logs x = some (p, b)

def InstalledIn (xs : List (Sys P × Action P)) (c : P) (b : Nat) : Prop :=
  ∃ x ∈ xs, installs x = some (c, b)

@[simp] theorem loggedIn_nil (b : Nat) : ¬ LoggedIn ([] : List (Sys P × Action P)) b := by
  simp [LoggedIn]

@[simp] theorem loggedIn_cons {b : Nat} :
    LoggedIn (x :: xs) b ↔ (∃ p, logs x = some (p, b)) ∨ LoggedIn xs b := by
  simp [LoggedIn]

variable {c : P}

@[simp] theorem installedIn_cons
    {b : Nat} : InstalledIn (x :: xs) c b ↔ installs x = some (c, b) ∨ InstalledIn xs c b := by
  simp [InstalledIn]

theorem sinceClear_cons (hx : clears x = false)
    (tr : List (Sys P × Action P)) : sinceClear (x :: tr) = x :: sinceClear tr := by
  simp [sinceClear, hx]

theorem sinceCommit_cons (hx : finishes x = false)
    (tr : List (Sys P × Action P)) : sinceCommit (x :: tr) = x :: sinceCommit tr := by
  simp [sinceCommit, hx]

theorem sinceCommit_append (hxs : ∀ x ∈ xs, finishes x = false) (tr : List (Sys P × Action P)) :
    sinceCommit (xs ++ tr) = xs ++ sinceCommit tr := by
  apply takeWhile_append_of_pos
  intro x hx
  simp [hxs x hx]

theorem clears_eq_false (hx : commits x = none) : clears x = false := by
  obtain ⟨s, a⟩ := x
  cases a <;> simp_all [commits, clears]

/-- How far the commit of `c` has come, given the steps `xs` since the last one. -/
def Progress (xs : List (Sys P × Action P)) (c : P) (log : LogState) : CommitPc → Prop
  | .writeLog _ | .writeHead => ∀ b, LoggedIn xs b → b ∈ log.lh
  | .install tail =>
    (∀ b, LoggedIn xs b → b ∈ log.lh) ∧
      ∀ i < tail, ∀ b, log.lh[i]? = some b → InstalledIn xs c b
  | .clear | .eraseHead | .done => ∀ b, LoggedIn xs b → InstalledIn xs c b

structure History (tr : List (Sys P × Action P)) (s : Sys P) : Prop where
  listed : ∀ b, b ∈ s.log.lh ↔ LoggedIn (sinceClear tr) b
  quiet : s.log.committing = false →
    (∀ x ∈ sinceCommit tr, commits x = none) ∧
      ∀ b, LoggedIn (sinceCommit tr) b → b ∈ s.log.lh
  commit : ∀ c pc, s.procs c = .commit pc →
    (∀ x ∈ sinceCommit tr, ∀ d, commits x = some d → d = c) ∧
      Progress (sinceCommit tr) c s.log pc

theorem Progress.cons {log log' : LogState} {pc : CommitPc} (hx : logs x = none)
    (hlh : log'.lh = log.lh) (h : Progress xs c log pc) : Progress (x :: xs) c log' pc := by
  cases pc <;> simp only [Progress, loggedIn_cons, hx, hlh, installedIn_cons, reduceCtorEq,
    exists_false, false_or] at h ⊢
  case install tail => exact ⟨h.1, fun i hi b hb => Or.inr (h.2 i hi b hb)⟩
  case clear | eraseHead | done => exact fun b hb => Or.inr (h b hb)
  all_goals exact h

theorem Progress.commitStep {s : Sys P} {log' : LogState} {pc pc' : CommitPc}
    (hp : s.procs c = .commit pc) (hlog : Control.commitStep s.log pc = some (pc', log'))
    (h : Progress xs c s.log pc) : Progress ((s, .commitStep c) :: xs) c log' pc' := by
  have hsame : ∀ log : LogState, log.lh = s.log.lh →
      Progress ((s, .commitStep c) :: xs) c log pc := fun log hlh => h.cons rfl hlh
  cases pc with
  | writeLog tail =>
    cases hlog
    split_ifs
    · exact hsame _ rfl
    · exact hsame _ rfl
  | writeHead =>
    cases hlog
    exact ⟨hsame _ rfl, fun i hi => absurd hi (Nat.not_lt_zero i)⟩
  | install tail =>
    cases hlog
    obtain ⟨hlisted, hdone⟩ := hsame s.log rfl
    have hnext : ∀ i < tail + 1, ∀ b, s.log.lh[i]? = some b →
        InstalledIn ((s, .commitStep c) :: xs) c b := by
      intro i hi b hb
      rcases Nat.lt_succ_iff_lt_or_eq.mp hi with hi | rfl
      · exact hdone i hi b hb
      · rw [installedIn_cons]
        exact Or.inl (by simp [installs, hp, hb])
    split_ifs with hmore
    · exact ⟨hlisted, hnext⟩
    · intro b hb
      obtain ⟨i, hi⟩ := mem_iff_getElem?.mp (hlisted b hb)
      have hlt : i < s.log.lh.length := (List.getElem?_eq_some_iff.mp hi).1
      exact hnext i (by omega) b hi
  | clear =>
    cases hlog
    exact h.cons rfl rfl
  | eraseHead =>
    cases hlog
    exact hsame _ rfl
  | done => cases hlog

theorem history_same (h : History tr s) (hlogs : logs (s, a) = none)
    (hcommits : commits (s, a) = none) (hfinishes : finishes (s, a) = false)
    (hlh : s'.log.lh = s.log.lh) (hcommitting : s'.log.committing = s.log.committing)
    (hprocs : ∀ c pc, s'.procs c = .commit pc → s.procs c = .commit pc) :
    History ((s, a) :: tr) s' where
  listed := by
    intro b
    rw [sinceClear_cons (clears_eq_false hcommits), loggedIn_cons, hlh, hlogs]
    simpa using h.listed b
  quiet := by
    intro hc
    rw [hcommitting] at hc
    obtain ⟨hnone, hlisted⟩ := h.quiet hc
    rw [sinceCommit_cons hfinishes]
    refine ⟨?_, ?_⟩
    · intro x hx
      rcases mem_cons.mp hx with rfl | hx
      · exact hcommits
      · exact hnone x hx
    · intro b hb
      rw [loggedIn_cons, hlogs] at hb
      rw [hlh]
      exact hlisted b (by simpa using hb)
  commit := by
    intro c pc hc
    obtain ⟨hself, hprogress⟩ := h.commit c pc (hprocs c pc hc)
    rw [sinceCommit_cons hfinishes]
    refine ⟨?_, hprogress.cons hlogs hlh⟩
    intro x hx d hd
    rcases mem_cons.mp hx with rfl | hx
    · rw [hcommits] at hd
      cases hd
    · exact hself x hx d hd

variable [DecidableEq P] [Fintype P]

theorem history_step
    (hinv : Inv s) (h : History tr s) (hstep : Step s a s') : History ((s, a) :: tr) s' := by
  cases hstep with
  | sleep hp hlog | kill hp | logTest b hp htest =>
    exact history_same h rfl rfl rfl rfl rfl fun c pc => commit_of_update (by simp)
  | enter hp hlog =>
    obtain ⟨hcommit, hroom, rfl⟩ := LogState.beginOp_eq_some hlog
    exact history_same h rfl rfl rfl rfl rfl fun c pc => commit_of_update (by simp)
  | endOther hp hlog =>
    obtain ⟨hcommit, hmore, rfl⟩ := LogState.endOp_eq_other hlog
    refine history_same h rfl rfl rfl rfl rfl ?_
    intro c pc hc
    rw [wakeup_procs, Status.wake_eq_commit] at hc
    exact commit_of_update (by simp) hc
  | @logAppend p w b hp =>
    have hcommit := hinv.not_committing_of_inOp (p := p) (by simp [hp, Status.InOp])
    have hlogs : logs (s, .logAppend p) = some (p, b) := by simp [logs, hp]
    have hnew : ∀ (xs : List (Sys P × Action P)) (b' : Nat),
        LoggedIn ((s, .logAppend p) :: xs) b' ↔ b = b' ∨ LoggedIn xs b' := by
      intro xs b'
      rw [loggedIn_cons, hlogs]
      simp
    refine ⟨?_, ?_, ?_⟩
    · intro b'
      rw [sinceClear_cons rfl, hnew, setProc_log, LogState.mem_append_lh, h.listed b']
      tauto
    · intro _
      obtain ⟨hnone, hlisted⟩ := h.quiet hcommit
      rw [sinceCommit_cons rfl]
      refine ⟨?_, ?_⟩
      · intro x hx
        rcases mem_cons.mp hx with rfl | hx
        · rfl
        · exact hnone x hx
      · intro b' hb'
        rw [setProc_log, LogState.mem_append_lh]
        rcases (hnew _ _).mp hb' with rfl | hb'
        · exact Or.inr rfl
        · exact Or.inl (hlisted b' hb')
    · intro c pc hc
      exact absurd (commit_of_update (by simp) hc) (hinv.no_commit hcommit c pc)
  | @endLast p w log hp hlog =>
    obtain ⟨hcommit, hlast, rfl⟩ := LogState.endOp_eq_last hlog
    obtain ⟨hnone, hlisted⟩ := h.quiet hcommit
    refine ⟨?_, ?_, ?_⟩
    · intro b
      rw [sinceClear_cons rfl, loggedIn_cons]
      simpa [logs] using h.listed b
    · intro hc
      exact absurd hc (by simp)
    · intro c pc hc
      rw [sinceCommit_cons rfl]
      by_cases hcp : c = p
      · subst hcp
        rw [setProc_procs, update_self] at hc
        cases hc
        refine ⟨?_, ?_⟩
        · intro x hx d hd
          rcases mem_cons.mp hx with rfl | hx
          · cases hd
          · rw [hnone x hx] at hd
            cases hd
        · -- an empty header means nothing was logged, and there is nothing to do
          have hstart : Progress (sinceCommit tr) c
              { s.log with outstanding := 0, committing := true }
              (commitStart { s.log with outstanding := 0, committing := true }) := by
            unfold commitStart
            split_ifs with hpos
            · exact hlisted
            · intro b hb
              have hmem := hlisted b hb
              rw [length_pos_iff, not_not] at hpos
              rw [hpos] at hmem
              cases hmem
          exact hstart.cons rfl rfl
      · rw [setProc_procs, update_of_ne hcp] at hc
        exact absurd hc (hinv.no_commit hcommit c pc)
  | @commitStep p pc pc' log hp hlog =>
    have hcommitting := hinv.committing p pc hp
    refine ⟨?_, ?_, ?_⟩
    · intro b
      rcases commitStep_spec hlog with ⟨rfl, hpc⟩ | ⟨rfl, rfl⟩
      · rw [sinceClear_cons (by simp [clears, hp, hpc]), loggedIn_cons]
        simpa [logs] using h.listed b
      · simp [sinceClear, clears, hp]
    · intro hc
      have hsame : log.committing = s.log.committing := by
        rcases commitStep_spec hlog with ⟨rfl, -⟩ | ⟨rfl, -⟩ <;> rfl
      rw [setProc_log, hsame, hcommitting] at hc
      cases hc
    · intro c pc'' hc
      obtain ⟨rfl, rfl⟩ : c = p ∧ pc'' = pc' := by
        by_cases hcp : c = p
        · subst hcp
          rw [setProc_procs, update_self] at hc
          cases hc
          exact ⟨rfl, rfl⟩
        · rw [setProc_procs, update_of_ne hcp] at hc
          exact absurd (hinv.alone c p _ _ hc hp) hcp
      obtain ⟨hself, hprogress⟩ := h.commit c pc hp
      rw [sinceCommit_cons rfl]
      refine ⟨?_, hprogress.commitStep hp hlog⟩
      intro x hx d hd
      rcases mem_cons.mp hx with rfl | hx
      · cases hd
        rfl
      · exact hself x hx d hd
  | @commitDone p hp =>
    refine ⟨?_, ?_, ?_⟩
    · intro b
      rw [sinceClear_cons rfl, loggedIn_cons]
      simpa [logs] using h.listed b
    · intro _
      simp [sinceCommit, finishes]
    · intro c pc hc
      rw [wakeup_procs, Status.wake_eq_commit, setProc_procs] at hc
      have hold := commit_of_update (by simp) hc
      have hcp := hinv.alone c p _ _ hold hp
      subst hcp
      simp at hc

omit [DecidableEq P] [Fintype P] in
theorem history_init (start : Nat) (size : Int) : History [] (init start size : Sys P) where
  listed := by simp [init, sinceClear]
  quiet := by simp [sinceCommit]
  commit := by simp [init]

variable {start : Nat} {size : Int}

theorem history_trace {s : Sys P} (htr : Trace step (init start size) tr s) : History tr s :=
  htr.invariant (I := History) (history_init start size)
    fun _ _ _ _ htr h hstep => history_step (inv_trace htr) h (step_sound hstep)

omit [Fintype P] in
theorem inOp_step {p : P} (hp : (s.procs p).InOp)
    (hstep : Step s a s') (ha : a ≠ .endOp p) : (s'.procs p).InOp := by
  have hupdate : ∀ {q : P} {st : Status}, (q = p → st.InOp) → (update s.procs q st p).InOp := by
    intro q st hst
    by_cases hq : q = p
    · subst hq
      rw [update_self]
      exact hst rfl
    · rwa [update_of_ne (Ne.symm hq)]
  cases hstep with
  | sleep hq hlog =>
    apply hupdate
    rintro rfl
    rcases hq with hq | hq <;> simp [hq, Status.InOp] at hp
  | kill hq | commitStep hq =>
    apply hupdate
    rintro rfl
    simp [hq, Status.InOp] at hp
  | enter | logTest | logAppend => exact hupdate fun _ => trivial
  | endLast hq hlog => exact hupdate fun hqp => absurd (by rw [hqp]) ha
  | endOther hq hlog =>
    rw [wakeup_procs, Status.inOp_wake]
    exact hupdate fun hqp => absurd (by rw [hqp]) ha
  | commitDone hq =>
    rw [wakeup_procs, Status.inOp_wake]
    apply hupdate
    rintro rfl
    simp [hq, Status.InOp] at hp

omit [Fintype P] in
theorem inOp_of_begin {s0 s1 s : Sys P} {p : P}
    (htr : Trace step s0 (mid ++ (s1, .beginOp p) :: pre) s) (henter : s1.log.beginOp ≠ none)
    (hmid : ∀ x ∈ mid, x.2 ≠ .endOp p) : (s.procs p).InOp := by
  induction mid generalizing s with
  | nil =>
    cases htr with
    | cons htr hstep =>
      cases step_sound hstep with
      | sleep hp hlog => exact absurd hlog henter
      | enter hp hlog => simp [Status.InOp]
  | cons x mid ih =>
    cases htr with
    | cons htr hstep =>
      have hin := ih htr fun y hy => hmid y (mem_cons_of_mem _ hy)
      exact inOp_step hin (step_sound hstep) (hmid _ mem_cons_self)

theorem not_commit_of_inOp {p : P} (hinv : Inv s) (hp : (s.procs p).InOp)
    (hstep : step s a = .ok () s') : commits (s, a) = none ∧ finishes (s, a) = false := by
  have hnone := hinv.no_commit (hinv.not_committing_of_inOp hp)
  cases step_sound hstep with
  | commitStep hq hlog | commitDone hq => exact absurd hq (hnone _ _)
  | _ => exact ⟨rfl, rfl⟩

theorem mid_not_commit {s1 s : Sys P} {p : P}
    (htr : Trace step (init start size) (mid ++ (s1, .beginOp p) :: pre) s)
    (henter : s1.log.beginOp ≠ none) (hmid : ∀ x ∈ mid, x.2 ≠ .endOp p) :
    ∀ x ∈ mid, commits x = none ∧ finishes x = false := by
  rintro ⟨t, a⟩ hx
  obtain ⟨late, early, rfl⟩ := mem_iff_append.mp hx
  rw [append_assoc, cons_append] at htr
  obtain ⟨htr', t', hstep⟩ := htr.cut
  have hin := inOp_of_begin htr' henter fun y hy =>
    hmid y (mem_append_right _ (mem_cons_of_mem _ hy))
  exact not_commit_of_inOp (inv_trace htr') hin hstep

/-- Whenever a process `c` is about to finish a commit, every operation that ended
since the commit before ran without any step of a commit in between, `c` took all
commit steps since that operation's `end_op`, and they installed every block the
operation logged. -/
def OneCommit (tr : List (Sys P × Action P)) (s : Sys P) : Prop :=
  ∀ (c p : P) (s1 s2 : Sys P) (q mid pre : List (Sys P × Action P)),
    tr = q ++ (s2, .endOp p) :: (mid ++ (s1, .beginOp p) :: pre) →
    s1.log.beginOp ≠ none → (∀ x ∈ mid, x.2 ≠ .endOp p) →
    (∀ x ∈ q, finishes x = false) → s.procs c = .commit .done →
    (∀ x ∈ mid, commits x = none ∧ finishes x = false) ∧
      (∀ x ∈ q, ∀ d, commits x = some d → d = c) ∧
        ∀ x ∈ mid, ∀ b, logs x = some (p, b) → InstalledIn q c b

theorem oneCommit {s : Sys P} (htr : Trace step (init start size) tr s) : OneCommit tr s := by
  rintro c p s1 s2 q mid pre rfl henter hmid hq hc
  obtain ⟨htr2, s3, hend⟩ := htr.cut
  have hquiet := mid_not_commit htr2 henter hmid
  obtain ⟨hself, hinstalled⟩ := (history_trace htr).commit c .done hc
  rw [sinceCommit_append hq, sinceCommit_cons rfl] at hself hinstalled
  refine ⟨hquiet, fun x hx => hself x (mem_append_left _ hx), ?_⟩
  intro x hx b hb
  have hlogged : LoggedIn (q ++ (s2, .endOp p) :: sinceCommit (mid ++ (s1, .beginOp p) :: pre))
      b := by
    rw [sinceCommit_append fun y hy => (hquiet y hy).2]
    exact ⟨x, by simp [hx], p, hb⟩
  obtain ⟨y, hy, hinst⟩ := hinstalled b hlogged
  -- No commit was running when the operation ended, so the installing step is in `q`.
  have hin : (s2.procs p).InOp := inOp_of_begin htr2 henter hmid
  have hbefore := ((history_trace htr2).quiet ((inv_trace htr2).not_committing_of_inOp hin)).1
  rcases mem_append.mp hy with hy | hy
  · exact ⟨y, hy, hinst⟩
  · obtain ⟨t, a⟩ := y
    rcases mem_cons.mp hy with hy | hy
    · cases hy
      cases hinst
    · have hnone := hbefore _ hy
      cases a <;> simp_all [installs, commits]

/-- No operation is split across transactions. -/
theorem operations_not_split (start : Nat) (size : Int) (tr : List (Sys P × Action P))
    (s : Sys P) (htr : Trace step (init start size) tr s) :
    (s.log.committing = true → s.log.outstanding = 0 ∧
      ∀ p b, step s (.logTest p b) = .blocked ∧ step s (.logAppend p) = .blocked) ∧
    s.log.lh.Nodup ∧ (∀ b, b ∈ s.log.lh ↔ LoggedIn (sinceClear tr) b) ∧
    (∀ a, step s a ≠ .panic "log.committing") ∧ OneCommit tr s := by
  have hinv := inv_trace htr
  refine ⟨?_, hinv.nodup, (history_trace htr).listed, ?_, oneCommit htr⟩
  · intro hc
    refine ⟨hinv.quiet hc, ?_⟩
    intro p b
    have hout : ¬ (s.procs p).InOp := by
      intro hin
      rw [hinv.not_committing_of_inOp hin] at hc
      cases hc
    cases hst : s.procs p <;> simp_all [step, Status.InOp]
  · intro a hpanic
    rcases step_panic hpanic with ⟨p, b, w, rfl, -, htest⟩ | ⟨p, w, rfl, hp, hend⟩
    · unfold LogState.writeTest at htest
      split_ifs at htest
      · exact absurd (Option.some.inj htest) (by decide)
      · exact absurd (Option.some.inj htest) (by decide)
    · have hcommit := hinv.not_committing_of_inOp (p := p) (by simp [hp, Status.InOp])
      rw [(LogState.endOp_eq_error hend).1] at hcommit
      cases hcommit

/-- Two overlapping operations, up to the end of their common commit. -/
theorem operations_not_split_two :
    ∃ (tr : List (Sys (Fin 2) × Action (Fin 2))) (s : Sys (Fin 2)),
      Trace step (init 2 30) tr s ∧ s.procs 1 = .commit .done ∧ s.log.outstanding = 0 ∧
        OneCommit tr s := by
  obtain ⟨tr, s, htr, -, hgood⟩ := Trace.of_play step (fun _ _ => true)
    (init 2 30 : Sys (Fin 2))
    ([.beginOp 0, .beginOp 1, .logTest 0 100, .logTest 1 200, .logAppend 1, .logAppend 0,
      .endOp 0, .endOp 1] ++ List.replicate 7 (.commitStep 1))
    (fun s => decide (s.procs 1 = .commit .done) && s.log.committing) (by decide +kernel)
  simp only [Bool.and_eq_true, decide_eq_true_eq] at hgood
  have hall := operations_not_split 2 30 tr s htr
  exact ⟨tr, s, htr, hgood.1, (hall.1 hgood.2).1, hall.2.2.2.2⟩

end Xv6.Log.Control
