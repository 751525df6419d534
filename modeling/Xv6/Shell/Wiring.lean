import Mathlib.Tactic.IntervalCases
import Xv6.Shell.Run

/-!
# The wiring of a command tree

Every process of a running tree has the descriptors its place in the tree asks for, except
while it makes a pipe or sets itself up as a child of one.
-/

namespace Xv6.Shell

open Lib Function List

variable {W : Type} {ctx : List (Frame W)} {i o : File W} {t : Table W} {s s' : System W}
  {root : Cmd W} {pid : Nat} {pr : Proc W}

variable {fd : Nat}

theorem fdalloc_eq {t : Table W} (hfd : fd < NOFILE) (hfree : t fd = none)
    (hlow : ∀ fd' < fd, t fd' ≠ none) : fdalloc t = some fd := by
  rw [fdalloc, List.find?_range_eq_some]
  refine ⟨by simp [hfree], by simpa using hfd, fun fd' hlt => ?_⟩
  simpa [Option.isSome_iff_ne_none] using hlow fd' hlt

def piped (i o : File W) (id : Nat) : Table W :=
  update (update (standard i o) 3 (some (.readEnd id))) 4 (some (.writeEnd id))

theorem fdalloc_standard (i o : File W) : fdalloc (standard i o) = some 3 := by
  refine fdalloc_eq (by decide) rfl fun fd hlt => ?_
  interval_cases fd <;> simp [standard]

theorem fdalloc_half (i o : File W) (id : Nat) :
    fdalloc (update (standard i o) 3 (some (.readEnd id))) = some 4 := by
  refine fdalloc_eq (by decide) (by simp [standard]) fun fd hlt => ?_
  interval_cases fd <;> simp [standard]

theorem standard_ext (h0 : t 0 = some i) (h1 : t 1 = some o) (h2 : t 2 = some (.inherited 2))
    (h3 : ∀ fd, 3 ≤ fd → t fd = none) : t = standard i o := by
  funext fd
  match fd with
  | 0 => exact h0
  | 1 => exact h1
  | 2 => exact h2
  | fd + 3 => exact h3 (fd + 3) (by omega)

theorem standard_of_le (h : 3 ≤ fd) : standard i o fd = none := by
  match fd, h with
  | fd + 3, _ => rfl

variable {id : Nat}

theorem piped_of_ne (h3 : fd ≠ 3) (h4 : fd ≠ 4) : piped i o id fd = standard i o fd := by
  rw [piped, update_of_ne h4, update_of_ne h3]

theorem dup_eq {f : File W} {fd' : Nat} (hf : t fd = some f) (halloc : fdalloc t = some fd') :
    dup t fd = update t fd' (some f) := by
  rw [dup, hf, halloc]

theorem reopen_input (f : File W) : fdalloc (close (standard i o) 0) = some 0 ∧
    update (close (standard i o) 0) 0 (some f) = standard f o := by
  refine ⟨fdalloc_eq (by decide) (by simp [close]) (by simp),
    standard_ext ?_ ?_ ?_ fun fd hfd => ?_⟩
  · simp
  · simp [close, standard]
  · simp [close, standard]
  · rw [update_of_ne (by omega), close, update_of_ne (by omega), standard_of_le hfd]

theorem reopen_output (f : File W) : fdalloc (close (standard i o) 1) = some 1 ∧
    update (close (standard i o) 1) 1 (some f) = standard i f := by
  refine ⟨fdalloc_eq (by decide) (by simp [close]) fun fd hlt => ?_,
    standard_ext ?_ ?_ ?_ fun fd hfd => ?_⟩
  · interval_cases fd
    simp [close, standard]
  · simp [close, standard]
  · simp
  · simp [close, standard]
  · rw [update_of_ne (by omega), close, update_of_ne (by omega), standard_of_le hfd]

def runAll (ops : List SetUp) (t : Table W) : Table W := ops.foldl SetUp.run t

/-- Closing both ends of the pipe, in a table that differs from the standard one below 3. -/
theorem close_ends {t : Table W} (h0 : t 0 = some i) (h1 : t 1 = some o)
    (h2 : t 2 = some (.inherited 2)) (h5 : ∀ fd, 5 ≤ fd → t fd = none) :
    close (close t 3) 4 = standard i o := by
  refine standard_ext ?_ ?_ ?_ fun fd hfd => ?_
  · simpa [close] using h0
  · simpa [close] using h1
  · simpa [close] using h2
  · by_cases h3 : fd = 3
    · simp [h3, close]
    · by_cases h4 : fd = 4
      · simp [h4, close]
      · simpa [close, h3, h4] using h5 fd (by omega)

theorem piped_of_le (h : 5 ≤ fd) : piped i o id fd = none := by
  rw [piped_of_ne (by omega) (by omega), standard_of_le (by omega)]

theorem runAll_left (id : Nat) : runAll [.close 1, .dup 4, .close 3, .close 4] (piped i o id) =
    standard i (.writeEnd id) := by
  have halloc : fdalloc (close (piped i o id) 1) = some 1 := by
    refine fdalloc_eq (by decide) (by simp [close]) fun fd hlt => ?_
    interval_cases fd
    simp [close, piped, standard]
  have hdup : dup (close (piped i o id) 1) 4 =
      update (close (piped i o id) 1) 1 (some (.writeEnd id)) :=
    dup_eq (by simp [close, piped]) halloc
  simp only [runAll, foldl_cons, foldl_nil, SetUp.run, hdup]
  refine close_ends ?_ ?_ ?_ fun fd hfd => ?_
  · simp [close, piped, standard]
  · simp
  · simp [close, piped, standard]
  · rw [update_of_ne (by omega), close, update_of_ne (by omega), piped_of_le hfd]

theorem runAll_right (id : Nat) : runAll [.close 0, .dup 3, .close 3, .close 4] (piped i o id) =
    standard (.readEnd id) o := by
  have halloc : fdalloc (close (piped i o id) 0) = some 0 :=
    fdalloc_eq (by decide) (by simp [close]) (by simp)
  have hdup : dup (close (piped i o id) 0) 3 =
      update (close (piped i o id) 0) 0 (some (.readEnd id)) :=
    dup_eq (by simp [close, piped]) halloc
  simp only [runAll, foldl_cons, foldl_nil, SetUp.run, hdup]
  refine close_ends ?_ ?_ ?_ fun fd hfd => ?_
  · simp
  · simp [close, piped, standard]
  · simp [close, piped, standard]
  · rw [update_of_ne (by omega), close, update_of_ne (by omega), piped_of_le hfd]

theorem runAll_parent (id : Nat) : runAll [.close 3, .close 4] (piped i o id) = standard i o :=
  close_ends rfl rfl rfl fun _ => piped_of_le

def Wired (root : Cmd W) (pr : Proc W) : Prop :=
  match pr.pc with
  | .run c => fill pr.ctx c = root ∧ pr.fds = wiring pr.ctx
  | .reopen c file mode fd =>
    fill pr.ctx (.redir c file mode fd) = root ∧ pr.fds = close (wiring pr.ctx) fd.fd
  | .listWait left right => fill pr.ctx (.list left right) = root ∧ pr.fds = wiring pr.ctx
  | .forkLeft left right id p0 p1 | .forkRight left right id p0 p1 =>
    fill pr.ctx (.pipe left right) = root ∧ p0 = 3 ∧ p1 = 4 ∧
      pr.fds = piped (stdin pr.ctx) (stdout pr.ctx) id
  | .setUp ops c => fill pr.ctx c = root ∧ runAll ops pr.fds = wiring pr.ctx
  | .closing ops => runAll ops pr.fds = wiring pr.ctx
  | .waits _ => pr.fds = wiring pr.ctx
  | .execd argv => fill pr.ctx (.exec argv) = root ∧ pr.fds = wiring pr.ctx
  | .exited => pr.fds = fun _ => none

def Inv (root : Cmd W) (s : System W) : Prop := ∀ pid pr, s.procs pid = some pr → Wired root pr

theorem Inv.set (h : Inv root s) (hpr : Wired root pr) : Inv root (s.set pid pr) := by
  intro q pr' hq
  by_cases hqp : q = pid
  · rw [hqp] at hq
    simp only [System.set, update_self] at hq
    cases hq
    exact hpr
  · simp only [System.set, update_of_ne hqp] at hq
    exact h q pr' hq

theorem Inv.fork (h : Inv root s) {parentPc childPc : Pc W} {childCtx : List (Frame W)}
    (hparent : Wired root { pr with pc := parentPc })
    (hchild : Wired root ⟨childPc, pr.fds, pid, childCtx⟩) :
    Inv root (s.fork pid pr parentPc childPc childCtx) :=
  (h.set hparent).set hchild

theorem wired_exit (root : Cmd W) (pr : Proc W) : Wired root pr.exit := rfl

theorem Inv.runcmd (h : Inv root s) {c : Cmd W} (hfill : fill pr.ctx c = root)
    (hfds : pr.fds = wiring pr.ctx) (ok : Bool) : Inv root (runcmd s pid pr ok c) := by
  cases c with
  | exec argv =>
    cases argv with
    | nil => exact h.set (wired_exit root pr)
    | cons a argv =>
      cases ok with
      | true =>
        have hexecd : Wired root { pr with pc := .execd (a :: argv) } := ⟨hfill, hfds⟩
        exact h.set hexecd
      | false => exact h.set (wired_exit root pr)
  | redir c file mode fd =>
    refine h.set ⟨hfill, ?_⟩
    simp only [hfds]
  | list left right =>
    cases ok with
    | true => exact h.fork ⟨hfill, hfds⟩ ⟨hfill, hfds⟩
    | false => exact h.set (wired_exit root pr)
  | pipe left right =>
    cases ok with
    | false => exact h.set (wired_exit root pr)
    | true =>
      have hfirst : fdalloc pr.fds = some 3 := by rw [hfds]; exact fdalloc_standard _ _
      have hsecond : fdalloc (update pr.fds 3 (some (.readEnd s.pipes))) = some 4 := by
        rw [hfds]
        exact fdalloc_half _ _ _
      simp only [Shell.runcmd, hfirst, hsecond]
      refine h.set ⟨hfill, rfl, rfl, ?_⟩
      simp only [hfds]
      rfl
  | back c =>
    cases ok with
    | true => exact h.fork hfds ⟨hfill, hfds⟩
    | false => exact h.set (wired_exit root pr)

theorem Inv.run (h : Inv root s) {ok : Bool} (hs : step s (.run pid ok) = .ok () s') :
    Inv root s' := by
  simp only [step] at hs
  split at hs
  · cases hs
  case h_2 pr hpr =>
  have hw := h pid pr hpr
  obtain ⟨pc, fds, parent, ctx⟩ := pr
  cases pc with
  | run c =>
    cases hs
    exact h.runcmd hw.1 hw.2 ok
  | reopen c file mode fd =>
    obtain ⟨hfill, hfds⟩ := hw
    simp only at hs hfill hfds
    cases ok with
    | false =>
      cases hs
      exact h.set (wired_exit root _)
    | true =>
      cases fd with
      | input =>
        obtain ⟨halloc, htable⟩ := reopen_input (i := stdin ctx) (o := stdout ctx)
          (.opened file mode)
        have hfree : fdalloc fds = some 0 := by rw [hfds]; exact halloc
        rw [hfree] at hs
        cases hs
        refine h.set ⟨hfill, ?_⟩
        simp only [hfds]
        exact htable
      | output =>
        obtain ⟨halloc, htable⟩ := reopen_output (i := stdin ctx) (o := stdout ctx)
          (.opened file mode)
        have hfree : fdalloc fds = some 1 := by rw [hfds]; exact halloc
        rw [hfree] at hs
        cases hs
        refine h.set ⟨hfill, ?_⟩
        simp only [hfds]
        exact htable
  | forkLeft left right id p0 p1 =>
    obtain ⟨hfill, rfl, rfl, hfds⟩ := hw
    cases ok with
    | false =>
      cases hs
      exact h.set (wired_exit root _)
    | true =>
      cases hs
      refine h.fork ⟨hfill, rfl, rfl, hfds⟩ ⟨hfill, ?_⟩
      simp only at hfds ⊢
      rw [hfds]
      exact runAll_left id
  | forkRight left right id p0 p1 =>
    obtain ⟨hfill, rfl, rfl, hfds⟩ := hw
    simp only at hfds
    cases ok with
    | false =>
      cases hs
      exact h.set (wired_exit root _)
    | true =>
      cases hs
      have hparent : runAll [.close 3, .close 4] fds = wiring ctx := by
        rw [hfds]
        exact runAll_parent id
      refine h.fork hparent ⟨hfill, ?_⟩
      simp only
      rw [hfds]
      exact runAll_right id
  | setUp ops _ | closing ops =>
    cases ops with
    | nil | cons op ops =>
      cases hs
      exact h.set hw
  | waits n =>
    cases n with
    | zero =>
      cases hs
      exact h.set (wired_exit root _)
    | succ n => cases hs
  | listWait left right => cases hs
  | execd argv =>
    cases hs
    exact h.set (wired_exit root _)
  | exited => cases hs

theorem Inv.forget (h : Inv root s) (child : Nat) :
    Inv root { s with procs := update s.procs child none } := by
  intro q pr hq
  by_cases hqc : q = child
  · simp only [hqc, update_self] at hq
    cases hq
  · simp only [update_of_ne hqc] at hq
    exact h q pr hq

theorem Inv.reap (h : Inv root s) {child : Nat} (hs : step s (.reap pid child) = .ok () s') :
    Inv root s' := by
  simp only [step] at hs
  split at hs
  · case h_1 pr ch hpr hch =>
    have hw := h pid pr hpr
    split at hs
    · case h_1 left right hcpc hpc =>
      split at hs
      · cases hs
        rw [Wired, hpc] at hw
        exact (h.forget child).set hw
      · cases hs
    · case h_2 n hcpc hpc =>
      split at hs
      · cases hs
        rw [Wired, hpc] at hw
        exact (h.forget child).set hw
      · cases hs
    · cases hs
  · cases hs

theorem inv_start (root : Cmd W) : Inv root (start root) := by
  intro q pr hq
  by_cases hq1 : q = 1
  · simp only [start, hq1, update_self] at hq
    cases hq
    exact ⟨rfl, rfl⟩
  · simp only [start, update_of_ne hq1] at hq
    cases hq

theorem inv_of_trace {tr : List (System W × Act)} (htr : Trace step (start root) tr s) :
    Inv root s := by
  refine Trace.invariant (I := fun _ s => Inv root s) (inv_start root) ?_ htr
  intro tr s a s' _ h hs
  cases a with
  | run pid ok => exact h.run hs
  | reap pid child => exact h.reap hs

/-- The process is neither making a pipe nor setting itself up as a child of one. -/
def Proc.Started (pr : Proc W) : Prop :=
  match pr.pc with
  | .forkLeft _ _ _ _ _ | .forkRight _ _ _ _ _ | .setUp _ _ | .closing _ => False
  | _ => True

theorem stdin_ne_writeEnd (ctx : List (Frame W)) (id : Nat) : stdin ctx ≠ .writeEnd id := by
  induction ctx with
  | nil => simp [stdin]
  | cons fr ctx ih =>
    cases fr with
    | redir file mode fd => cases fd <;> simp [stdin, ih]
    | _ => simp [stdin, ih]

theorem pipeLeft_of_stdout (h : stdout ctx = .writeEnd id) : ∃ right, .pipeLeft id right ∈ ctx := by
  induction ctx with
  | nil => cases h
  | cons fr ctx ih =>
    cases fr with
    | redir file mode fd =>
      cases fd with
      | input =>
        obtain ⟨right, hmem⟩ := ih h
        exact ⟨right, mem_cons_of_mem _ hmem⟩
      | output => cases h
    | pipeLeft id' right =>
      cases h
      exact ⟨right, mem_cons_self⟩
    | _ =>
      obtain ⟨right, hmem⟩ := ih h
      exact ⟨right, mem_cons_of_mem _ hmem⟩

theorem Wired.started (h : Wired root pr) (hpr : pr.Started) {f : File W}
    (hfd : pr.fds fd = some f) : wiring pr.ctx fd = some f := by
  obtain ⟨pc, fds, parent, ctx⟩ := pr
  cases pc with
  | run c | listWait left right | execd argv => exact (congrFun h.2 fd).symm.trans hfd
  | waits n => exact (congrFun h fd).symm.trans hfd
  | exited => exact absurd ((congrFun h fd).symm.trans hfd) (by simp)
  | reopen c file mode std =>
    have hclosed := (congrFun h.2 fd).symm.trans hfd
    by_cases hstd : fd = std.fd
    · rw [hstd, close, update_self] at hclosed
      cases hclosed
    · rwa [close, update_of_ne hstd] at hclosed
  | forkLeft left right id p0 p1 | forkRight left right id p0 p1 | setUp ops c | closing ops =>
    exact hpr.elim

theorem writeEnd_of_wiring (h : wiring ctx fd = some (.writeEnd id)) :
    ∃ right, .pipeLeft id right ∈ ctx := by
  match fd with
  | 0 => exact absurd (Option.some.inj h) (stdin_ne_writeEnd ctx id)
  | 1 => exact pipeLeft_of_stdout (Option.some.inj h)
  | 2 => cases h
  | fd + 3 => cases h

/-- Whoever executes a leaf of the tree has exactly the descriptors its place asks for; a
started process holds the write end of a pipe only on the left of that pipe; and when these
processes have exited nobody holds it. -/
theorem leaves_wired {tr : List (System W × Act)} (htr : Trace step (start root) tr s) :
    (∀ pid pr argv, s.procs pid = some pr → (pr.pc = .run (.exec argv) ∨ pr.pc = .execd argv) →
      fill pr.ctx (.exec argv) = root ∧ pr.fds 0 = some (stdin pr.ctx) ∧
      pr.fds 1 = some (stdout pr.ctx) ∧ pr.fds 2 = some (.inherited 2) ∧
      ∀ fd, 3 ≤ fd → pr.fds fd = none) ∧
    (∀ pid pr fd id, s.procs pid = some pr → pr.Started → pr.fds fd = some (.writeEnd id) →
      ∃ right, .pipeLeft id right ∈ pr.ctx) ∧
    (∀ id, (∀ pid pr, s.procs pid = some pr → pr.Started) →
      (∀ pid pr right, s.procs pid = some pr → .pipeLeft id right ∈ pr.ctx → pr.pc = .exited) →
      ∀ pid pr fd, s.procs pid = some pr → pr.fds fd ≠ some (.writeEnd id)) := by
  have h := inv_of_trace htr
  have hholder : ∀ pid pr fd id, s.procs pid = some pr → pr.Started →
      pr.fds fd = some (.writeEnd id) → ∃ right, .pipeLeft id right ∈ pr.ctx := by
    intro pid pr fd id hpr hstarted hfd
    exact writeEnd_of_wiring ((h pid pr hpr).started hstarted hfd)
  refine ⟨fun pid pr argv hpr hpc => ?_, hholder, fun id hall hexited pid pr fd hpr hfd => ?_⟩
  · have hw := h pid pr hpr
    have hplace : fill pr.ctx (.exec argv) = root ∧ pr.fds = wiring pr.ctx := by
      rcases hpc with hpc | hpc
      · rw [Wired, hpc] at hw
        exact hw
      · rw [Wired, hpc] at hw
        exact hw
    obtain ⟨hfill, hfds⟩ := hplace
    rw [hfds]
    exact ⟨hfill, rfl, rfl, rfl, fun fd => standard_of_le⟩
  · have hstarted := hall pid pr hpr
    obtain ⟨right, hmem⟩ := hholder pid pr fd id hpr hstarted hfd
    have hpc := hexited pid pr right hpr hmem
    have hw := h pid pr hpr
    rw [Wired, hpc] at hw
    rw [hw] at hfd
    cases hfd

/-- `1 | 2 > 3`: the right command is about to be executed. -/
def pipeline : List Act :=
  List.replicate 3 (.run 1 true) ++ List.replicate 5 (.run 2 true) ++ List.replicate 7 (.run 3 true)

theorem pipeline_wired : ∃ tr s pr, Trace step
    (start (.pipe (.exec [1]) (.redir (.exec [2]) 3 513 .output))) tr s ∧
    s.procs 3 = some pr ∧ pr.fds 0 = some (.readEnd 0) ∧ pr.fds 1 = some (.opened 3 513) := by
  obtain ⟨tr, s, htr, -, hgood⟩ := Trace.of_actions step
    (start (.pipe (.exec [1]) (.redir (.exec [2]) 3 513 .output))) pipeline
    (fun s => (s.procs 3).any fun pr : Proc Nat => decide (pr.pc = .run (.exec [2]) ∧
      stdin pr.ctx = .readEnd 0 ∧ stdout pr.ctx = .opened 3 513)) (by decide)
  obtain ⟨pr, hpr, hgood⟩ := (Option.any_eq_true ..).mp hgood
  obtain ⟨hpc, hin, hout⟩ := of_decide_eq_true hgood
  obtain ⟨-, h0, h1, -⟩ := (leaves_wired htr).1 3 pr [2] hpr (.inl hpc)
  exact ⟨tr, s, pr, htr, hpr, hin ▸ h0, hout ▸ h1⟩

end Xv6.Shell
