import Xv6.Files.Steps

/-!
# Lifetimes of files, pipes and cached inodes

Every operation within the protocol keeps the balance, and the program of every call meets the
protocol; so the balance holds in every state of every interleaving.  Between calls nothing is
held, and the counts are those of the descriptors, files and current directories.
-/

namespace Xv6.Files

open Lib Function Finset

variable {n : Nat} {s : State n} {views : Fin n → View n} {p : Fin n}

theorem Inv.same {t : State n} (h : Inv s views) (ht : t = s) :
    Inv t (update views p (views p)) := by
  rwa [ht, update_eq_self]

theorem keeps_slots {o : Op n} {r : (FileSig n).Ret o} {t : State n} (h : Inv s views)
    (hpre : (fileProtocol n).pre o (views p)) (hop : handler p o s = .ok r t)
    (ho : (∃ fd, o = .slot fd) ∨ (∃ f, o = .fdalloc f) ∨ (∃ fd, o = .clear fd) ∨ o = .takeCwd ∨
      ∃ ip, o = .setCwd ip) :
    ∃ v, (fileProtocol n).post o (views p) r v ∧ Inv t (update views p v) := by
  rcases ho with ⟨fd, rfl⟩ | ⟨f, rfl⟩ | ⟨fd, rfl⟩ | rfl | ⟨x, rfl⟩
  · obtain ⟨ha, -⟩ := hpre
    have hknows := h.knows p
    cases hop
    refine ⟨_, rfl, h.stay (hknows.active ha) rfl (fun _ _ => rfl)
      (fun _ _ => rfl) rfl rfl rfl (fun hidle => ?_) (fun i x hx => ?_) hknows.cwd hknows.ops⟩
    · rw [show (views p).active = false from hidle] at ha
      cases ha
    · by_cases hi : i = fd
      · subst hi
        simpa using hx
      · simp only [update_of_ne hi] at hx
        exact hknows.slots i x hx
  · obtain ⟨ha, -⟩ := hpre
    simp only [handler] at hop
    split at hop
    · case _ fd hfind =>
      cases hop
      have hnone : s.ofile p fd = none := by simpa using List.find?_some hfind
      refine ⟨_, ⟨fun g hg => ?_, rfl⟩, ?_⟩
      · have hfull := (h.knows p).slots fd _ hg
        rw [hnone] at hfull
        cases hfull
      · have hstep := h.setSlot ha fd (some f)
        rw [hnone, show slotWeight none - slotWeight (some f) = -tok (.file f) from zero_sub _]
          at hstep
        exact hstep
    · cases hop
      exact ⟨_, rfl, h.same rfl⟩
  · obtain ⟨ha, f, hf⟩ := hpre
    cases hop
    have hstep := h.setSlot ha fd none
    rw [(h.knows p).slots fd _ hf, show slotWeight (some f) - slotWeight none = tok (.file f) from
      sub_zero _] at hstep
    exact ⟨_, ⟨f, hf, rfl⟩, hstep⟩
  · obtain ⟨ha, -⟩ := hpre
    have hknows := h.knows p
    simp only [handler] at hop
    split at hop
    · case _ ip hcwd =>
      cases hop
      refine ⟨_, rfl, h.stay (hknows.active ha) rfl (fun _ _ => rfl)
        (fun _ _ => rfl) rfl rfl rfl (fun hidle => ?_) hknows.slots (fun x hx => ?_) hknows.ops⟩
      · rw [show (views p).active = false from hidle] at ha
        cases ha
      · cases hx
        exact hcwd
    · cases hop
  · obtain ⟨ha, ip, hip⟩ := hpre
    cases hop
    have hstep := h.setCwd ha x
    rw [(h.knows p).cwd _ hip] at hstep
    refine ⟨_, ⟨ip, hip, rfl⟩, ?_⟩
    cases x <;> exact hstep

theorem keeps : (fileProtocol n).Keeps handler (fun _ _ => True) Inv := by
  intro s views p o r t h hpre _ hop
  cases o with
  | enter =>
    have hidle : views p = .idle := hpre
    have hops := (h.knows p).ops
    rw [hidle] at hops
    simp only [handler] at hop
    split_ifs at hop with hrun
    cases hop
    refine ⟨_, rfl, h.stay hrun rfl (fun _ _ => rfl) (fun _ _ => rfl)
      (by rw [hidle]) (by rw [hidle]) (by rw [hidle]) (by simp)
      (by simp [View.idle]) (by simp [View.idle]) hops⟩
  | leave =>
    obtain ⟨ha, hat⟩ := hpre
    have hknows := h.knows p
    have hat : (views p).At false := hat
    have hops := hknows.ops
    rw [hat.inOp] at hops
    cases hop
    exact ⟨_, rfl, h.stay (hknows.active ha) rfl (fun _ _ => rfl)
      (fun _ _ => rfl) hat.held.symm hat.fresh.symm hat.child.symm (fun _ => rfl)
      (by simp [View.idle]) (by simp [View.idle]) hops⟩
  | choose =>
    obtain ⟨ha, -⟩ := hpre
    have hknows := h.knows p
    cases hop
    exact ⟨_, rfl, h.stay (hknows.active ha) rfl (fun _ _ => rfl)
      (fun _ _ => rfl) rfl rfl rfl hknows.idle hknows.slots hknows.cwd hknows.ops⟩
  | notInit | ilock ip | iunlock ip =>
    simp only [handler] at hop
    split_ifs at hop
    simp only [Outcome.ok.injEq] at hop
    exact ⟨_, rfl, h.same hop.2.symm⟩
  | slot fd => exact keeps_slots h hpre hop (.inl ⟨fd, rfl⟩)
  | fdalloc f => exact keeps_slots h hpre hop (.inr (.inl ⟨f, rfl⟩))
  | clear fd => exact keeps_slots h hpre hop (.inr (.inr (.inl ⟨fd, rfl⟩)))
  | takeCwd => exact keeps_slots h hpre hop (.inr (.inr (.inr (.inl rfl))))
  | setCwd x => exact keeps_slots h hpre hop (.inr (.inr (.inr (.inr ⟨x, rfl⟩))))
  | filealloc =>
    obtain ⟨ha, -⟩ := hpre
    simp only [handler] at hop
    split at hop
    · case _ f hfind =>
      cases hop
      have hfree : (s.files f).ref = 0 := by simpa using List.find?_some hfind
      obtain ⟨hnot, hstep⟩ := h.filealloc ha hfree
      exact ⟨_, ⟨hnot, rfl⟩, hstep⟩
    · cases hop
      exact ⟨_, rfl, h.same rfl⟩
  | filedup f =>
    obtain ⟨ha, -⟩ := hpre
    simp only [handler] at hop
    split_ifs at hop with href
    cases hop
    exact ⟨_, rfl, h.filedup ha (by omega)⟩
  | fileclose f =>
    obtain ⟨ha, hown⟩ := hpre
    obtain ⟨hfresh, hstep⟩ := h.fileclose ha hown hop
    exact ⟨_, ⟨hfresh, rfl⟩, hstep⟩
  | setFile f type readable writable =>
    obtain ⟨ha, hfresh, hown⟩ := hpre
    cases hop
    refine ⟨_, rfl, h.setFile ha hfresh fun t => ?_⟩
    cases type with
    | none => simpa [FileType.weight] using h.nonneg p t
    | pipe x => exact nonneg_sub (h.nonneg p) (h.one_le_held hown).1 t
    | inode ip =>
      exact nonneg_sub (h.nonneg p) (le_trans hown ((h.knows p).ownInode_le ip)) t
  | kalloc =>
    obtain ⟨ha, -⟩ := hpre
    have hknows := h.knows p
    simp only [handler] at hop
    split_ifs at hop
    · cases hop
      exact ⟨_, rfl, h.stay (hknows.active ha) rfl (fun _ _ => rfl)
        (fun _ _ => rfl) rfl rfl rfl hknows.idle hknows.slots hknows.cwd hknows.ops⟩
    · cases hop
      exact ⟨_, rfl, h.kalloc ha⟩
  | pipeclose x w =>
    obtain ⟨ha, hheld⟩ := hpre
    cases hop
    exact ⟨_, rfl, h.pipeclose ha hheld⟩
  | kfree x =>
    obtain ⟨ha, hheld⟩ := hpre
    cases hop
    exact ⟨_, rfl, h.kfree ha hheld⟩
  | iget dev inum =>
    obtain ⟨ha, -⟩ := hpre
    exact ⟨_, rfl, h.iget ha hop⟩
  | dev ip =>
    simp only [handler, Outcome.ok.injEq] at hop
    exact ⟨_, rfl, h.same hop.2.symm⟩
  | unref ip =>
    obtain ⟨ha, hown⟩ := hpre
    cases hop
    exact ⟨_, rfl, h.unref ha hown⟩
  | idupCwd =>
    obtain ⟨ha, hheld⟩ := hpre
    simp only [handler] at hop
    split at hop
    · case _ ip hcwd =>
      cases hop
      exact ⟨_, rfl, h.idupCwd ha hcwd (hheld _)⟩
    · cases hop
  | beginOp =>
    obtain ⟨ha, hout⟩ := hpre
    have hout : (views p).inOp = false := hout
    have hknows := h.knows p
    cases hop
    refine ⟨_, rfl, h.stay (hknows.active ha) rfl
      (fun q hq => update_of_ne hq ..) (fun _ _ => rfl) rfl rfl rfl (fun hidle => ?_)
      hknows.slots hknows.cwd ?_⟩
    · rw [show (views p).active = false from hidle] at ha
      cases ha
    · have hops := hknows.ops
      rw [hout] at hops
      simpa using hops
  | endOp =>
    obtain ⟨ha, hin⟩ := hpre
    have hin : (views p).inOp = true := hin
    have hknows := h.knows p
    cases hop
    refine ⟨_, rfl, h.stay (hknows.active ha) rfl (fun _ _ => rfl)
      (fun q hq => update_of_ne hq ..) rfl rfl rfl (fun hidle => ?_)
      hknows.slots hknows.cwd ?_⟩
    · rw [show (views p).active = false from hidle] at ha
      cases ha
    · have hops := hknows.ops
      rw [hin] at hops
      simpa using hops
  | allocproc =>
    obtain ⟨ha, hnone⟩ := hpre
    simp only [handler] at hop
    split at hop
    · case _ q hfind =>
      cases hop
      exact ⟨_, rfl, h.allocproc ha hnone (by simpa using List.find?_some hfind)⟩
    · cases hop
      exact ⟨_, rfl, h.same rfl⟩
  | abandon q =>
    obtain ⟨ha, hc⟩ := hpre
    cases hop
    exact ⟨_, rfl, h.abandon ha hc⟩
  | childSlot q fd f =>
    obtain ⟨ha, hheld, hfresh, slots, cwd, hc, hempty⟩ := hpre
    cases hop
    obtain ⟨-, hslots, hcwd⟩ := (h.knows p).child _ hc
    refine ⟨_, ⟨slots, cwd, hc, rfl⟩, h.toChild ha hc rfl (count_congr rfl rfl rfl rfl) rfl rfl rfl
      rfl rfl (fun r hr => update_of_ne hr ..) (fun _ _ => rfl) rfl rfl ?_
      (h.one_le_held hheld).1 (fun g hg => ?_) (fun i hi => ?_) hcwd⟩
    · rw [share_setSlot, hslots fd hempty]
      exact congrArg (· + tok (.file f)) (sub_zero _)
    · cases hg
      exact hfresh
    · by_cases hifd : i = fd
      · subst hifd
        simp at hi
      · simp only [update_of_ne hifd] at hi
        simpa [State.setSlot, hifd] using hslots i hi
  | childCwd q ip =>
    obtain ⟨ha, hown, slots, hc⟩ := hpre
    cases hop
    obtain ⟨-, hslots, hcwd⟩ := (h.knows p).child _ hc
    refine ⟨_, ⟨slots, hc, rfl⟩, h.toChild ha hc rfl (count_congr rfl rfl rfl rfl) rfl rfl rfl rfl
      rfl (fun _ _ => rfl) (fun r hr => update_of_ne hr ..) rfl rfl ?_
      (le_trans hown ((h.knows p).ownInode_le ip)) (by simp) hslots (by simp)⟩
    rw [share_setCwd, hcwd rfl]
    exact congrArg (· + tok (.inode ip)) (sub_zero _)
  | runnable q =>
    obtain ⟨ha, slots, cwd, hc⟩ := hpre
    cases hop
    exact ⟨_, rfl, h.runnable ha hc⟩
  | zombie =>
    obtain ⟨-, hat, hknown, hcwd⟩ := hpre
    cases hop
    exact ⟨_, rfl, h.zombie hat hknown hcwd⟩
  | reap q =>
    obtain ⟨ha, -⟩ := hpre
    simp only [handler] at hop
    split_ifs at hop with hq
    · cases hop
      exact ⟨_, rfl, h.reap ha hq⟩
    · simp only [Outcome.ok.injEq] at hop
      exact ⟨_, rfl, h.same hop.2.symm⟩
  | panic msg => cases r

theorem share_boot (init : Fin n) (env : Nat → Nat) (q : Fin n) :
    (boot init env).share q = if q = init then tok (.inode 0) else 0 := by
  have hslots : ∑ fd, slotWeight ((boot init env).ofile q fd) = 0 :=
    sum_eq_zero fun fd _ => rfl
  rw [State.share, hslots, add_zero]
  by_cases hq : q = init
  · simp only [boot, hq, if_true, cwdWeight]
  · simp only [boot, hq, if_false, cwdWeight]

theorem inv_boot (init : Fin n) (env : Nat → Nat) : Inv (boot init env) fun _ => .idle where
  balance := by
    have houtside : (boot init env).outside = 0 := sum_eq_zero fun f _ => rfl
    have hshare : ∑ q, (boot init env).share q = tok (.inode 0) := by
      simp only [share_boot, sum_ite_eq', mem_univ, if_true]
    have hheld : ∑ _q : Fin n, (View.idle : View n).held = 0 := sum_eq_zero fun q _ => rfl
    rw [houtside, hshare, hheld, zero_add, add_zero]
    funext t
    cases t with
    | inode ip => by_cases hip : ip = 0 <;> simp [State.count, boot, tok, hip]
    | file f => simp [State.count, boot, tok]
    | pend x w => cases w <;> simp [State.count, boot, tok, Pipe.isOpen]
    | page x => simp [State.count, boot, tok]
  nonneg q t := by
    have hzero : (View.idle : View n).held t = 0 := rfl
    rw [hzero, add_zero]
    exact share_nonneg _ q t
  knows q := ⟨nofun, fun _ => rfl, nofun, nofun, nofun, nofun, rfl⟩
  fresh := nofun
  child := nofun
  empty q hq := by
    have hne : q ≠ init := fun heq => by simp [boot, heq] at hq
    exact ⟨fun _ => rfl, if_neg hne⟩
  embryo q hq := by
    simp only [boot] at hq
    split at hq <;> cases hq
  closed f _ := rfl
  unique i j hi hj _ _ := by
    have hzero : ∀ k, 0 < ((boot init env).icache k).ref → k = 0 := fun k hk => by
      by_contra hne
      simp [boot, hne] at hk
    rw [hzero i hi, hzero j hj]
  pipes _ _ := rfl

variable {init : Fin n} {env : Nat → Nat} {tr : List (Sys n × Action (Fin n) (Call n))}
    {sys : Sys n}

theorem balance_of_trace (htr : Trace Sys.step (Sys.boot init env) tr sys) :
    ∃ views, Inv sys.state views ∧ (fileProtocol n).Covers .idle views sys.threads :=
  htr.invariant (I := fun _ sys => ∃ views, Inv sys.state views ∧
      (fileProtocol n).Covers .idle views sys.threads)
    ⟨fun _ => .idle, inv_boot init env, fun _ => rfl⟩
    fun _ _ _ _ _ ⟨_, hI, hcov⟩ hstep =>
      Threads.invariant_step keeps (fun _ c _ => wp_body c) hI hcov hstep

def Sys.Quiet (sys : Sys n) : Prop := ∀ p, sys.threads p = none

theorem inv_of_quiet (htr : Trace Sys.step (Sys.boot init env) tr sys) (hq : sys.Quiet) :
    Inv sys.state fun _ => .idle := by
  obtain ⟨views, hI, hcov⟩ := balance_of_trace htr
  have hviews : views = fun _ => .idle := funext fun p => by
    have hview := hcov p
    rwa [hq p] at hview
  rwa [hviews] at hI

theorem Inv.no_panic (h : Inv s views) {o : Op n} (hpre : (fileProtocol n).pre o (views p)) :
    handler p o s ≠ .panic "filedup" ∧ handler p o s ≠ .panic "fileclose" := by
  have hfile : ∀ f, 1 ≤ (views p).ownFile f → ¬ (s.files f).ref < 1 := fun f hown => by
    have hcount := h.one_le_count (le_trans hown ((h.knows p).ownFile_le f))
    simp only [State.count] at hcount
    omega
  cases o with
  | filedup f =>
    simp only [handler, hfile f hpre.2, if_false]
    simp
  | fileclose f =>
    simp only [handler, State.fileclose, hfile f hpre.2, if_false]
    split <;> simp
  | panic msg =>
    obtain ⟨hdup, hclose⟩ := hpre
    simp only [handler, ne_eq, Outcome.panic.injEq]
    exact ⟨hdup, hclose⟩
  | iget dev inum =>
    simp only [handler, State.iget]
    split
    · simp
    · split
      · simp
      · simp
  | enter | notInit | fdalloc f | filealloc | kalloc | ilock ip | iunlock ip | idupCwd | takeCwd
  | allocproc | reap q => simp only [handler]; split <;> simp
  | _ => simp [handler]

theorem Sys.no_panic (hI : Inv sys.state views)
    (hcov : (fileProtocol n).Covers .idle views sys.threads) (a : Action (Fin n) (Call n)) :
    sys.step a ≠ .panic "filedup" ∧ sys.step a ≠ .panic "fileclose" := by
  cases a with
  | start p c =>
    simp only [Sys.step, Threads.step]
    split <;> simp
  | step p =>
    simp only [Sys.step, Threads.step]
    split
    · simp
    · simp
    · case _ o k hp =>
      have hno := hI.no_panic (hcov.view hp).1
      split
      · simp
      · simp
      · case _ msg hmsg =>
        rw [hmsg] at hno
        exact ⟨fun heq => hno.1 (by rw [Outcome.panic.injEq] at heq; rw [heq]),
          fun heq => hno.2 (by rw [Outcome.panic.injEq] at heq; rw [heq])⟩

def State.descriptors (s : State n) (p : Fin n) (f : FileId) : Finset (Fin NOFILE) :=
  univ.filter fun fd => s.ofile p fd = some f

def State.pipeFiles (s : State n) (x : Nat) (w : Bool) : Finset FileId :=
  univ.filter fun f =>
    0 < (s.files f).ref ∧ (s.files f).type = .pipe x ∧ (s.files f).writable = w

def State.inodeFiles (s : State n) (ip : InodeId) : Finset FileId :=
  univ.filter fun f => 0 < (s.files f).ref ∧ (s.files f).type = .inode ip

def State.dirProcs (s : State n) (ip : InodeId) : Finset (Fin n) :=
  univ.filter fun p => s.procs p = .running ∧ s.cwd p = some ip

def State.Live (s : State n) (x : Nat) : Prop := x < s.npipes ∧ (s.pipes x).frees = 0

theorem weight_pend (file : File) (x : Nat) (w : Bool) : file.weight (.pend x w) =
      if 0 < file.ref ∧ file.type = .pipe x ∧ file.writable = w then 1 else 0 := by
  obtain ⟨ref, type, readable, writable⟩ := file
  by_cases href : 0 < ref
  · cases type <;> simp [File.weight, FileType.weight, tok, href, eq_comm]
  · simp [File.weight, href]

theorem weight_inode (file : File) (ip : InodeId) :
    file.weight (.inode ip) = if 0 < file.ref ∧ file.type = .inode ip then 1 else 0 := by
  obtain ⟨ref, type, readable, writable⟩ := file
  by_cases href : 0 < ref
  · cases type <;> simp [File.weight, FileType.weight, tok, href, eq_comm]
  · simp [File.weight, href]

theorem outside_pend (s : State n) (x : Nat) (w : Bool) :
    s.outside (.pend x w) = (s.pipeFiles x w).card := by
  simp only [State.outside, Finset.sum_apply, weight_pend, State.pipeFiles, sum_boole]

theorem outside_inode (s : State n) (ip : InodeId) :
    s.outside (.inode ip) = (s.inodeFiles ip).card := by
  simp only [State.outside, Finset.sum_apply, weight_inode, State.inodeFiles, sum_boole]

theorem outside_file (s : State n) (f : FileId) : s.outside (.file f) = 0 := by
  rw [State.outside, Finset.sum_apply]
  refine sum_eq_zero fun g _ => ?_
  rw [File.weight]
  cases (s.files g).type <;> split <;> simp [FileType.weight, tok]

theorem outside_page (s : State n) (x : Nat) : s.outside (.page x) = 0 := by
  rw [State.outside, Finset.sum_apply]
  refine sum_eq_zero fun g _ => ?_
  rw [File.weight]
  cases (s.files g).type <;> split <;> simp [FileType.weight, tok]

theorem share_pipe (s : State n) (p : Fin n) {t : Token}
    (ht : (∃ x w, t = .pend x w) ∨ ∃ x, t = .page x) : s.share p t = 0 := by
  have hcwd : cwdWeight (s.cwd p) t = 0 := by
    cases s.cwd p <;> rcases ht with ⟨x, w, rfl⟩ | ⟨x, rfl⟩ <;> simp [cwdWeight, tok]
  rw [State.share, Pi.add_apply, hcwd, zero_add, Finset.sum_apply]
  refine sum_eq_zero fun fd _ => ?_
  cases s.ofile p fd <;> rcases ht with ⟨x, w, rfl⟩ | ⟨x, rfl⟩ <;> simp [slotWeight, tok]

theorem Inv.count_quiet (h : Inv s fun _ => .idle) (t : Token) :
    s.count t = s.outside t + ∑ p, s.share p t := by
  have hbalance := congrFun h.balance t
  have hheld : (View.idle : View n).held t = 0 := rfl
  simpa only [Pi.add_apply, Finset.sum_apply, hheld, sum_const_zero, add_zero]
    using hbalance

theorem Inv.outside_le (h : Inv s views) (t : Token) : s.outside t ≤ s.count t := by
  have hbalance := congrFun h.balance t
  have hnonneg : 0 ≤ ∑ p, (s.share p t + (views p).held t) :=
    sum_nonneg fun p _ => h.nonneg p t
  rw [sum_add_distrib] at hnonneg
  simp only [Pi.add_apply, Finset.sum_apply] at hbalance
  omega

/-- A page is freed at most once, and only when both ends are closed. -/
theorem Inv.frees_le (h : Inv s views) (x : Nat) :
    (s.pipes x).frees ≤ if x < s.npipes ∧ (s.pipes x).shut = true then 1 else 0 := by
  have hle := h.outside_le (.page x)
  rw [outside_page, State.count] at hle
  split at hle
  · case isTrue hshut => rw [if_pos hshut]; omega
  · case isFalse hshut => rw [if_neg hshut]; omega

theorem Inv.live_of_file (h : Inv s views) {f : FileId} {x : Nat} (href : 0 < (s.files f).ref)
    (htype : (s.files f).type = .pipe x) : s.Live x := by
  have hmem : f ∈ s.pipeFiles x (s.files f).writable := by
    simp [State.pipeFiles, href, htype]
  have hcount := h.outside_le (.pend x (s.files f).writable)
  rw [outside_pend, State.count] at hcount
  have hpos := card_pos.mpr ⟨f, hmem⟩
  have hopen : (s.pipes x).isOpen (s.files f).writable = true := by
    by_contra hclosed
    rw [if_neg hclosed] at hcount
    omega
  have hshut : (s.pipes x).shut = false := by
    rw [Pipe.isOpen] at hopen
    rw [Pipe.shut]
    split at hopen <;> simp [hopen]
  refine ⟨?_, ?_⟩
  · by_contra hge
    rw [h.pipes x (by omega)] at hopen
    simp [Pipe.isOpen] at hopen
  · have hfrees := h.frees_le x
    simpa [hshut] using hfrees

structure State.FilesCounted (s : State n) : Prop where
  refs : ∀ f, (s.files f).ref = ∑ p, (s.descriptors p f).card
  ends : ∀ x w, (s.pipes x).isOpen w = true ↔
    ∃ f, 0 < (s.files f).ref ∧ (s.files f).type = .pipe x ∧ (s.files f).writable = w
  live : ∀ x, s.Live x ↔ (s.pipes x).readopen = true ∨ (s.pipes x).writeopen = true
  freed : ∀ x, x < s.npipes → ¬ s.Live x → (s.pipes x).frees = 1

section

variable (h : Inv s fun _ => .idle)

include h

theorem Inv.ref_eq (f : FileId) : (s.files f).ref = ∑ p, (s.descriptors p f).card := by
  have hcount := h.count_quiet (.file f)
  simp only [State.count, outside_file, share_file, sum_boole, zero_add] at hcount
  exact_mod_cast hcount

theorem Inv.isOpen_iff (x : Nat) (w : Bool) :
    (s.pipes x).isOpen w = true ↔ (s.pipeFiles x w).Nonempty := by
  have hcount := h.count_quiet (.pend x w)
  have hshare : ∀ p, s.share p (.pend x w) = 0 := fun p => share_pipe s p (.inl ⟨x, w, rfl⟩)
  simp only [State.count, outside_pend, hshare, sum_const_zero, add_zero] at hcount
  rw [← card_pos]
  split at hcount
  · case isTrue hopen => exact iff_of_true hopen (by omega)
  · case isFalse hclosed => exact iff_of_false hclosed (by omega)

theorem Inv.frees_eq (x : Nat) :
    (s.pipes x).frees = if x < s.npipes ∧ (s.pipes x).shut = true then 1 else 0 := by
  have hcount := h.count_quiet (.page x)
  have hshare : ∀ p, s.share p (.page x) = 0 := fun p => share_pipe s p (.inr ⟨x, rfl⟩)
  simp only [State.count, outside_page, hshare, sum_const_zero, add_zero] at hcount
  split at hcount
  · case isTrue hshut => rw [if_pos hshut]; omega
  · case isFalse hshut => rw [if_neg hshut]; omega

theorem Inv.filesCounted : s.FilesCounted where
  refs := h.ref_eq
  ends x w := by
    rw [h.isOpen_iff x w]
    constructor
    · intro ⟨f, hf⟩
      exact ⟨f, by simpa [State.pipeFiles] using hf⟩
    · intro ⟨f, hf⟩
      exact ⟨f, by simpa [State.pipeFiles] using hf⟩
  live x := by
    have hfrees := h.frees_eq x
    by_cases hx : x < s.npipes
    · cases hr : (s.pipes x).readopen <;> cases hw : (s.pipes x).writeopen <;>
        simp [State.Live, hfrees, hx, Pipe.shut, hr, hw]
    · simp [State.Live, hx, h.pipes x (by omega)]
  freed x hx hdead := by
    have hfrees := h.frees_eq x
    by_cases hshut : x < s.npipes ∧ (s.pipes x).shut = true
    · rwa [if_pos hshut] at hfrees
    · rw [if_neg hshut] at hfrees
      exact absurd ⟨hx, hfrees⟩ hdead

end

/-- In every interleaving of calls: while no call is in progress, a file's count is the number
of descriptors that point to it, a pipe's page is there exactly while one of its ends is open,
an end is open exactly while an open file is that end, and a page that is gone was freed once.
At all times no page is freed twice, no open file refers to a pipe whose page is gone, and the
next step panics neither in `filedup` nor in `fileclose`. -/
theorem files_and_pipes (htr : Trace Sys.step (Sys.boot init env) tr sys) :
    (sys.Quiet → sys.state.FilesCounted) ∧
    (∀ x, (sys.state.pipes x).frees ≤ 1) ∧
    (∀ f x, 0 < (sys.state.files f).ref → (sys.state.files f).type = .pipe x → sys.state.Live x) ∧
    ∀ a, sys.step a ≠ .panic "filedup" ∧ sys.step a ≠ .panic "fileclose" := by
  obtain ⟨views, hI, hcov⟩ := balance_of_trace htr
  refine ⟨fun hq => (inv_of_quiet htr hq).filesCounted, fun x => ?_, fun f x => hI.live_of_file,
    Sys.no_panic hI hcov⟩
  have hfrees := hI.frees_le x
  split at hfrees <;> omega

def forked (p q : Fin 2) : List (Action (Fin 2) (Call 2)) :=
  [.start p (.pipe true)] ++ List.replicate 10 (.step p) ++
  [.start p .fork] ++ List.replicate 28 (.step p) ++
  [.start q (.close 0)] ++ List.replicate 6 (.step q)

theorem forked_counted : ∃ tr sys, Trace Sys.step (Sys.boot (0 : Fin 2) fun _ => 1) tr sys ∧
    (sys.state.files 0).ref = 1 ∧ (sys.state.files 1).ref = 2 ∧ sys.state.FilesCounted := by
  obtain ⟨tr, sys, htr, -, hgood⟩ := Trace.of_actions Sys.step (Sys.boot (0 : Fin 2) fun _ => 1)
    (forked 0 1) (fun sys => (sys.threads 0).isNone && (sys.threads 1).isNone &&
      (sys.state.files 0).ref == 1 && (sys.state.files 1).ref == 2) (by decide +kernel)
  simp only [Bool.and_eq_true, Option.isNone_iff_eq_none, beq_iff_eq] at hgood
  obtain ⟨⟨⟨h0, h1⟩, hread⟩, hwrite⟩ := hgood
  refine ⟨tr, sys, htr, hread, hwrite, (files_and_pipes htr).1 fun p => ?_⟩
  match p with
  | 0 => exact h0
  | 1 => exact h1

theorem Inv.cwd_running (h : Inv s fun _ => .idle) {ip : InodeId} (hcwd : s.cwd p = some ip) :
    s.procs p = .running := by
  cases hproc : s.procs p with
  | running => rfl
  | unused => rw [(h.empty p (.inl hproc)).2] at hcwd; cases hcwd
  | zombie => rw [(h.empty p (.inr hproc)).2] at hcwd; cases hcwd
  | embryo =>
    obtain ⟨q, c, hc, -⟩ := h.embryo p hproc
    cases hc

theorem Inv.iref_eq (h : Inv s fun _ => .idle) (ip : InodeId) :
    (s.icache ip).ref = (s.inodeFiles ip).card + (s.dirProcs ip).card := by
  have hcount := h.count_quiet (.inode ip)
  have hdirs : s.dirProcs ip = univ.filter fun p => s.cwd p = some ip := by
    refine filter_congr fun p _ => ⟨fun hp => hp.2, fun hp => ⟨h.cwd_running hp, hp⟩⟩
  simp only [State.count, outside_inode, share_inode, sum_boole] at hcount
  rw [hdirs]
  omega

/-- In every interleaving of calls: while no call is in progress, the count of an entry of the
inode cache is the number of open files and of current directories that it is, and every process
has called `end_op` as often as `begin_op`.  At all times no two entries in use are of the same
inode, and a process has at most one `begin_op` that is not ended. -/
theorem inode_references (htr : Trace Sys.step (Sys.boot init env) tr sys) :
    (sys.Quiet → (∀ ip, (sys.state.icache ip).ref =
        (sys.state.inodeFiles ip).card + (sys.state.dirProcs ip).card) ∧
      ∀ p, sys.state.begins p = sys.state.ends p) ∧
    (∀ i j, 0 < (sys.state.icache i).ref → 0 < (sys.state.icache j).ref →
      (sys.state.icache i).dev = (sys.state.icache j).dev →
      (sys.state.icache i).inum = (sys.state.icache j).inum → i = j) ∧
    ∀ p, sys.state.ends p ≤ sys.state.begins p ∧ sys.state.begins p ≤ sys.state.ends p + 1 := by
  obtain ⟨views, hI, -⟩ := balance_of_trace htr
  refine ⟨fun hq => ?_, hI.unique, fun p => ?_⟩
  · have hidle := inv_of_quiet htr hq
    exact ⟨hidle.iref_eq, fun p => (hidle.knows p).ops⟩
  · have hops := (hI.knows p).ops
    have hbit := Bool.toNat_le (views p).inOp
    omega

/-- A process opens `/a`, which is the root directory again. -/
theorem opened_references : ∃ tr sys, Trace Sys.step (Sys.boot (0 : Fin 1) fun _ => 1) tr sys ∧
    (sys.state.icache 0).ref = 2 ∧
    (sys.state.inodeFiles 0).card + (sys.state.dirProcs 0).card = 2 := by
  obtain ⟨tr, sys, htr, -, hgood⟩ := Trace.of_actions Sys.step (Sys.boot (0 : Fin 1) fun _ => 1)
    ([.start 0 (.open (some [47, 97]) 0)] ++ List.replicate 20 (.step 0))
    (fun sys => (sys.threads 0).isNone && (sys.state.icache 0).ref == 2)
    (by decide +kernel)
  simp only [Bool.and_eq_true, Option.isNone_iff_eq_none, beq_iff_eq] at hgood
  obtain ⟨hquiet, href⟩ := hgood
  have hrefs := ((inode_references htr).1 fun p => by rwa [Fin.fin_one_eq_zero p]).1 0
  exact ⟨tr, sys, htr, href, by rw [← hrefs, href]⟩

end Xv6.Files
